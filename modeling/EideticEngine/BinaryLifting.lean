/-
# Binary lifting

A map `f` sends every element to the next one of its chain, and every element carries a value.
The table of level `l` holds for every element the one `2 ^ l` places further and the least
value on the way; each table is made from the one before.  With the tables up to a level a walk
along the binary digits of a distance (`climb`) reaches any element up the chain, and a walk
down the levels (`separate`) brings two elements as far as their chains stay apart.  Both collect
the least value on the way they went.
-/
import Mathlib.Order.BoundedOrder.Basic
import Mathlib.Order.Lattice
import Mathlib.Logic.Function.Iterate
import Mathlib.Tactic

namespace BinaryLifting

variable {α β : Type*} [LinearOrder β] [OrderTop β]

/-! ## Chains -/

section Chains

variable (f : α → α) (value : α → β)

/-- The least value on the first elements of a chain. -/
def chainMin : ℕ → α → β
  | 0, _ => ⊤
  | n + 1, x => min (value x) (chainMin n (f x))

theorem chainMin_one (x : α) : chainMin f value 1 x = value x := by
  rw [chainMin, chainMin, min_top_right]

/-- A chain in two parts. -/
theorem chainMin_add (m n : ℕ) (x : α) :
    chainMin f value (m + n) x = min (chainMin f value m x) (chainMin f value n (f^[m] x)) := by
  induction m generalizing x with
  | zero => rw [Nat.zero_add, chainMin, min_top_left, Function.iterate_zero, id]
  | succ m ih =>
    rw [Nat.succ_add_eq_add_succ, Nat.add_succ, chainMin, chainMin, ih, min_assoc,
      Function.iterate_succ_apply]

theorem chainMin_succ (n : ℕ) (x : α) :
    chainMin f value (n + 1) x = min (chainMin f value n x) (value (f^[n] x)) := by
  rw [chainMin_add, chainMin_one]

theorem chainMin_le {n k : ℕ} (hk : k < n) (x : α) :
    chainMin f value n x ≤ value (f^[k] x) := by
  induction n with
  | zero => exact absurd hk (Nat.not_lt_zero k)
  | succ n ih =>
    rw [chainMin_succ]
    rcases Nat.lt_succ_iff_lt_or_eq.mp hk with hk | rfl
    · exact (min_le_left _ _).trans (ih hk)
    · exact min_le_right _ _

/-- The least value of a chain that has one is a value of the chain. -/
theorem exists_chainMin_eq {n : ℕ} (hn : 0 < n) (x : α) :
    ∃ k < n, chainMin f value n x = value (f^[k] x) := by
  induction n with
  | zero => exact absurd hn (Nat.lt_irrefl 0)
  | succ n ih =>
    rw [chainMin_succ]
    rcases Nat.eq_zero_or_pos n with rfl | hp
    · exact ⟨0, Nat.one_pos, min_top_left _⟩
    · rcases min_choice (chainMin f value n x) (value (f^[n] x)) with hm | hm
      · obtain ⟨k, hk, hv⟩ := ih hp
        exact ⟨k, hk.trans (Nat.lt_succ_self n), hm.trans hv⟩
      · exact ⟨n, Nat.lt_succ_self n, hm⟩

end Chains

/-! ## Tables -/

/-- The element some places further, and the least value on the way, for every element. -/
abbrev Table (α β : Type*) := (α → α) × (α → β)

/-- A table for twice the distance. -/
def nextTable (t : Table α β) : Table α β :=
  (fun x => t.1 (t.1 x), fun x => min (t.2 x) (t.2 (t.1 x)))

/-- The table of a level. -/
def levelTable (f : α → α) (value : α → β) (level : ℕ) : Table α β :=
  (f^[2 ^ level], chainMin f value (2 ^ level))

variable {f : α → α} {value : α → β}

theorem levelTable_zero : levelTable f value 0 = (f, value) := by
  refine Prod.ext ?_ ?_
  · funext x
    rfl
  · funext x
    exact chainMin_one f value x

theorem nextTable_levelTable (level : ℕ) :
    nextTable (levelTable f value level) = levelTable f value (level + 1) := by
  have hp : 2 ^ (level + 1) = 2 ^ level + 2 ^ level := by
    rw [pow_succ]
    omega
  refine Prod.ext ?_ ?_
  · funext x
    show f^[2 ^ level] (f^[2 ^ level] x) = f^[2 ^ (level + 1)] x
    rw [hp, Function.iterate_add_apply]
  · funext x
    show min (chainMin f value (2 ^ level) x) (chainMin f value (2 ^ level) (f^[2 ^ level] x))
      = chainMin f value (2 ^ (level + 1)) x
    rw [hp, chainMin_add]

/-- Tables that are made one after another are the tables of the levels. -/
theorem iterate_nextTable (count level : ℕ) :
    List.iterate nextTable (levelTable f value level) count
      = (List.range' level count).map (levelTable f value) := by
  induction count generalizing level with
  | zero => rfl
  | succ count ih =>
    rw [List.iterate, nextTable_levelTable, ih, List.range'_succ, List.map_cons]

/-! ## Climbing by the digits of a distance -/

/-- One level of the climb: the table is used when the distance has the binary digit. -/
def climbStep (distance : ℕ) (state : α × β) (entry : Table α β × ℕ) : α × β :=
  if distance.testBit entry.2 then
    (entry.1.1 state.1, min state.2 (entry.1.2 state.1))
  else state

/-- The climb through all tables, from the lowest level on. -/
def climb (tables : List (Table α β)) (distance : ℕ) (state : α × β) : α × β :=
  tables.zipIdx.foldl (climbStep distance) state

/-- The digits up to a level and the next one. -/
theorem mod_two_pow_succ (n level : ℕ) :
    n % 2 ^ (level + 1) = n % 2 ^ level + if n.testBit level then 2 ^ level else 0 := by
  rw [pow_succ, Nat.mod_mul, Nat.testBit_eq_decide_div_mod_eq]
  rcases Nat.mod_two_eq_zero_or_one (n / 2 ^ level) with hb | hb <;> simp [hb]

/-- **A climb goes as far as the digits that the levels cover say.** -/
theorem climb_levelTables (count d : ℕ) (x : α) (least : β) :
    climb ((List.range count).map (levelTable f value)) d (x, least) = (f^[d % 2 ^ count] x,
        min least (chainMin f value (d % 2 ^ count) x)) := by
  unfold climb
  induction count with
  | zero =>
    rw [pow_zero, Nat.mod_one]
    show (x, least) = (x, min least ⊤)
    rw [min_top_right]
  | succ count ih =>
    rw [List.range_succ, List.map_append, List.zipIdx_append, List.foldl_append, ih,
      List.length_map, List.length_range, mod_two_pow_succ]
    simp only [List.map_cons, List.map_nil, List.zipIdx_cons, List.zipIdx_nil, List.foldl_cons,
      List.foldl_nil, climbStep, Nat.zero_add]
    cases d.testBit count with
    | false => simp
    | true =>
      rw [if_pos rfl, if_pos rfl, chainMin_add, ← min_assoc, Nat.add_comm,
        Function.iterate_add_apply]
      rfl

/-! ## Two chains up to where they meet -/

/-- One level of the walk of two elements: both go on while their chains stay apart. -/
def separateStep [DecidableEq α] (state : α × α × β) (table : Table α β) : α × α × β :=
  if table.1 state.1 = table.1 state.2.1 then state
  else
    (table.1 state.1, table.1 state.2.1,
      min (min state.2.2 (table.2 state.1)) (table.2 state.2.1))

/-- The walk of two elements through all tables, from the highest level on. -/
def separate [DecidableEq α] (tables : List (Table α β)) (state : α × α × β) : α × α × β :=
  tables.reverse.foldl separateStep state

/-- **The walk ends at the last elements of the two chains that differ.** -/
theorem separate_levelTables [DecidableEq α] (count : ℕ) :
    ∀ {x y : α} (least : β), x ≠ y → f^[2 ^ count] x = f^[2 ^ count] y →
      ∃ k, f^[k] x ≠ f^[k] y ∧ f^[k + 1] x = f^[k + 1] y ∧
        separate ((List.range count).map (levelTable f value)) (x, y, least)
          = (f^[k] x, f^[k] y, min (min least (chainMin f value k x)) (chainMin f value k y)) := by
  induction count with
  | zero =>
    intro x y least hne hm
    refine ⟨0, hne, hm, ?_⟩
    show (x, y, least) = (x, y, min (min least ⊤) ⊤)
    rw [min_top_right, min_top_right]
  | succ count ih =>
    intro x y least hne hm
    have hst : ∀ s, separate ((List.range (count + 1)).map (levelTable f value)) s
        = separate ((List.range count).map (levelTable f value))
          (separateStep s (levelTable f value count)) := by
      intro s
      unfold separate
      rw [List.range_succ, List.map_append, List.reverse_append, List.foldl_append]
      rfl
    rw [hst]
    unfold separateStep
    by_cases hs : (levelTable f value count).1 x = (levelTable f value count).1 y
    · rw [if_pos hs]
      exact ih least hne hs
    · rw [if_neg hs]
      have hp : 2 ^ (count + 1) = 2 ^ count + 2 ^ count := by
        rw [pow_succ]
        omega
      rw [hp, Function.iterate_add_apply, Function.iterate_add_apply] at hm
      obtain ⟨k, ha, hn, hw⟩ := ih
        (min (min least ((levelTable f value count).2 x)) ((levelTable f value count).2 y))
        hs hm
      refine ⟨k + 2 ^ count, ?_, ?_, ?_⟩
      · rw [Function.iterate_add_apply, Function.iterate_add_apply]
        exact ha
      · rw [Nat.add_right_comm, Function.iterate_add_apply f (k + 1),
          Function.iterate_add_apply f (k + 1)]
        exact hn
      · rw [hw, Function.iterate_add_apply, Function.iterate_add_apply, Nat.add_comm k,
          chainMin_add, chainMin_add]
        refine Prod.ext rfl (Prod.ext rfl ?_)
        dsimp only [levelTable]
        ac_rfl

end BinaryLifting
