/-
# The counting Bloom prefilter

`src/search/bloom_prefilter.rs` answers whether a value is certainly absent.  It counts how
often each value was inserted in a map, and only the first insert and the last remove of a
value touch the shared counters, at the positions that double hashing gives it.  Positions
of one value may coincide and values share counters.

* `balance` : how often a value was inserted and not removed again, from the history alone;
* `Counts` : the map holds the balances and every counter the positions of the live values;
* `counting_prefilter_exact` : what that means for `definitely_absent` and `remove`.

The hash is a parameter: nothing here depends on which positions it gives.
-/
import EideticEngine.MachineInt
import EideticEngine.OrderedMap
import Mathlib.Algebra.BigOperators.Group.Finset.Basic
import Mathlib.Tactic

namespace BloomPrefilter

open Std (ExtTreeMap)

/-! ## The filter -/

def defaultHashCount : ℕ := 7

def maxBloomCounters : ℕ := 2 ^ 20

/-- `CountingBloomPrefilter`. -/
structure CountingBloomPrefilter where
  counters : List ℕ
  values : ExtTreeMap String ℕ
  hashCount : ℕ
  inserted : ℕ

namespace CountingBloomPrefilter

/-- An empty filter with `bitCount` counters. -/
def withCounters (bitCount : ℕ) : CountingBloomPrefilter where
  counters := List.replicate bitCount 0
  values := ∅
  hashCount := defaultHashCount
  inserted := 0

/-- `CountingBloomPrefilter::with_capacity`, over the floating-point `optimal_bit_count`. -/
def withCapacity (optimalBitCount : ℕ → ℕ) (expectedItems : ℕ) : CountingBloomPrefilter :=
  withCounters (max 1 (min (optimalBitCount expectedItems) maxBloomCounters))

/-- Every capacity gives at least one counter. -/
theorem withCapacity_eq_withCounters (bits : ℕ → ℕ) (items : ℕ) :
    ∃ bitCount, 0 < bitCount ∧ bitCount ≤ maxBloomCounters ∧
      withCapacity bits items = withCounters bitCount := by
  refine ⟨_, ?_, ?_, rfl⟩
  · exact Nat.lt_of_lt_of_le Nat.one_pos (le_max_left 1 _)
  · exact max_le (by decide) (min_le_right _ _)

variable (hashWithSeed : String → UInt64 → UInt64)

/-- The positions of a value, by double hashing with wrapping arithmetic. -/
def indexes (filter : CountingBloomPrefilter) (value : String) : List ℕ :=
  let first := hashWithSeed value 0
  let second := max (hashWithSeed value 1) 1
  (List.range filter.hashCount).map fun i =>
    (first + UInt64.ofNat i * second).toNat % filter.counters.length

def insert (filter : CountingBloomPrefilter) (value : String) : CountingBloomPrefilter :=
  let count := min (filter.values[value]?.getD 0 + 1) u64Max
  let values := filter.values.insert value count
  if 1 < count then { filter with values }
  else
    { filter with
      values
      counters := (filter.indexes hashWithSeed value).foldl
        (fun counters index => counters.modify index fun c => min (c + 1) u64Max)
        filter.counters
      inserted := min (filter.inserted + 1) u64Max }

/-- Whether the value was present, and the filter with one insert of it less. -/
def remove (filter : CountingBloomPrefilter) (value : String) : Bool × CountingBloomPrefilter :=
  match filter.values[value]? with
  | none => (false, filter)
  | some count =>
    if 0 < count - 1 then
      (true, { filter with values := filter.values.insert value (count - 1) })
    else
      (true,
        { filter with
          values := filter.values.erase value
          counters := (filter.indexes hashWithSeed value).foldl
            (fun counters index => counters.modify index fun c => c - 1) filter.counters
          inserted := filter.inserted - 1 })

def mightContain (filter : CountingBloomPrefilter) (value : String) : Bool :=
  (filter.indexes hashWithSeed value).all fun index => 0 < filter.counters.getD index 0

def definitelyAbsent (filter : CountingBloomPrefilter) (value : String) : Bool :=
  !filter.mightContain hashWithSeed value

end CountingBloomPrefilter

/-! ## Histories -/

/-- A call that changes the filter. -/
inductive Op where
  | insert (value : String)
  | remove (value : String)
  deriving DecidableEq, Repr

def Op.value : Op → String
  | .insert value => value
  | .remove value => value

/-- How often `value` was inserted and not removed again; a remove of an absent value does
not count. -/
def balance (ops : List Op) (value : String) : ℕ :=
  ops.foldl (fun n op =>
    match op with
    | .insert v => if v = value then n + 1 else n
    | .remove v => if v = value then n - 1 else n) 0

/-- The values that are inserted more often than removed. -/
def live (ops : List Op) : Finset String :=
  {v ∈ (ops.map Op.value).toFinset | 0 < balance ops v}

theorem balance_concat_insert (ops : List Op) (v value : String) :
    balance (ops ++ [Op.insert v]) value =
      if v = value then balance ops value + 1 else balance ops value := by
  rw [balance, List.foldl_append]
  rfl

theorem balance_concat_remove (ops : List Op) (v value : String) :
    balance (ops ++ [Op.remove v]) value =
      if v = value then balance ops value - 1 else balance ops value := by
  rw [balance, List.foldl_append]
  rfl

theorem balance_le_length (ops : List Op) (value : String) :
    balance ops value ≤ ops.length := by
  induction ops using List.reverseRecOn with
  | nil => exact Nat.le_refl 0
  | append_singleton ops op ih =>
    rw [List.length_append, List.length_singleton]
    cases op with
    | insert v =>
      rw [balance_concat_insert]
      split <;> omega
    | remove v =>
      rw [balance_concat_remove]
      split <;> omega

/-- Only a value of the history has a balance. -/
theorem mem_of_balance_pos (ops : List Op) (value : String) (h : 0 < balance ops value) :
    value ∈ ops.map Op.value := by
  induction ops using List.reverseRecOn with
  | nil => exact absurd h (Nat.lt_irrefl 0)
  | append_singleton ops op ih =>
    rw [List.map_append, List.mem_append]
    cases op with
    | insert v =>
      rw [balance_concat_insert] at h
      split at h
      · rename_i hv
        exact Or.inr (by simp [Op.value, hv])
      · exact Or.inl (ih h)
    | remove v =>
      rw [balance_concat_remove] at h
      split at h
      · exact Or.inl (ih (by omega))
      · exact Or.inl (ih h)

@[simp]
theorem mem_live (ops : List Op) (value : String) :
    value ∈ live ops ↔ 0 < balance ops value := by
  rw [live, Finset.mem_filter, List.mem_toFinset]
  exact ⟨fun h => h.2, fun h => ⟨mem_of_balance_pos ops value h, h⟩⟩

/-- A call makes at most one value live. -/
theorem card_live_le (ops : List Op) : (live ops).card ≤ ops.length :=
  calc (live ops).card ≤ (ops.map Op.value).toFinset.card := Finset.card_filter_le _ _
    _ ≤ (ops.map Op.value).length := List.toFinset_card_le _
    _ = ops.length := List.length_map _

/-- The first insert of a value makes it live; a further one changes nothing. -/
theorem live_concat_insert (ops : List Op) (v : String) :
    live (ops ++ [Op.insert v]) = insert v (live ops) := by
  ext value
  rw [mem_live, balance_concat_insert, Finset.mem_insert, mem_live]
  by_cases h : v = value
  · simp [h]
  · have hne : value ≠ v := fun hv => h hv.symm
    simp [h, hne]

/-- The last remove of a value takes it away. -/
theorem live_concat_remove (ops : List Op) (v : String) :
    live (ops ++ [Op.remove v]) = if balance ops v ≤ 1 then (live ops).erase v else live ops := by
  ext value
  rw [mem_live, balance_concat_remove]
  by_cases h : v = value
  · rw [if_pos h, h]
    split
    · simp only [Finset.mem_erase, mem_live, ne_eq, not_true_eq_false, false_and, iff_false]
      omega
    · rw [mem_live]
      omega
  · have hne : value ≠ v := fun hv => h hv.symm
    rw [if_neg h]
    split <;> simp [hne]

/-- The filter with `bitCount` counters after a history. -/
def run (hashWithSeed : String → UInt64 → UInt64) (bitCount : ℕ) (ops : List Op) :
    CountingBloomPrefilter :=
  ops.foldl (fun filter op =>
    match op with
    | .insert value => filter.insert hashWithSeed value
    | .remove value => (filter.remove hashWithSeed value).2)
    (CountingBloomPrefilter.withCounters bitCount)

/-! ## Counting positions -/

/-- Changing counters keeps their number. -/
theorem length_foldl_modify (g : ℕ → ℕ) (indexes : List ℕ) (cs : List ℕ) :
    (indexes.foldl (fun cs index => cs.modify index g) cs).length = cs.length := by
  induction indexes generalizing cs with
  | nil => rfl
  | cons index indexes ih => rw [List.foldl_cons, ih, List.length_modify]

/-- A counter is changed once for each occurrence of its position. -/
theorem getElem?_foldl_modify (g : ℕ → ℕ) (indexes : List ℕ) (cs : List ℕ) (j : ℕ) :
    (indexes.foldl (fun cs index => cs.modify index g) cs)[j]?
      = cs[j]?.map (g^[indexes.count j]) := by
  induction indexes generalizing cs with
  | nil => simp
  | cons index indexes ih =>
    rw [List.foldl_cons, ih, List.getElem?_modify, List.count_cons]
    by_cases h : index = j
    · simp [h]
    · simp [h]

/-- Saturating increments are exact below the largest `usize`. -/
theorem iterate_saturating_succ (n c : ℕ) :
    (fun c => min (c + 1) u64Max)^[n] (min c u64Max) = min (c + n) u64Max := by
  induction n with
  | zero => rfl
  | succ n ih =>
    rw [Function.iterate_succ_apply', ih]
    omega

theorem iterate_pred (n c : ℕ) : (fun c => c - 1)^[n] c = c - n := by
  induction n with
  | zero => rfl
  | succ n ih =>
    rw [Function.iterate_succ_apply', ih]
    omega

/-! ## The map holds the balances -/

variable {hashWithSeed : String → UInt64 → UInt64} {bitCount : ℕ} {ops : List Op}
  {filter : CountingBloomPrefilter} {value : String}

/-- The map of values holds the positive balances of the history, on `bitCount` counters. -/
structure Tracks (bitCount : ℕ) (ops : List Op) (filter : CountingBloomPrefilter) : Prop where
  values : ∀ v, filter.values[v]? = if balance ops v = 0 then none else some (balance ops v)
  length : filter.counters.length = bitCount
  hashCount : filter.hashCount = defaultHashCount

theorem Tracks.nil : Tracks bitCount [] (CountingBloomPrefilter.withCounters bitCount) where
  values := fun _ => ExtTreeMap.getElem?_empty
  length := List.length_replicate
  hashCount := rfl

/-- The positions depend on the number of counters and of hashes alone. -/
theorem Tracks.indexes (h : Tracks bitCount ops filter) :
    filter.indexes hashWithSeed
      = (CountingBloomPrefilter.withCounters bitCount).indexes hashWithSeed := by
  funext v
  unfold CountingBloomPrefilter.indexes
  rw [h.hashCount, h.length]
  simp [CountingBloomPrefilter.withCounters]

/-- The first insert of a value. -/
theorem insert_fresh (h : filter.values[value]? = none) : filter.insert hashWithSeed value =
      { filter with
        values := filter.values.insert value 1
        counters := (filter.indexes hashWithSeed value).foldl
          (fun cs index => cs.modify index fun c => min (c + 1) u64Max)
          filter.counters
        inserted := min (filter.inserted + 1) u64Max } := by
  unfold CountingBloomPrefilter.insert
  rw [h]
  rfl

/-- A further insert of a value. -/
theorem insert_again {n : ℕ} (h : filter.values[value]? = some n) (hp : 0 < n) (hm : n < u64Max) :
    filter.insert hashWithSeed value =
      { filter with values := filter.values.insert value (n + 1) } := by
  have hc : min (n + 1) u64Max = n + 1 := min_eq_left hm
  unfold CountingBloomPrefilter.insert
  simp only [h, Option.getD_some, hc]
  rw [if_pos (by omega)]

/-- The values tracked after an insertion. -/
theorem Tracks.insert (h : Tracks bitCount ops filter) (hl : ops.length < u64Max)
    (value : String) :
    Tracks bitCount (ops ++ [Op.insert value]) (filter.insert hashWithSeed value) := by
  have hb := balance_le_length ops value
  have hm := h.values value
  by_cases hz : balance ops value = 0
  · rw [if_pos hz] at hm
    rw [insert_fresh hm]
    refine ⟨?_, ?_, h.hashCount⟩
    · intro v
      rw [ExtTreeMap.getElem?_insert_ite, balance_concat_insert, h.values v]
      by_cases hv : value = v
      · simp [← hv, hz]
      · simp [hv]
    · exact (length_foldl_modify _ _ _).trans h.length
  · rw [if_neg hz] at hm
    rw [insert_again hm (by omega) (by omega)]
    refine ⟨?_, h.length, h.hashCount⟩
    intro v
    rw [ExtTreeMap.getElem?_insert_ite, balance_concat_insert, h.values v]
    by_cases hv : value = v
    · simp [hv]
    · simp [hv]

/-- The remove of a value that was inserted more than once. -/
theorem remove_again {n : ℕ} (h : filter.values[value]? = some n) (hn : 1 < n) :
    filter.remove hashWithSeed value =
      (true, { filter with values := filter.values.insert value (n - 1) }) := by
  unfold CountingBloomPrefilter.remove
  rw [h]
  exact if_pos (by omega)

/-- The last remove of a value. -/
theorem remove_last (h : filter.values[value]? = some 1) : filter.remove hashWithSeed value = (true,
        { filter with
          values := filter.values.erase value
          counters := (filter.indexes hashWithSeed value).foldl
            (fun cs index => cs.modify index fun c => c - 1) filter.counters
          inserted := filter.inserted - 1 }) := by
  unfold CountingBloomPrefilter.remove
  rw [h]
  rfl

/-- The remove of an absent value. -/
theorem remove_absent (h : filter.values[value]? = none) :
    filter.remove hashWithSeed value = (false, filter) := by
  unfold CountingBloomPrefilter.remove
  rw [h]

/-- The values tracked after a removal. -/
theorem Tracks.remove (h : Tracks bitCount ops filter) (value : String) :
    Tracks bitCount (ops ++ [Op.remove value]) (filter.remove hashWithSeed value).2 := by
  have hm := h.values value
  rcases Nat.lt_trichotomy (balance ops value) 1 with hb | hb | hb
  · have hz : balance ops value = 0 := by omega
    rw [if_pos hz] at hm
    rw [remove_absent hm]
    refine ⟨?_, h.length, h.hashCount⟩
    intro v
    rw [balance_concat_remove, h.values v]
    by_cases hv : value = v
    · simp [← hv, hz]
    · simp [hv]
  · rw [hb, if_neg one_ne_zero] at hm
    rw [remove_last hm]
    refine ⟨?_, (length_foldl_modify _ _ _).trans h.length, h.hashCount⟩
    intro v
    rw [ExtTreeMap.getElem?_erase_ite, balance_concat_remove, h.values v]
    by_cases hv : value = v
    · simp [← hv, hb]
    · simp [hv]
  · rw [if_neg (by omega)] at hm
    rw [remove_again hm hb]
    refine ⟨?_, h.length, h.hashCount⟩
    intro v
    rw [ExtTreeMap.getElem?_insert_ite, balance_concat_remove, h.values v]
    by_cases hv : value = v
    · have hne : balance ops v - 1 ≠ 0 := by
        rw [← hv]
        omega
      rw [if_pos hv, if_pos hv, if_neg hne, hv]
    · simp [hv]

/-- A history one call longer. -/
theorem run_concat (op : Op) :
    run hashWithSeed bitCount (ops ++ [op]) =
      match op with
      | .insert value => (run hashWithSeed bitCount ops).insert hashWithSeed value
      | .remove value => ((run hashWithSeed bitCount ops).remove hashWithSeed value).2 := by
  rw [run, List.foldl_append]
  cases op <;> rfl

/-- **After fewer than `2 ^ 64` calls the map holds the balances.** -/
theorem tracks_run (ops : List Op) (hl : ops.length ≤ u64Max) :
    Tracks bitCount ops (run hashWithSeed bitCount ops) := by
  induction ops using List.reverseRecOn with
  | nil => exact Tracks.nil
  | append_singleton ops op ih =>
    rw [List.length_append, List.length_singleton] at hl
    rw [run_concat]
    cases op with
    | insert value => exact (ih (by omega)).insert (by omega) value
    | remove value => exact (ih (by omega)).remove value

/-- `remove` reports whether the value has a balance. -/
theorem Tracks.remove_eq_true_iff (h : Tracks bitCount ops filter) (value : String) :
    (filter.remove hashWithSeed value).1 = true ↔ 0 < balance ops value := by
  have hm := h.values value
  rcases Nat.lt_trichotomy (balance ops value) 1 with hb | hb | hb
  · rw [if_pos (by omega)] at hm
    rw [remove_absent hm]
    simp only [Bool.false_eq_true, false_iff]
    omega
  · rw [hb, if_neg one_ne_zero] at hm
    rw [remove_last hm]
    simp [hb]
  · rw [if_neg (by omega)] at hm
    rw [remove_again hm hb]
    simp only [true_iff]
    omega

/-! ## The counters hold the positions of the live values -/

/-- How many positions of the live values fall on the counter `j`. -/
def share (hashWithSeed : String → UInt64 → UInt64) (bitCount : ℕ) (ops : List Op) (j : ℕ) :
    ℕ :=
  ∑ v ∈ live ops, ((CountingBloomPrefilter.withCounters bitCount).indexes hashWithSeed v).count j

/-- Every counter holds its share. -/
def Counts (hashWithSeed : String → UInt64 → UInt64) (bitCount : ℕ) (ops : List Op)
    (filter : CountingBloomPrefilter) : Prop :=
  ∀ j < bitCount, filter.counters[j]? = some (share hashWithSeed bitCount ops j)

/-- A value has seven positions, so a counter holds at most seven for each live value. -/
theorem share_le (ops : List Op) (j : ℕ) :
    share hashWithSeed bitCount ops j ≤ defaultHashCount * (live ops).card := by
  have hle : share hashWithSeed bitCount ops j ≤ (live ops).card • defaultHashCount := by
    apply Finset.sum_le_card_nsmul
    intro v _
    refine List.count_le_length.trans ?_
    simp [CountingBloomPrefilter.indexes, CountingBloomPrefilter.withCounters]
  rwa [smul_eq_mul, Nat.mul_comm] at hle

/-- A live value has its positions in the shares. -/
theorem count_le_share (h : 0 < balance ops value) (j : ℕ) :
    ((CountingBloomPrefilter.withCounters bitCount).indexes hashWithSeed value).count j
      ≤ share hashWithSeed bitCount ops j :=
  Finset.single_le_sum
    (f := fun v =>
      ((CountingBloomPrefilter.withCounters bitCount).indexes hashWithSeed v).count j)
    (fun _ _ => Nat.zero_le _) ((mem_live ops value).mpr h)

theorem share_concat_insert (h : balance ops value = 0) (j : ℕ) :
    share hashWithSeed bitCount (ops ++ [Op.insert value]) j = share hashWithSeed bitCount ops j +
        ((CountingBloomPrefilter.withCounters bitCount).indexes hashWithSeed value).count j := by
  have hn : value ∉ live ops := by
    rw [mem_live, h]
    exact Nat.lt_irrefl 0
  rw [share, live_concat_insert, Finset.sum_insert hn, Nat.add_comm]
  rfl

theorem share_concat_remove (h : balance ops value = 1) (j : ℕ) :
    share hashWithSeed bitCount (ops ++ [Op.remove value]) j = share hashWithSeed bitCount ops j -
        ((CountingBloomPrefilter.withCounters bitCount).indexes hashWithSeed value).count j := by
  have hm : value ∈ live ops := by
    rw [mem_live, h]
    exact Nat.one_pos
  rw [share, live_concat_remove, if_pos h.le, share, ← Finset.add_sum_erase _ _ hm]
  omega

theorem Counts.nil :
    Counts hashWithSeed bitCount [] (CountingBloomPrefilter.withCounters bitCount) := by
  intro j hj
  simp [CountingBloomPrefilter.withCounters, share, live, hj]

/-- An insertion keeps the counters exact below saturation. -/
theorem Counts.insert (ht : Tracks bitCount ops filter) (hl : ops.length < u64Max)
    (hc : Counts hashWithSeed bitCount ops filter)
    (hf : defaultHashCount * (live (ops ++ [Op.insert value])).card ≤ u64Max) :
    Counts hashWithSeed bitCount (ops ++ [Op.insert value]) (filter.insert hashWithSeed value) := by
  have hb := balance_le_length ops value
  have hm := ht.values value
  intro j hj
  by_cases hz : balance ops value = 0
  · rw [if_pos hz] at hm
    have hle : share hashWithSeed bitCount (ops ++ [Op.insert value]) j ≤ u64Max :=
      (share_le _ j).trans hf
    rw [share_concat_insert hz] at hle ⊢
    rw [insert_fresh hm, ht.indexes]
    have hs : share hashWithSeed bitCount ops j
        = min (share hashWithSeed bitCount ops j) u64Max := by omega
    rw [getElem?_foldl_modify, hc j hj, Option.map_some, hs, iterate_saturating_succ]
    congr 1
    omega
  · rw [if_neg hz] at hm
    rw [insert_again hm (by omega) (by omega)]
    have hme : value ∈ live ops := (mem_live ops value).mpr (by omega)
    rw [share, live_concat_insert, Finset.insert_eq_of_mem hme]
    exact hc j hj

/-- A removal keeps the counters exact. -/
theorem Counts.remove (ht : Tracks bitCount ops filter)
    (hc : Counts hashWithSeed bitCount ops filter) (value : String) :
    Counts hashWithSeed bitCount (ops ++ [Op.remove value])
      (filter.remove hashWithSeed value).2 := by
  have hm := ht.values value
  intro j hj
  rcases Nat.lt_trichotomy (balance ops value) 1 with hb | hb | hb
  · rw [if_pos (by omega)] at hm
    have hn : value ∉ live ops := by
      rw [mem_live]
      omega
    rw [remove_absent hm, share, live_concat_remove, if_pos hb.le, Finset.erase_eq_of_notMem hn]
    exact hc j hj
  · rw [hb, if_neg one_ne_zero] at hm
    rw [remove_last hm, share_concat_remove hb, ht.indexes]
    rw [getElem?_foldl_modify, hc j hj, Option.map_some, iterate_pred]
  · rw [if_neg (by omega)] at hm
    rw [remove_again hm hb, share, live_concat_remove, if_neg (by omega)]
    exact hc j hj

/-- **The counters are exact** while the positions of the live values fit a `usize`. -/
theorem counts_run (ops : List Op) (hle : ops.length ≤ u64Max)
    (hl : ∀ p, p <+: ops → defaultHashCount * (live p).card ≤ u64Max) :
    Counts hashWithSeed bitCount ops (run hashWithSeed bitCount ops) := by
  induction ops using List.reverseRecOn with
  | nil => exact Counts.nil
  | append_singleton ops op ih =>
    rw [List.length_append, List.length_singleton] at hle
    have hc := ih (by omega) fun p hp => hl p (hp.trans (List.prefix_append _ _))
    have ht : Tracks bitCount ops (run hashWithSeed bitCount ops) := tracks_run ops (by omega)
    rw [run_concat]
    cases op with
    | insert value => exact Counts.insert ht (by omega) hc (hl _ (List.prefix_refl _))
    | remove value => exact Counts.remove ht hc value

/-- A value whose positions all have a count is not reported absent. -/
theorem Counts.definitelyAbsent_eq_false (hco : 0 < bitCount)
    (ht : Tracks bitCount ops filter) (hc : Counts hashWithSeed bitCount ops filter)
    (h : 0 < balance ops value) : filter.definitelyAbsent hashWithSeed value = false := by
  rw [CountingBloomPrefilter.definitelyAbsent, Bool.not_eq_false',
    CountingBloomPrefilter.mightContain, List.all_eq_true]
  intro j hj
  have hlt : j < bitCount := by
    obtain ⟨i, _, rfl⟩ := List.mem_map.mp hj
    rw [ht.length]
    exact Nat.mod_lt _ hco
  rw [ht.indexes] at hj
  have hs := (List.count_pos_iff.mpr hj).trans_le (count_le_share h j)
  simp only [List.getD_eq_getElem?_getD, hc j hlt, Option.getD_some, decide_eq_true_eq]
  exact hs

/-- **The counting prefilter has no false negative.**  After fewer than `2 ^ 64` calls in which
the positions of the live values always fit a `usize`, each counter is the number of positions
of live values on it, no live value is reported absent, and `remove` reports the live ones. -/
theorem counting_prefilter_exact (hashWithSeed : String → UInt64 → UInt64) (bitCount : ℕ)
    (hcount : 0 < bitCount) (ops : List Op) (hlen : ops.length < 2 ^ 64)
    (hlive : ∀ past, past <+: ops → defaultHashCount * (live past).card < 2 ^ 64) :
    let filter := run hashWithSeed bitCount ops
    filter.counters.length = bitCount ∧ (∀ j < bitCount, filter.counters[j]? =
        some (∑ v ∈ live ops, (filter.indexes hashWithSeed v).count j)) ∧
      (∀ v, 0 < balance ops v → filter.definitelyAbsent hashWithSeed v = false) ∧
      ∀ v, (filter.remove hashWithSeed v).1 = true ↔ 0 < balance ops v := by
  intro filter
  have ht : Tracks bitCount ops filter := tracks_run ops (Nat.le_pred_of_lt hlen)
  have hc : Counts hashWithSeed bitCount ops filter :=
    counts_run ops (Nat.le_pred_of_lt hlen) fun past hp => Nat.le_pred_of_lt (hlive past hp)
  refine ⟨ht.length, ?_, ?_, ht.remove_eq_true_iff⟩
  · intro j hj
    rw [ht.indexes]
    exact hc j hj
  · intro v hv
    exact hc.definitelyAbsent_eq_false hcount ht hv

/-- A value that was removed before it was inserted is live. -/
theorem counting_prefilter_exact_removed_first :
    let ops := [Op.remove "a", .insert "a"]
    let filter := run (fun _ _ => 0) 1 ops
    0 < balance ops "a" ∧ filter.definitelyAbsent (fun _ _ => 0) "a" = false := by
  have hl : ∀ p, p <+: [Op.remove "a", .insert "a"] →
      defaultHashCount * (live p).card < 2 ^ 64 := by
    intro p hp
    have hc : (live p).card ≤ 2 := (card_live_le p).trans hp.length_le
    simp only [defaultHashCount]
    omega
  have hb : 0 < balance [Op.remove "a", .insert "a"] "a" := by decide
  obtain ⟨_, _, ha, _⟩ := counting_prefilter_exact (fun _ _ => 0) 1 Nat.one_pos
    [Op.remove "a", .insert "a"] (by decide) hl
  exact ⟨hb, ha "a" hb⟩

/-! ## Removes of absent values, and saturation -/

/-- The calls of the history that insert `value`. -/
def inserts (ops : List Op) (value : String) : ℕ := ops.count (.insert value)

/-- The calls of the history that remove `value`, whether they find it or not. -/
def removes (ops : List Op) (value : String) : ℕ := ops.count (.remove value)

/-- The values whose insert calls outnumber their remove calls. -/
def outnumbering (ops : List Op) : Finset String :=
  {v ∈ (ops.map Op.value).toFinset | removes ops v < inserts ops v}

/-- With one counter every position is `0`. -/
theorem indexes_one (value : String) :
    (CountingBloomPrefilter.withCounters 1).indexes hashWithSeed value
      = List.replicate defaultHashCount 0 := by
  rw [List.eq_replicate_iff]
  constructor
  · simp [CountingBloomPrefilter.indexes, CountingBloomPrefilter.withCounters]
  · intro j hj
    obtain ⟨i, _, rfl⟩ := List.mem_map.mp hj
    exact Nat.mod_one _

/-- A first insert adds seven to a single counter, up to the largest `usize`. -/
theorem counters_one_insert (ht : Tracks 1 ops filter) {c : ℕ}
    (hc : filter.counters[0]? = some (min c u64Max)) (h : balance ops value = 0) :
    (filter.insert hashWithSeed value).counters[0]? = some (min (c + 7) u64Max) := by
  have hm := ht.values value
  rw [if_pos h] at hm
  rw [insert_fresh hm, ht.indexes, indexes_one, getElem?_foldl_modify, hc, Option.map_some,
    List.count_replicate_self, iterate_saturating_succ]
  rfl

/-- A last remove takes seven from it. -/
theorem counters_one_remove (ht : Tracks 1 ops filter) {c : ℕ}
    (hc : filter.counters[0]? = some c) (h : balance ops value = 1) :
    (filter.remove hashWithSeed value).2.counters[0]? = some (c - 7) := by
  have hm := ht.values value
  rw [h, if_neg one_ne_zero] at hm
  rw [remove_last hm, ht.indexes, indexes_one, getElem?_foldl_modify, hc, Option.map_some,
    List.count_replicate_self, iterate_pred]
  rfl

/-- Pairwise different values. -/
def word (i : ℕ) : String := String.ofList (List.replicate i 'a')

theorem word_injective : Function.Injective word := by
  intro i j h
  have hl := congrArg String.length h
  simpa [word] using hl

/-- Insert `n` different values, then remove the first `k` of them. -/
def surge (n k : ℕ) : List Op :=
  (List.range n).map (fun i => Op.insert (word i)) ++ (List.range k).map fun i => Op.remove (word i)

theorem surge_insert (n : ℕ) : surge (n + 1) 0 = surge n 0 ++ [Op.insert (word n)] := by
  simp [surge, List.range_succ]

theorem surge_remove (n k : ℕ) : surge n (k + 1) = surge n k ++ [Op.remove (word k)] := by
  simp [surge, List.range_succ]

theorem balance_surge_zero (n i : ℕ) :
    balance (surge n 0) (word i) = if i < n then 1 else 0 := by
  induction n with
  | zero => rfl
  | succ n ih =>
    rw [surge_insert, balance_concat_insert, ih]
    by_cases h : n = i
    · rw [if_pos (congrArg word h), if_neg (by omega), if_pos (by omega)]
    · rw [if_neg fun hw => h (word_injective hw)]
      split <;> split <;> omega

theorem balance_surge (n k i : ℕ) :
    balance (surge n k) (word i) = if k ≤ i ∧ i < n then 1 else 0 := by
  induction k with
  | zero => simpa using balance_surge_zero n i
  | succ k ih =>
    rw [surge_remove, balance_concat_remove, ih]
    by_cases h : k = i
    · rw [if_pos (congrArg word h)]
      split <;> split <;> omega
    · rw [if_neg fun hw => h (word_injective hw)]
      split <;> split <;> omega

theorem length_surge (n k : ℕ) : (surge n k).length = n + k := by
  simp [surge]

/-- The single counter saturates while the values are inserted … -/
theorem counters_surge_zero (n : ℕ) (hn : n ≤ u64Max) :
    (run hashWithSeed 1 (surge n 0)).counters[0]? = some (min (7 * n) u64Max) := by
  induction n with
  | zero => rfl
  | succ n ih =>
    have ht : Tracks 1 (surge n 0) (run hashWithSeed 1 (surge n 0)) :=
      tracks_run _ (by rw [length_surge]; omega)
    have hf : balance (surge n 0) (word n) = 0 := by
      rw [balance_surge_zero, if_neg (Nat.lt_irrefl n)]
    rw [surge_insert, run_concat]
    exact counters_one_insert ht (ih (by omega)) hf

/-- … and reaches zero before all of them are removed. -/
theorem counters_surge (n k : ℕ) (hk : k ≤ n) (hn : n + k ≤ u64Max) :
    (run hashWithSeed 1 (surge n k)).counters[0]? = some (min (7 * n) u64Max - 7 * k) := by
  induction k with
  | zero => exact counters_surge_zero n hn
  | succ k ih =>
    have ht : Tracks 1 (surge n k) (run hashWithSeed 1 (surge n k)) :=
      tracks_run _ (by rw [length_surge]; omega)
    have hl : balance (surge n k) (word k) = 1 := by
      rw [balance_surge, if_pos (by omega)]
    rw [surge_remove, run_concat]
    exact counters_one_remove ht (ih (by omega) (by omega)) hl

/-- The last value of a surge is inserted once and never removed. -/
theorem removes_lt_inserts_surge (n k : ℕ) (hk : k ≤ n) :
    removes (surge (n + 1) k) (word n) < inserts (surge (n + 1) k) (word n) := by
  have hr : removes (surge (n + 1) k) (word n) = 0 := by
    rw [removes, List.count_eq_zero]
    intro hm
    rcases List.mem_append.mp hm with h | h
    · obtain ⟨i, _, hi⟩ := List.mem_map.mp h
      exact Op.noConfusion hi
    · obtain ⟨i, hlt, hi⟩ := List.mem_map.mp h
      have heq : i = n := word_injective (Op.remove.inj hi)
      rw [List.mem_range] at hlt
      omega
  have hin : 0 < inserts (surge (n + 1) k) (word n) := by
    rw [inserts, List.count_pos_iff]
    refine List.mem_append_left _ (List.mem_map.mpr ⟨n, ?_, rfl⟩)
    exact List.mem_range.mpr (Nat.lt_succ_self n)
  omega

/-- A surge that saturates the counter makes its last value definitely absent. -/
theorem definitelyAbsent_surge {n : ℕ} (hs : u64Max ≤ 7 * n) (hca : n + 1 + n ≤ u64Max) :
    (run hashWithSeed 1 (surge (n + 1) n)).definitelyAbsent hashWithSeed (word n) = true := by
  have ht : Tracks 1 (surge (n + 1) n) (run hashWithSeed 1 (surge (n + 1) n)) :=
    tracks_run _ (by rw [length_surge]; omega)
  have hc : (run hashWithSeed 1 (surge (n + 1) n)).counters[0]? = some 0 := by
    rw [counters_surge (n + 1) n (Nat.le_succ n) hca]
    congr 1
    omega
  rw [CountingBloomPrefilter.definitelyAbsent, Bool.not_eq_true',
    CountingBloomPrefilter.mightContain, List.all_eq_false, ht.indexes, indexes_one]
  refine ⟨0, List.mem_replicate.mpr ⟨by decide, rfl⟩, ?_⟩
  simp [List.getD_eq_getElem?_getD, hc]

/-- **Counting every remove call is wrong, and so is a history without a bound on the live
values.**  A value that is removed before it is inserted is counted although its inserts do not
outnumber its removes; and enough values on one counter saturate it, so that removing all but
one of them makes that one definitely absent. -/
theorem unconditional_counting_fails :
    (¬ ∀ (hashWithSeed : String → UInt64 → UInt64) (bitCount : ℕ) (ops : List Op),
        0 < bitCount → ops.length < 2 ^ 64 → ∀ j < bitCount,
        (run hashWithSeed bitCount ops).counters[j]? = some (∑ v ∈ outnumbering ops,
            ((run hashWithSeed bitCount ops).indexes hashWithSeed v).count j)) ∧
      ∃ ops : List Op, ops.length < 2 ^ 64 ∧ ∃ v, removes ops v < inserts ops v ∧
          (run (fun _ _ => 0) 1 ops).definitelyAbsent (fun _ _ => 0) v = true := by
  constructor
  · intro h
    have hz := h (fun _ _ => 0) 1 [Op.remove "a", .insert "a"] Nat.one_pos (by decide) 0
      Nat.one_pos
    have hn : outnumbering [Op.remove "a", .insert "a"] = ∅ := by decide
    have hse : (run (fun _ _ => 0) 1 [Op.remove "a", .insert "a"]).counters[0]? = some 7 := by
      decide +kernel
    rw [hn, hse] at hz
    simp at hz
  · have hsi : ∃ n, u64Max ≤ 7 * n ∧ n + 1 + n ≤ u64Max := by
      refine ⟨3 * 10 ^ 18, ?_, ?_⟩ <;> norm_num [u64Max]
    obtain ⟨n, hs, hc⟩ := hsi
    refine ⟨surge (n + 1) n, ?_, word n, removes_lt_inserts_surge n n (Nat.le_refl n),
      definitelyAbsent_surge hs hc⟩
    rw [length_surge]
    exact Nat.lt_of_le_of_lt hc (by norm_num [u64Max])

end BloomPrefilter
