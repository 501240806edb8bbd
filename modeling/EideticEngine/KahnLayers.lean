/-
# Chains of prerequisites

Nodes have finite lists of prerequisites.  A node has a chain of length `k` when `k` steps can be
made from it to prerequisites.  The nodes of layer `k` are those whose longest chain has length
`k`.  In a finite graph a node has chains of every length exactly when a cycle can be reached from
it, so layers exhaust the graph exactly when there is no cycle.
-/
import Mathlib

namespace KahnLayers

variable {κ : Type*} {pre : κ → List κ} {a b : κ} {k : ℕ}

variable (pre) in
/-- A chain of `k` prerequisites below a node. -/
inductive HasChain : κ → ℕ → Prop
  | zero (a : κ) : HasChain a 0
  | succ {a b : κ} {k : ℕ} : b ∈ pre a → HasChain b k → HasChain a (k + 1)

theorem hasChain_succ_iff : HasChain pre a (k + 1) ↔ ∃ b ∈ pre a, HasChain pre b k := by
  constructor
  · intro h
    cases h with
    | succ hm hc => exact ⟨_, hm, hc⟩
  · rintro ⟨b, hm, hc⟩
    exact .succ hm hc

/-- A shorter chain is part of a longer one. -/
theorem HasChain.mono (h : HasChain pre a k) {j : ℕ} (hle : j ≤ k) : HasChain pre a j := by
  induction h generalizing j with
  | zero a =>
    rw [Nat.le_zero.mp hle]
    exact .zero a
  | succ hm _ ih =>
    cases j with
    | zero => exact .zero _
    | succ j => exact .succ hm (ih (Nat.le_of_succ_le_succ hle))

variable (pre) in
/-- The nodes whose longest chain has length `k`. -/
def InLayer (a : κ) (k : ℕ) : Prop := HasChain pre a k ∧ ¬ HasChain pre a (k + 1)

/-- The number of the layer is the length of the longest chain. -/
theorem inLayer_iff : InLayer pre a k ↔ HasChain pre a k ∧ ∀ j, HasChain pre a j → j ≤ k := by
  constructor
  · rintro ⟨hc, hn⟩
    refine ⟨hc, fun j hj => not_lt.mp fun hlt => hn (hj.mono hlt)⟩
  · rintro ⟨hc, hma⟩
    exact ⟨hc, fun hm => absurd (hma (k + 1) hm) (Nat.not_succ_le_self k)⟩

/-- A node is in one layer. -/
theorem InLayer.unique {j : ℕ} (h : InLayer pre a k) (h' : InLayer pre a j) : k = j :=
  le_antisymm ((inLayer_iff.mp h').2 k h.1) ((inLayer_iff.mp h).2 j h'.1)

/-- A prerequisite lies in an earlier layer. -/
theorem InLayer.lt_of_mem {j : ℕ} (h : InLayer pre a k) (h' : InLayer pre b j) (hm : b ∈ pre a) :
    j < k := by
  have hc : HasChain pre a (j + 1) := .succ hm h'.1
  exact (inLayer_iff.mp h).2 (j + 1) hc

/-- Same prerequisites, in whatever order and number, same chains. -/
theorem hasChain_congr {p' : κ → List κ} (h : ∀ a b, b ∈ pre a ↔ b ∈ p' a) :
    HasChain pre a k ↔ HasChain p' a k := by
  induction k generalizing a with
  | zero => exact ⟨fun _ => .zero a, fun _ => .zero a⟩
  | succ k ih =>
    rw [hasChain_succ_iff, hasChain_succ_iff]
    exact exists_congr fun b => and_congr (h a b) ih

/-! ## Cycles -/

variable (pre) in
/-- One step to a prerequisite. -/
def Requires (a b : κ) : Prop := b ∈ pre a

variable (pre) in
/-- The node lies on a cycle of prerequisites. -/
def OnCycle (a : κ) : Prop := Relation.TransGen (Requires pre) a a

/-- From what leads to a cycle there are chains of every length. -/
theorem hasChain_of_cycle (hp : Relation.ReflTransGen (Requires pre) a b)
    (hc : OnCycle pre b) (k : ℕ) : HasChain pre a k := by
  induction k generalizing a with
  | zero => exact .zero a
  | succ k ih =>
    rcases hp.cases_head with rfl | ⟨c, hs, hr⟩
    · obtain ⟨c, hs, hr⟩ := Relation.TransGen.head'_iff.mp hc
      exact .succ hs (ih hr)
    · exact .succ hs (ih hr)

/-- A node with chains of every length has a prerequisite with chains of every length. -/
theorem exists_unbounded (h : ∀ k, HasChain pre a k) : ∃ b ∈ pre a, ∀ k, HasChain pre b k := by
  by_contra hnone
  have hbo : ∀ b ∈ pre a, ∃ k, ¬ HasChain pre b k := by
    intro b hb
    by_contra hall
    exact hnone ⟨b, hb, fun k => not_not.mp fun hk => hall ⟨k, hk⟩⟩
  -- All prerequisites have bounded chains, and a list of them has one bound.
  obtain ⟨bound, hbou⟩ : ∃ bound, ∀ b ∈ pre a, ¬ HasChain pre b bound := by
    generalize pre a = l at hbo
    induction l with
    | nil => exact ⟨0, fun b hb => nomatch hb⟩
    | cons c l ih =>
      obtain ⟨k, hk⟩ := hbo c List.mem_cons_self
      obtain ⟨bound, hbou⟩ := ih fun b hb => hbo b (List.mem_cons_of_mem _ hb)
      refine ⟨max k bound, fun b hb => ?_⟩
      rcases List.mem_cons.mp hb with rfl | hb
      · exact fun hc => hk (hc.mono (le_max_left k bound))
      · exact fun hc => hbou b hb (hc.mono (le_max_right k bound))
  obtain ⟨b, hb, hc⟩ := hasChain_succ_iff.mp (h (bound + 1))
  exact hbou b hb hc

section

variable {nodes : List κ} (hclosed : ∀ a ∈ nodes, ∀ b ∈ pre a, b ∈ nodes)

include hclosed in
theorem mem_of_path (ha : a ∈ nodes) (h : Relation.ReflTransGen (Requires pre) a b) :
    b ∈ nodes := by
  induction h with
  | refl => exact ha
  | tail _ hs ih => exact hclosed _ ih _ hs

include hclosed in
/-- **Chains of every length lead to a cycle** in a finite graph. -/
theorem exists_cycle_of_unbounded (ha : a ∈ nodes) (h : ∀ k, HasChain pre a k) :
    ∃ b, Relation.ReflTransGen (Requires pre) a b ∧ OnCycle pre b := by
  by_contra hnone
  -- What can be reached is finite and has no cycle, so descent in it ends.
  let r : Type _ := { b : κ // Relation.ReflTransGen (Requires pre) a b }
  have hs : { b : κ | Relation.ReflTransGen (Requires pre) a b } ⊆ { b | b ∈ nodes } :=
    fun b hb => mem_of_path hclosed ha hb
  have hf : Finite r := (nodes.finite_toSet.subset hs).to_subtype
  let below : r → r → Prop := fun b c => Relation.TransGen (Requires pre) c.1 b.1
  have ht : IsTrans r below := ⟨fun _ _ _ hbc hcd => hcd.trans hbc⟩
  have hi : Std.Irrefl below := ⟨fun b hb => hnone ⟨b.1, b.2, hb⟩⟩
  have hw : WellFounded below := Finite.wellFounded_of_trans_of_irrefl below
  have hal : ∀ b : r, ¬ ∀ k, HasChain pre b.1 k := by
    intro b
    induction b using hw.induction with
    | _ b ih =>
      intro hb
      obtain ⟨c, hm, hc⟩ := exists_unbounded hb
      exact ih ⟨c, b.2.tail hm⟩ (.single hm) hc
  exact hal ⟨a, .refl⟩ h

include hclosed in
theorem unbounded_iff (ha : a ∈ nodes) : (∀ k, HasChain pre a k)
    ↔ ∃ b, Relation.ReflTransGen (Requires pre) a b ∧ OnCycle pre b := by
  constructor
  · exact exists_cycle_of_unbounded hclosed ha
  · rintro ⟨b, hp, hc⟩ k
    exact hasChain_of_cycle hp hc k

include hclosed in
/-- Where no node of layer `k` is left, the chains of the rest do not end. -/
theorem unbounded_of_no_layer (hn : ∀ a ∈ nodes, ¬ InLayer pre a k) (ha : a ∈ nodes)
    (h : HasChain pre a k) (j : ℕ) : HasChain pre a j := by
  -- A chain of `k` steps can always be made one longer.
  have hm : ∀ j, ∀ a ∈ nodes, HasChain pre a (k + j) → HasChain pre a (k + j + 1) := by
    intro j
    induction j with
    | zero => exact fun a ha hc => not_not.mp fun hno => hn a ha ⟨hc, hno⟩
    | succ j ih =>
      intro a ha hc
      obtain ⟨b, hb, hc⟩ := hasChain_succ_iff.mp hc
      exact .succ hb (ih b (hclosed a ha b hb) hc)
  have hal : ∀ j, HasChain pre a (k + j) := by
    intro j
    induction j with
    | zero => exact h
    | succ j ih => exact hm j a ha ih
  exact (hal j).mono (Nat.le_add_left j k)

end

end KahnLayers
