/-
# The first elements by selection

To find the first elements of a sorted list it is enough to sort a part of the list, if every
element outside the part comes after as many elements of the part as are wanted.  Such parts are
found by selection: a list is rearranged around the element at one place of its sorted order,
with no element in front of it that comes after it, and none behind it that comes before.
-/
import EideticEngine.BoundedInsert
import EideticEngine.StableSort

namespace TopSelection

open BoundedInsert StableSort

variable {α : Type*} {cmp : α → α → Ordering}

/-! ## Selection -/

/-- A list rearranged around the element at one place of its sorted order. -/
structure Selected (cmp : α → α → Ordering) (index : ℕ) (l l' : List α) : Prop where
  perm : l'.Perm l
  split : ∃ front : List α, ∃ pivot back, l' = front ++ pivot :: back ∧ front.length = index ∧
    (∀ a ∈ front, cmp a pivot ≠ .gt) ∧ ∀ b ∈ back, cmp pivot b ≠ .gt

/-- `select_nth_unstable_by`: the order within the two sides is not specified. -/
structure SelectNth (cmp : α → α → Ordering) where
  run : ℕ → List α → List α
  selected : ∀ index l, index < l.length → Selected cmp index l (run index l)

/-- Sorting is one way to select. -/
def SelectNth.ofSort (cmp : α → α → Ordering) [Std.TransCmp cmp] : SelectNth cmp where
  run _ l := sortBy cmp l
  selected index l hindex := by
    have hsort : IsStableSort cmp l (sortBy cmp l) := isStableSort_sortBy l
    have hperm : (sortBy cmp l).Perm l := List.perm_insertionSort _ l
    rw [← hperm.length_eq] at hindex
    have hsplit : sortBy cmp l = (sortBy cmp l).take index
        ++ (sortBy cmp l)[index] :: (sortBy cmp l).drop (index + 1) := by
      rw [← List.drop_eq_getElem_cons hindex, List.take_append_drop]
    have hpairs := hsort.sorted
    rw [hsplit, List.pairwise_append, List.pairwise_cons] at hpairs
    refine ⟨hperm, _, _, _, hsplit, ?_, ?_, hpairs.2.1.1⟩
    · rw [List.length_take, Nat.min_eq_left hindex.le]
    · intro a ha
      exact hpairs.2.2 a ha _ List.mem_cons_self

/-- The elements up to the place. -/
theorem Selected.take_succ {index : ℕ} {l l' : List α} [Std.TransCmp cmp]
    (h : Selected cmp index l l') :
    ∃ p, l'[index]? = some p ∧ (∀ a ∈ l'.take (index + 1), cmp a p ≠ .gt) ∧
      (l'.take (index + 1)).length = index + 1 := by
  obtain ⟨-, f, p, b, rfl, rfl, hf, -⟩ := h
  refine ⟨p, by simp, ?_, by simp⟩
  intro a ha
  rw [List.take_length_add_append, List.take_succ_cons, List.take_zero, List.mem_append,
    List.mem_singleton] at ha
  rcases ha with ha | rfl
  · exact hf a ha
  · have heq : cmp a a = .eq := Std.ReflCmp.compare_self
    rw [heq]
    decide

/-- The elements before the place come before the others. -/
theorem Selected.take_drop {index : ℕ} {l l' : List α} [Std.TransCmp cmp]
    (h : Selected cmp index l l') :
    (l'.take index).length = index ∧ ∀ a ∈ l'.take index, ∀ b ∈ l'.drop index, cmp a b ≠ .gt := by
  obtain ⟨-, f, p, ba, rfl, rfl, hf, hba⟩ := h
  rw [List.take_left, List.drop_left]
  refine ⟨rfl, fun a ha b hb => ?_⟩
  rcases List.mem_cons.mp hb with rfl | hb
  · exact hf a ha
  · have hle : (cmp a b).isLE := Std.TransCmp.isLE_trans
      (Ordering.isLE_iff_ne_gt.mpr (hf a ha)) (Ordering.isLE_iff_ne_gt.mpr (hba b hb))
    exact Ordering.isLE_iff_ne_gt.mp hle

/-! ## The first elements -/

/-- **A part is enough for the first elements**, if every element outside it comes after as many
elements of the part as are wanted. -/
theorem take_eq_take_of_part [Std.TransCmp cmp] [DecidableEq α] {l p : List α} {count : ℕ}
    (hl : StrictlySorted cmp l) (hpa : StrictlySorted cmp p) (hsu : ∀ a ∈ p, a ∈ l)
    (hr : ∀ x ∈ l, x ∉ p → ∃ better : List α, better.Nodup ∧ count ≤ better.length ∧
      ∀ y ∈ better, y ∈ p ∧ cmp y x = .lt) :
    p.take count = l.take count := by
  -- an element among the first has too few before it to be left out
  have hfi : ∀ x ∈ l.take count, x ∈ p := by
    intro x hx
    by_contra hout
    obtain ⟨better, hn, hc, hb⟩ := hr x (List.mem_of_mem_take hx) hout
    obtain ⟨i, hi, hxi⟩ := List.mem_take_iff_getElem.mp hx
    have hs : l = l.take i ++ x :: l.drop (i + 1) := by
      rw [← hxi, ← List.drop_eq_getElem_cons, List.take_append_drop]
    have hp := hl
    rw [StrictlySorted, hs, List.pairwise_append, List.pairwise_cons] at hp
    have hfr : better ⊆ l.take i := by
      intro y hy
      obtain ⟨hyp, hlt⟩ := hb y hy
      have hyl := hsu y hyp
      rw [hs, List.mem_append, List.mem_cons] at hyl
      rcases hyl with hyl | rfl | hyl
      · exact hyl
      · exact absurd hyp hout
      · have hgt := hp.2.1.1 y hyl
        rw [← Std.OrientedCmp.gt_iff_lt, hlt] at hgt
        cases hgt
    have hle := (List.subperm_of_subset hn hfr).length_le
    rw [List.length_take] at hle
    omega
  have hf : p = l.filter fun a => a ∈ p := by
    refine hpa.eq_of_mem_iff (hl.filter _) fun a => ?_
    rw [List.mem_filter, decide_eq_true_eq]
    exact ⟨fun ha => ⟨hsu a ha, ha⟩, And.right⟩
  have hap : p = l.take count ++ (l.drop count).filter fun a => a ∈ p := by
    conv_lhs => rw [hf, ← List.take_append_drop count l, List.filter_append]
    rw [List.filter_eq_self.mpr fun a ha => by simpa using hfi a ha]
  rcases Nat.lt_or_ge l.length count with hsh | hlo
  · have hd : l.drop count = [] := List.drop_of_length_le hsh.le
    rw [hd, List.filter_nil, List.append_nil] at hap
    rw [hap, List.take_take, Nat.min_self]
  · rw [hap, List.take_left' (by rw [List.length_take, Nat.min_eq_left hlo])]

end TopSelection
