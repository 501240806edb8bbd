/-
# Sorting by a comparison

A stable sort by a comparison that is a total preorder.  Where elements that compare equal are
equal, the sorted list depends on the elements only, not on the order they came in.
-/
import Mathlib

namespace ComparisonSort

variable {α β : Type*} {cmp : α → α → Ordering}

/-- A comparison of keys is transitive when the comparison of the keys is. -/
theorem transCmp_on {cmp : β → β → Ordering} [Std.TransCmp cmp] (key : α → β) :
    Std.TransCmp fun a b => cmp (key a) (key b) where
  eq_swap := by
    intro a b
    exact Std.OrientedCmp.eq_swap
  isLE_trans := by
    intro a b c hab hbc
    exact Std.TransCmp.isLE_trans hab hbc

/-! ## The first element of a kind -/

/-- An element that comes before all others of a kind is the first of that kind once it
is inserted. -/
theorem find?_orderedInsert {r : α → α → Prop} [DecidableRel r] {p : α → Bool} {a : α}
    {l : List α} (ha : p a = true) (h : ∀ b ∈ l, p b = true → r a b) :
    (l.orderedInsert r a).find? p = some a := by
  induction l with
  | nil => simp [ha]
  | cons b l ih =>
    rw [List.orderedInsert_cons]
    split
    · simp [ha]
    · rename_i hn
      have hb : ¬ p b = true := fun hb => hn (h b List.mem_cons_self hb)
      rw [List.find?_cons_of_neg hb]
      exact ih fun c hc => h c (List.mem_cons_of_mem b hc)

/-- The first element of a kind in a sorted list comes before all others of that kind. -/
theorem find?_le {r : α → α → Prop} {p : α → Bool} {a b : α} {l : List α} (hr : r a a)
    (hs : l.Pairwise r) (hf : l.find? p = some a) (hm : b ∈ l) (hb : p b = true) :
    r a b := by
  obtain ⟨-, be, after, rfl, hbe⟩ := List.find?_eq_some_iff_append.mp hf
  rcases List.mem_append.mp hm with hin | hin
  · exact absurd hb (by simpa using hbe b hin)
  · rcases List.mem_cons.mp hin with rfl | hin
    · exact hr
    · exact List.rel_of_pairwise_cons (List.pairwise_append.mp hs).2.1 hin

/-! ## Sorted lists without repetition -/

section

variable {r : α → α → Prop} [DecidableRel r] [DecidableEq α] [Std.Total r] [IsTrans α r]
  [Std.Antisymm r]

/-- A sorted list loses its repetitions when neighbours are compared. -/
theorem destutter_insertionSort_eq_dedup (l : List α) :
    (l.insertionSort r).destutter (· ≠ ·) = (l.insertionSort r).dedup :=
  (List.pairwise_insertionSort r l).destutter_eq_dedup

theorem mem_destutter_insertionSort {a : α} {l : List α} :
    a ∈ (l.insertionSort r).destutter (· ≠ ·) ↔ a ∈ l := by
  rw [destutter_insertionSort_eq_dedup, List.mem_dedup, List.mem_insertionSort]

/-- **Sorted and without repetition, a list shows which elements it has and nothing else.** -/
theorem destutter_insertionSort_eq_iff {l l' : List α} :
    (l.insertionSort r).destutter (· ≠ ·) = (l'.insertionSort r).destutter (· ≠ ·) ↔
      ∀ a, a ∈ l ↔ a ∈ l' := by
  constructor
  · intro h a
    rw [← mem_destutter_insertionSort (r := r), h, mem_destutter_insertionSort]
  · intro h
    have hs : ∀ l : List α, ((l.insertionSort r).dedup).Pairwise r := fun l =>
      (List.pairwise_insertionSort r l).sublist (List.dedup_sublist _)
    rw [destutter_insertionSort_eq_dedup, destutter_insertionSort_eq_dedup]
    refine List.Perm.eq_of_pairwise ?_ (hs l) (hs l') ?_
    · intro a b _ _ hab hba
      exact Std.Antisymm.antisymm a b hab hba
    · rw [List.perm_ext_iff_of_nodup (List.nodup_dedup _) (List.nodup_dedup _)]
      intro a
      rw [List.mem_dedup, List.mem_dedup, List.mem_insertionSort, List.mem_insertionSort, h]

end

/-! ## Sorted lists -/

section

variable [Std.TransCmp cmp]

instance totalNeGt : Std.Total fun a b : α => cmp a b ≠ .gt where
  total a b := by
    by_cases h : cmp a b = .gt
    · rw [Std.OrientedCmp.gt_iff_lt] at h
      exact Or.inr (by rw [h]; decide)
    · exact Or.inl h

instance transNeGt : IsTrans α fun a b => cmp a b ≠ .gt where
  trans a b c h h' := by
    exact Ordering.isLE_iff_ne_gt.mp (Std.TransCmp.isLE_trans (Ordering.isLE_iff_ne_gt.mpr h)
      (Ordering.isLE_iff_ne_gt.mpr h'))

/-- Two elements neither of which comes after the other compare equal. -/
theorem eq_of_ne_gt {a b : α} (hab : cmp a b ≠ .gt) (hba : cmp b a ≠ .gt) : cmp a b = .eq := by
  rw [ne_eq, Std.OrientedCmp.gt_iff_lt] at hba
  cases h : cmp a b with
  | lt => exact absurd h hba
  | eq => rfl
  | gt => exact absurd h hab

instance antisymmNeGt [Std.LawfulEqCmp cmp] : Std.Antisymm fun a b : α => cmp a b ≠ .gt where
  antisymm _ _ hab hba := Std.LawfulEqCmp.eq_of_compare (eq_of_ne_gt hab hba)

/-- **Elements that compare equal only when they are equal have one sorted order.** -/
theorem insertionSort_eq {l sorted : List α}
    (hi : ∀ a ∈ l, ∀ b ∈ l, cmp a b = .eq → a = b) (hp : sorted.Perm l)
    (hs : sorted.Pairwise fun a b => cmp a b ≠ .gt) :
    l.insertionSort (fun a b => cmp a b ≠ .gt) = sorted := by
  have hp' := (List.perm_insertionSort (fun a b => cmp a b ≠ .gt) l).trans hp.symm
  refine hp'.eq_of_pairwise ?_ (List.pairwise_insertionSort _ l) hs
  intro a b ha hb hab hba
  exact hi a ((List.perm_insertionSort _ l).subset ha) b (hp.subset hb) (eq_of_ne_gt hab hba)

/-- The sorted list does not depend on the order of the input. -/
theorem insertionSort_congr {l l' : List α} (hi : ∀ a ∈ l, ∀ b ∈ l, cmp a b = .eq → a = b)
    (hp : l'.Perm l) :
    l'.insertionSort (fun a b => cmp a b ≠ .gt) = l.insertionSort (fun a b => cmp a b ≠ .gt) :=
  (insertionSort_eq hi ((List.perm_insertionSort _ l').trans hp)
    (List.pairwise_insertionSort _ l')).symm

end

/-- The keys of a list sorted by key do not depend on the order of the input, also where
several elements share a key. -/
theorem map_insertionSort_congr (cmp : β → β → Ordering) [Std.TransCmp cmp] [Std.LawfulEqCmp cmp]
    (key : α → β) {l l' : List α} (hp : l'.Perm l) :
    (l'.insertionSort fun a b => cmp (key a) (key b) ≠ .gt).map key
      = (l.insertionSort fun a b => cmp (key a) (key b) ≠ .gt).map key := by
  have hc : Std.TransCmp fun a b => cmp (key a) (key b) := transCmp_on key
  have hs : ∀ l : List α, ((l.insertionSort fun a b => cmp (key a) (key b) ≠ .gt).map key).Pairwise
        fun a b => cmp a b ≠ .gt := by
    intro l
    rw [List.pairwise_map]
    exact List.pairwise_insertionSort (fun a b => cmp (key a) (key b) ≠ .gt) l
  have hl := List.perm_insertionSort (fun a b => cmp (key a) (key b) ≠ .gt) l'
  have hr := List.perm_insertionSort (fun a b => cmp (key a) (key b) ≠ .gt) l
  have hp' := (hl.trans (hp.trans hr.symm)).map key
  refine hp'.eq_of_pairwise ?_ (hs l') (hs l)
  intro a b _ _ hab hba
  exact Std.LawfulEqCmp.eq_of_compare (eq_of_ne_gt hab hba)

end ComparisonSort
