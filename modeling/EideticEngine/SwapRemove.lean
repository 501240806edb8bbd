/-
# `Vec::swap_remove` on lists

Removing index `i` by moving the last element into its place.  The result is the
list without that element, in another order: `perm_cons_swapRemove`.
-/
import Mathlib.Data.List.Basic
import Mathlib.Data.List.Perm.Basic

namespace List

variable {α : Type*}

/-- `Vec::swap_remove`, without the element it returns. -/
def swapRemove (l : List α) (i : ℕ) : List α :=
  match l.getLast? with
  | none => []
  | some z => (l.set i z).dropLast

/-- `swapRemove` drops one element. -/
theorem length_swapRemove (l : List α) (i : ℕ) :
    (l.swapRemove i).length = l.length - 1 := by
  unfold swapRemove
  rcases List.eq_nil_or_concat l with rfl | ⟨init, z, rfl⟩
  · rfl
  · simp

/-- Removing an index before the last one overwrites it with the last element. -/
theorem swapRemove_concat_of_lt (init : List α) (z : α) {i : ℕ} (hi : i < init.length) :
    (init ++ [z]).swapRemove i = init.set i z := by
  unfold swapRemove
  rw [List.getLast?_concat]
  simp only
  rw [List.set_append_left _ _ hi, List.dropLast_concat]

/-- Removing the last index drops the last element. -/
theorem swapRemove_concat_length (init : List α) (z : α) :
    (init ++ [z]).swapRemove init.length = init := by
  unfold swapRemove
  rw [List.getLast?_concat]
  simp only
  rw [List.set_append_right _ _ (Nat.le_refl _)]
  simp

/-- **The removed element and the rest are a permutation of the list.** -/
theorem perm_cons_swapRemove (l : List α) (i : ℕ) (hi : i < l.length) :
    l.Perm (l[i] :: l.swapRemove i) := by
  rcases List.eq_nil_or_concat l with rfl | ⟨init, z, rfl⟩
  · simp at hi
  · simp only [List.concat_eq_append] at hi ⊢
    by_cases hlt : i < init.length
    · rw [swapRemove_concat_of_lt init z hlt, List.getElem_append_left hlt]
      have hs : (init.set i z).Perm (z :: init.eraseIdx i) := List.set_perm_cons_eraseIdx hlt z
      have hg : (init[i] :: init.eraseIdx i).Perm init := List.getElem_cons_eraseIdx_perm hlt
      calc (init ++ [z]).Perm (z :: init) := List.perm_append_singleton z init
        _ |>.Perm (z :: init[i] :: init.eraseIdx i) := hg.symm.cons z
        _ |>.Perm (init[i] :: z :: init.eraseIdx i) := List.Perm.swap _ _ _
        _ |>.Perm (init[i] :: init.set i z) := hs.symm.cons _
    · have hi' : i = init.length := by
        simp only [List.length_append, List.length_cons, List.length_nil] at hi
        omega
      subst hi'
      rw [swapRemove_concat_length]
      rw [List.getElem_append_right (Nat.le_refl _)]
      simp

end List
