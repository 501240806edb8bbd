/-
# Ordered maps by lookup

`Std.ExtTreeMap` states its insertion lemmas with the comparison function.  Where
comparing equal means being equal they are restated with equality, the form in which
models of keyed tables use them.
-/
import Std.Data.ExtTreeMap.Lemmas
import Std.Data.DTreeMap.Internal.Lemmas
import Mathlib.Tactic

namespace Std.ExtTreeMap

variable {α β : Type*} {cmp : α → α → Ordering} [TransCmp cmp] [LawfulEqCmp cmp] [DecidableEq α]
  {t : ExtTreeMap α β cmp}

theorem getElem?_insert_ite (k a : α) (v : β) :
    (t.insert k v)[a]? = if k = a then some v else t[a]? := by
  rw [getElem?_insert]
  by_cases h : k = a
  · rw [if_pos h, if_pos (by rw [h]; exact ReflCmp.compare_self)]
  · rw [if_neg h, if_neg fun hc => h (LawfulEqCmp.eq_of_compare hc)]

theorem mem_insert_iff (k a : α) (v : β) : a ∈ t.insert k v ↔ k = a ∨ a ∈ t := by
  rw [mem_iff_isSome_getElem?, mem_iff_isSome_getElem?, getElem?_insert_ite]
  by_cases h : k = a <;> simp [h]

theorem getElem?_erase_ite (k a : α) : (t.erase k)[a]? = if k = a then none else t[a]? := by
  rw [getElem?_erase]
  by_cases h : k = a
  · rw [if_pos h, if_pos (by rw [h]; exact ReflCmp.compare_self)]
  · rw [if_neg h, if_neg fun hc => h (LawfulEqCmp.eq_of_compare hc)]

omit [LawfulEqCmp cmp] [DecidableEq α] in
/-- The values in key order, by way of the entries. -/
theorem values_eq_map_snd (t : ExtTreeMap α β cmp) : t.values = t.toList.map Prod.snd := by
  obtain ⟨⟨q⟩⟩ := t
  induction q using Quotient.inductionOn with
  | h m =>
    let _ : Ord α := ⟨cmp⟩
    change DTreeMap.Internal.Impl.values m.inner
      = (DTreeMap.Internal.Impl.Const.toList m.inner).map Prod.snd
    rw [DTreeMap.Internal.Impl.values_eq_map_snd,
      DTreeMap.Internal.Impl.Const.toList_eq_toListModel_map, List.map_map]
    rfl

omit [DecidableEq α] in
theorem mem_values_iff {v : β} : v ∈ t.values ↔ ∃ k : α, t[k]? = some v := by
  rw [values_eq_map_snd, List.mem_map]
  constructor
  · rintro ⟨⟨k, v'⟩, hm, rfl⟩
    exact ⟨k, mem_toList_iff_getElem?_eq_some.mp hm⟩
  · rintro ⟨k, hk⟩
    exact ⟨(k, v), mem_toList_iff_getElem?_eq_some.mpr hk, rfl⟩

end Std.ExtTreeMap
