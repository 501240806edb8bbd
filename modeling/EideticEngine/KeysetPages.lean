/-
# Pages by a key

A sorted table is read in pages: each query asks for the first rows whose key is after the last
key that was read.  A page is then the beginning of what is left, and what is left after it is the
rest.
-/
import EideticEngine.ComparisonSort

namespace KeysetPages

variable {α κ : Type*} {cmp : κ → κ → Ordering} {key : α → κ} {l : List α}

variable (cmp key) in
/-- Sorted by the key, no key twice. -/
def Sorted (l : List α) : Prop := l.Pairwise fun a b => cmp (key a) (key b) = .lt

variable (cmp key) in
/-- The rows after a cursor, or all of them. -/
def after (cursor : Option κ) (l : List α) : List α :=
  l.filter fun a => cursor.all fun c => cmp c (key a) = .lt

theorem mem_after {cu : Option κ} {a : α} :
    a ∈ after cmp key cu l ↔ a ∈ l ∧ ∀ c ∈ cu, cmp c (key a) = .lt := by
  rw [after, List.mem_filter]
  cases cu with
  | none => simp
  | some c => simp

theorem after_none : after cmp key none l = l :=
  List.filter_eq_self.mpr fun _ _ => rfl

/-- What follows a cursor is sorted as well. -/
theorem Sorted.after (h : Sorted cmp key l) (c : Option κ) : Sorted cmp key (after cmp key c l) :=
  h.filter _

variable [Std.TransCmp cmp]

/-- Rows with distinct keys, sorted. -/
theorem sorted_insertionSort [Std.LawfulEqCmp cmp] (h : (l.map key).Nodup) :
    Sorted cmp key (l.insertionSort fun a b => cmp (key a) (key b) ≠ .gt) := by
  have hc : Std.TransCmp fun a b => cmp (key a) (key b) := ComparisonSort.transCmp_on key
  have hle := List.pairwise_insertionSort (fun a b => cmp (key a) (key b) ≠ .gt) l
  have hne : (l.insertionSort fun a b => cmp (key a) (key b) ≠ .gt).Pairwise
      fun a b => key a ≠ key b := by
    rw [← List.pairwise_map]
    exact ((List.perm_insertionSort _ l).map key).nodup_iff.mpr h
  refine (hle.and hne).imp fun {a b} hab => ?_
  cases hc : cmp (key a) (key b) with
  | lt => rfl
  | eq => exact absurd (Std.LawfulEqCmp.eq_of_compare hc) hab.2
  | gt => exact absurd hc hab.1

/-- To sort what a filter leaves is to filter what is sorted. -/
theorem insertionSort_filter [Std.LawfulEqCmp cmp] (h : (l.map key).Nodup) (p : α → Bool) :
    (l.filter p).insertionSort (fun a b => cmp (key a) (key b) ≠ .gt)
      = (l.insertionSort fun a b => cmp (key a) (key b) ≠ .gt).filter p := by
  have hc : Std.TransCmp fun a b => cmp (key a) (key b) := ComparisonSort.transCmp_on key
  refine ComparisonSort.insertionSort_eq ?_ ((List.perm_insertionSort _ l).filter p)
    ((List.pairwise_insertionSort _ l).filter p)
  intro a ha b hb heq
  exact List.inj_on_of_nodup_map h (List.mem_of_mem_filter ha) (List.mem_of_mem_filter hb)
    (Std.LawfulEqCmp.eq_of_compare heq)

/-- What comes after the last row of a beginning is the rest. -/
theorem Sorted.after_of_append {p r : List α} {x : α} (h : Sorted cmp key (p ++ [x] ++ r)) :
    KeysetPages.after cmp key (some (key x)) (p ++ [x] ++ r) = r := by
  obtain ⟨hf, -, hc⟩ := List.pairwise_append.mp h
  obtain ⟨-, -, hp⟩ := List.pairwise_append.mp hf
  have hs : cmp (key x) (key x) ≠ .lt := by
    have heq : cmp (key x) (key x) = .eq := Std.ReflCmp.compare_self
    rw [heq]
    exact nofun
  have hn : (p ++ [x]).filter (fun a => cmp (key x) (key a) = .lt) = [] := by
    rw [List.filter_eq_nil_iff]
    intro a ha hlt
    rcases List.mem_append.mp ha with ho | hl
    · have hb := hp a ho x (List.mem_singleton_self x)
      rw [← Std.OrientedCmp.gt_iff_lt, of_decide_eq_true hlt] at hb
      cases hb
    · rw [List.mem_singleton.mp hl] at hlt
      exact hs (of_decide_eq_true hlt)
  have hal : r.filter (fun a => cmp (key x) (key a) = .lt) = r := by
    rw [List.filter_eq_self]
    intro a ha
    exact decide_eq_true (hc x (List.mem_append_right _ (List.mem_singleton_self x)) a ha)
  rw [KeysetPages.after, List.filter_append]
  exact (congrArg₂ _ hn hal).trans (List.nil_append r)

/-- A later cursor does not see the earlier one. -/
theorem after_after {cu : Option κ} {x : α} (hx : x ∈ after cmp key cu l) :
    after cmp key (some (key x)) (after cmp key cu l) = after cmp key (some (key x)) l := by
  rw [after, after, List.filter_filter, after]
  refine List.filter_congr fun a _ => ?_
  by_cases hlt : cmp (key x) (key a) = .lt
  · have h : cu.all (fun c => cmp c (key a) = .lt) = true := by
      cases cu with
      | none => rfl
      | some c =>
        exact decide_eq_true (Std.TransCmp.lt_trans ((mem_after.mp hx).2 c rfl) hlt)
    simp [hlt, h]
  · simp [hlt]

/-- **After a page, the rest is left.** -/
theorem Sorted.after_page (h : Sorted cmp key l) {c : Option κ} {p r : List α} {x : α}
    (hs : KeysetPages.after cmp key c l = p ++ [x] ++ r) :
    KeysetPages.after cmp key (some (key x)) l = r := by
  have hm : x ∈ KeysetPages.after cmp key c l := by
    rw [hs]
    simp
  have hso := h.after c
  rw [← after_after hm, hs]
  rw [hs] at hso
  exact hso.after_of_append

end KeysetPages
