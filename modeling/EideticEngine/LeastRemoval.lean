/-
# Removing the least elements

A store that holds too much gives up elements one after the other: at each moment the least of
those that are to blame for it then.  Which elements are to blame depends on all that are still
there, so that the elements that go are not a prefix of any one order.

Where elements that compare equal are equal, the removed elements and what is left are determined
by the elements alone.
-/
import EideticEngine.ComparisonSort

namespace LeastRemoval

variable {α : Type*} [DecidableEq α] {cmp : α → α → Ordering} {blamed : Multiset α → α → Prop}

/-- `a` is the least of the elements that are to blame. -/
structure IsLeast (cmp : α → α → Ordering) (blamed : Multiset α → α → Prop) (s : Multiset α)
    (a : α) : Prop where
  mem : a ∈ s
  blamed_self : blamed s a
  least : ∀ b ∈ s, blamed s b → cmp a b ≠ .gt

/-- From `s` the elements `gone` are removed in this order, until no element of what is `left` is
to blame. -/
inductive Removes (cmp : α → α → Ordering) (blamed : Multiset α → α → Prop) :
    Multiset α → List α → Multiset α → Prop
  | stop {s : Multiset α} : (∀ a ∈ s, ¬ blamed s a) → Removes cmp blamed s [] s
  | remove {s left : Multiset α} {a : α} {gone : List α} : IsLeast cmp blamed s a →
      Removes cmp blamed (s.erase a) gone left → Removes cmp blamed s (a :: gone) left

variable {s left left' : Multiset α} {gone gone' : List α}

/-- **The elements are those that are gone and those that are left.** -/
theorem Removes.add_eq (h : Removes cmp blamed s gone left) : ↑gone + left = s := by
  induction h with
  | stop _ => exact zero_add _
  | remove hl _ ih =>
    rw [← Multiset.cons_coe, Multiset.cons_add, ih, Multiset.cons_erase hl.mem]

theorem Removes.not_blamed (h : Removes cmp blamed s gone left) : ∀ a ∈ left, ¬ blamed left a := by
  induction h with
  | stop hn => exact hn
  | remove _ _ ih => exact ih

/-- **Each element goes as the least of those that are to blame at that moment.** -/
theorem Removes.at_moment (h : Removes cmp blamed s gone left) {be after : List α} {a : α}
    (hg : gone = be ++ a :: after) :
    IsLeast cmp blamed (a ::ₘ (↑after + left)) a := by
  induction h generalizing be with
  | stop _ => exact absurd hg (by simp)
  | @remove s left b gone hl hr ih =>
    cases be with
    | nil =>
      obtain ⟨rfl, rfl⟩ := List.cons.inj hg
      have hm := (Removes.remove hl hr).add_eq
      rw [← Multiset.cons_coe, Multiset.cons_add] at hm
      rw [hm]
      exact hl
    | cons c be => exact ih (List.cons.inj hg).2

theorem Removes.blamed_of_mem {p : α → Prop} (h : Removes cmp (fun _ a => p a) s gone left) :
    ∀ a ∈ gone, p a := by
  intro a ha
  obtain ⟨b, after, hg⟩ := List.append_of_mem ha
  exact (h.at_moment hg).blamed_self

/-- Where blame does not depend on the other elements, all that are to blame go. -/
theorem Removes.mem_of_blamed {p : α → Prop} (h : Removes cmp (fun _ a => p a) s gone left) {a : α}
    (hm : a ∈ s) (hp : p a) : a ∈ gone := by
  rw [← h.add_eq, Multiset.mem_add] at hm
  rcases hm with hg | hl
  · exact hg
  · exact absurd hp (h.not_blamed a hl)

omit [DecidableEq α] in
/-- The least element is determined. -/
theorem IsLeast.unique [Std.TransCmp cmp] {a b : α}
    (hi : ∀ a ∈ s, ∀ b ∈ s, cmp a b = .eq → a = b) (ha : IsLeast cmp blamed s a)
    (hb : IsLeast cmp blamed s b) : a = b :=
  hi a ha.mem b hb.mem (ComparisonSort.eq_of_ne_gt (ha.least b hb.mem hb.blamed_self)
    (hb.least a ha.mem ha.blamed_self))

/-- **What is removed and what is left is determined by the elements alone.** -/
theorem Removes.unique [Std.TransCmp cmp] (hi : ∀ a ∈ s, ∀ b ∈ s, cmp a b = .eq → a = b)
    (h : Removes cmp blamed s gone left) (h' : Removes cmp blamed s gone' left') :
    gone = gone' ∧ left = left' := by
  induction h generalizing gone' with
  | stop hn =>
    cases h' with
    | stop _ => exact ⟨rfl, rfl⟩
    | remove hl _ => exact absurd hl.blamed_self (hn _ hl.mem)
  | remove hl _ ih =>
    cases h' with
    | stop hn => exact absurd hl.blamed_self (hn _ hl.mem)
    | remove hl' hr' =>
      obtain rfl := hl.unique hi hl'
      obtain ⟨rfl, rfl⟩ := ih (fun a ha b hb => hi a (Multiset.mem_of_mem_erase ha) b
        (Multiset.mem_of_mem_erase hb)) hr'
      exact ⟨rfl, rfl⟩

end LeastRemoval
