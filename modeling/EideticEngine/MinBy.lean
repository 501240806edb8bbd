/-
# The least element of a list

`Iterator::min_by` keeps the best element so far and replaces it when a later one is smaller, so
that it gives the first of the least elements.
-/
import EideticEngine.ComparisonSort

namespace MinBy

variable {α : Type*} {cmp : α → α → Ordering} {a b : α} {l : List α}

/-- The better of two, the first when they are equal. -/
def better (cmp : α → α → Ordering) (best b : α) : α := if cmp best b = .gt then b else best

/-- The first of the least elements. -/
def minBy (cmp : α → α → Ordering) : List α → Option α
  | [] => none
  | a :: l => some (l.foldl (better cmp) a)

theorem foldl_better_mem (cmp : α → α → Ordering) (a : α) (l : List α) :
    l.foldl (better cmp) a ∈ a :: l := by
  induction l generalizing a with
  | nil => exact List.mem_cons_self
  | cons b l ih =>
    rw [List.foldl_cons]
    have hm := ih (better cmp a b)
    have hb : better cmp a b = a ∨ better cmp a b = b := by
      rw [better]
      split
      · exact .inr rfl
      · exact .inl rfl
    rcases List.mem_cons.mp hm with hf | hr
    · rw [hf]
      rcases hb with h | h
      · rw [h]
        exact List.mem_cons_self
      · rw [h]
        exact List.mem_cons_of_mem _ List.mem_cons_self
    · exact List.mem_cons_of_mem _ (List.mem_cons_of_mem _ hr)

/-- The least element is one of the list. -/
theorem mem_of_minBy (h : minBy cmp l = some a) : a ∈ l := by
  cases l with
  | nil => cases h
  | cons b l =>
    cases h
    exact foldl_better_mem cmp b l

theorem minBy_eq_none : minBy cmp l = none ↔ l = [] := by
  cases l with
  | nil => exact ⟨fun _ => rfl, fun _ => rfl⟩
  | cons b l => exact ⟨nofun, nofun⟩

variable [Std.TransCmp cmp]

theorem foldl_better_le (a : α) (l : List α) :
    ∀ b ∈ a :: l, cmp (l.foldl (better cmp) a) b ≠ .gt := by
  induction l generalizing a with
  | nil =>
    intro b hb
    rw [List.mem_singleton.mp hb, List.foldl_nil]
    have hs : cmp a a = .eq := Std.ReflCmp.compare_self
    rw [hs]
    exact nofun
  | cons c l ih =>
    have hbo : cmp (better cmp a c) a ≠ .gt ∧ cmp (better cmp a c) c ≠ .gt := by
      have hs : ∀ x : α, cmp x x ≠ .gt := by
        intro x
        rw [show cmp x x = .eq from Std.ReflCmp.compare_self]
        exact nofun
      rw [better]
      split
      · rename_i hgt
        refine ⟨?_, hs c⟩
        rw [Std.OrientedCmp.lt_of_gt hgt]
        exact nofun
      · rename_i hle
        exact ⟨hs a, hle⟩
    have hf := ih (better cmp a c) _ List.mem_cons_self
    intro b hb
    rw [List.foldl_cons]
    rcases List.mem_cons.mp hb with rfl | hb
    · exact IsTrans.trans (r := fun x y => cmp x y ≠ .gt) _ _ _ hf hbo.1
    · rcases List.mem_cons.mp hb with rfl | hb
      · exact IsTrans.trans (r := fun x y => cmp x y ≠ .gt) _ _ _ hf hbo.2
      · exact ih _ b (List.mem_cons_of_mem _ hb)

/-- **No element is smaller than the least.** -/
theorem minBy_le (h : minBy cmp l = some a) : ∀ b ∈ l, cmp a b ≠ .gt := by
  cases l with
  | nil => cases h
  | cons c l =>
    cases h
    exact foldl_better_le c l

end MinBy
