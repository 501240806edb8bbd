/-
# Picking the best element of a list by one scan

The loop `for (i, x) in l.iter().enumerate()` that keeps the best eligible
element so far and replaces it when the new one wins.
-/
import Mathlib.Data.List.Basic

namespace List

variable {α : Type*}

/-- One step of the scan. -/
def scanStep (eligible : ℕ → α → Bool) (replaces : ℕ × α → ℕ × α → Bool)
    (best : Option (ℕ × α)) (entry : α × ℕ) : Option (ℕ × α) :=
  if eligible entry.2 entry.1 then
    match best with
    | none => some (entry.2, entry.1)
    | some b => if replaces (entry.2, entry.1) b then some (entry.2, entry.1) else some b
  else best

/-- The best eligible element with its index; `replaces new best` decides whether
a later element takes the place of the best so far. -/
def scanBest (eligible : ℕ → α → Bool) (replaces : ℕ × α → ℕ × α → Bool) (l : List α) :
    Option (ℕ × α) :=
  l.zipIdx.foldl (scanStep eligible replaces) none

variable {eligible : ℕ → α → Bool} {replaces : ℕ × α → ℕ × α → Bool}

/-- A step keeps the best so far or takes the new, eligible entry. -/
theorem scanStep_eq_some {b : Option (ℕ × α)} {en : α × ℕ} {i : ℕ} {x : α}
    (h : scanStep eligible replaces b en = some (i, x)) :
    b = some (i, x) ∨ (en = (x, i) ∧ eligible i x = true) := by
  obtain ⟨y, j⟩ := en
  unfold scanStep at h
  split at h
  · rename_i hel
    split at h
    · cases h; exact Or.inr ⟨rfl, hel⟩
    · split at h
      · cases h; exact Or.inr ⟨rfl, hel⟩
      · exact Or.inl h
  · exact Or.inl h

/-- The scan returns an eligible element together with its index. -/
theorem scanBest_eq_some {l : List α} {i : ℕ} {x : α}
    (h : l.scanBest eligible replaces = some (i, x)) :
    l[i]? = some x ∧ eligible i x = true := by
  have hf : ∀ (entries : List (α × ℕ)) (b : Option (ℕ × α)),
      entries.foldl (scanStep eligible replaces) b = some (i, x) →
      b = some (i, x) ∨ ((x, i) ∈ entries ∧ eligible i x = true) := by
    intro entries
    induction entries with
    | nil => intro b hb; exact Or.inl hb
    | cons en entries ih =>
      intro b hb
      rcases ih _ hb with hne | ⟨hm, hel⟩
      · rcases scanStep_eq_some hne with ho | ⟨rfl, hel⟩
        · exact Or.inl ho
        · exact Or.inr ⟨List.mem_cons_self, hel⟩
      · exact Or.inr ⟨List.mem_cons_of_mem _ hm, hel⟩
  rcases hf _ _ h with hn | ⟨hm, hel⟩
  · cases hn
  · exact ⟨by simpa [List.mk_mem_zipIdx_iff_getElem?] using hm, hel⟩

/-- Where everything is eligible, only the empty list has no best element. -/
theorem scanBest_eq_none_iff (hel : ∀ i x, eligible i x = true) {l : List α} :
    l.scanBest eligible replaces = none ↔ l = [] := by
  constructor
  · intro h
    have hf : ∀ (entries : List (α × ℕ)) (b : ℕ × α),
        entries.foldl (scanStep eligible replaces) (some b) ≠ none := by
      intro entries
      induction entries with
      | nil => intro b; simp
      | cons en entries ih =>
        intro b
        simp only [List.foldl_cons, scanStep, hel, if_true]
        split <;> exact ih _
    cases l with
    | nil => rfl
    | cons x l =>
      simp only [scanBest, List.zipIdx_cons, List.foldl_cons, scanStep, hel, if_true] at h
      exact absurd h (hf _ _)
  · rintro rfl
    rfl

end List
