/-
# Rules for lists

Where an element or a separator stands, and what a search, a map that may fail or
the removal of repetitions keeps.
-/
import Mathlib

namespace ListRules

variable {α β γ : Type*}

/-! ## Places in a list -/

/-- Two elements of an ordered list stand one before the other. -/
theorem rel_or_of_pairwise {R : α → α → Prop} {l : List α} (h : l.Pairwise R) {a b : α}
    (ha : a ∈ l) (hb : b ∈ l) (hne : a ≠ b) : R a b ∨ R b a := by
  obtain ⟨i, hi, rfl⟩ := List.mem_iff_getElem.mp ha
  obtain ⟨j, hj, rfl⟩ := List.mem_iff_getElem.mp hb
  rw [List.pairwise_iff_getElem] at h
  rcases Nat.lt_trichotomy i j with hij | rfl | hij
  · exact Or.inl (h i j hi hj hij)
  · exact absurd rfl hne
  · exact Or.inr (h j i hj hi hij)

/-- The first place of an element, where it has one. -/
theorem idxOf?_eq_some_iff_idxOf [DecidableEq α] {l : List α} {a : α} {i : ℕ} :
    l.idxOf? a = some i ↔ a ∈ l ∧ l.idxOf a = i := by
  induction l generalizing i with
  | nil => simp
  | cons b l ih =>
    rw [List.idxOf?_cons]
    by_cases hba : b = a
    · subst hba
      simp
    · rw [if_neg (by simpa using hba), List.idxOf_cons_ne _ hba, Option.map_eq_some_iff]
      simp only [ih, List.mem_cons, Ne.symm hba, false_or]
      constructor
      · rintro ⟨j, ⟨hm, rfl⟩, rfl⟩
        exact ⟨hm, rfl⟩
      · rintro ⟨hm, rfl⟩
        exact ⟨_, ⟨hm, rfl⟩, rfl⟩

/-- Where a symbol of a text that is put together from two stands. -/
theorem append_eq_append_cons {front back before after : List α} {d : α}
    (h : front ++ back = before ++ d :: after) :
    (∃ rest, front = before ++ d :: rest ∧ after = rest ++ back)
      ∨ ∃ mid, before = front ++ mid ∧ back = mid ++ d :: after := by
  rcases List.append_eq_append_iff.1 h with ⟨mid, hb, hw⟩ | ⟨mid, hx, ha⟩
  · exact Or.inr ⟨mid, hb, hw⟩
  · cases mid with
    | nil => exact Or.inr ⟨[], by simpa using hx.symm, by simpa using ha.symm⟩
    | cons e mid =>
      obtain ⟨rfl, rfl⟩ := List.cons.inj ha
      exact Or.inl ⟨mid, hx, rfl⟩

/-- A run of signs ends where the first other sign stands. -/
theorem span_append_inj {p : α → Bool} {a a' rest rest' : List α}
    (ha : ∀ c ∈ a, p c) (ha' : ∀ c ∈ a', p c) (hr : ∀ c ∈ rest.head?, p c = false)
    (hr' : ∀ c ∈ rest'.head?, p c = false) (h : a ++ rest = a' ++ rest') :
    a = a' ∧ rest = rest' := by
  have hs : ∀ {a rest : List α}, (∀ c ∈ a, p c) → (∀ c ∈ rest.head?, p c = false) →
      (a ++ rest).takeWhile p = a := by
    intro a rest ha hr
    rw [List.takeWhile_append_of_pos ha]
    cases rest with
    | nil => simp
    | cons c rest => simp [hr c rfl]
  have heq : a = a' := by
    rw [← hs ha hr, h, hs ha' hr']
  subst heq
  exact ⟨rfl, List.append_cancel_left h⟩

/-- Taking and then dropping what starts the list leaves the rest. -/
theorem drop_length_takeWhile (p : α → Bool) (l : List α) :
    l.drop (l.takeWhile p).length = l.dropWhile p := by
  calc l.drop (l.takeWhile p).length
      = (l.takeWhile p ++ l.dropWhile p).drop (l.takeWhile p).length := by
        rw [List.takeWhile_append_dropWhile]
    _ = l.dropWhile p := List.drop_left

/-! ## Searches, maps and repetitions -/

/-- Where two searches agree on the item that a third finds first, and both fail before it, they
find the same. -/
theorem findSome?_eq_of_first {f g : α → Option β} {h : α → Option γ}
    (hn : ∀ x, g x = none → f x = none) (hs : ∀ x, h x = none ↔ g x = none) (l : List α)
    (hf : ∀ o, l.findSome? h = some o → ∀ x, h x = some o → f x = g x) :
    l.findSome? f = l.findSome? g := by
  induction l with
  | nil => rfl
  | cons x l ih =>
    rw [List.findSome?_cons, List.findSome?_cons]
    cases hx : h x with
    | none =>
      have hgx := (hs x).mp hx
      rw [hgx, hn x hgx]
      refine ih fun o ho => hf o ?_
      rw [List.findSome?_cons, hx]
      exact ho
    | some o =>
      rw [hf o (by rw [List.findSome?_cons, hx]) x hx]
      cases hgx : g x with
      | none => rw [(hs x).mpr hgx] at hx; cases hx
      | some r => rfl

/-- What a fallible map gives comes from its elements. -/
theorem forall_of_mapM {f : α → Option β} {p : β → Prop}
    (hf : ∀ a b, f a = some b → p b) {l : List α} {l' : List β} (h : l.mapM f = some l') :
    ∀ b ∈ l', p b := by
  induction l generalizing l' with
  | nil =>
    rw [List.mapM_nil] at h
    cases h
    exact nofun
  | cons a l ih =>
    rw [List.mapM_cons] at h
    obtain ⟨b, hb, h⟩ := Option.bind_eq_some_iff.mp h
    obtain ⟨r, hr, h⟩ := Option.bind_eq_some_iff.mp h
    cases h
    intro c hc
    rcases List.mem_cons.mp hc with rfl | hc
    · exact hf a c hb
    · exact ih hr c hc

/-- Comparing neighbours removes no element altogether. -/
theorem mem_destutter_ne [DecidableEq α] {a : α} {l : List α} :
    a ∈ l.destutter (· ≠ ·) ↔ a ∈ l := by
  have hf : ∀ (l : List α) (b : α), a ∈ l.destutter' (· ≠ ·) b ↔ a ∈ b :: l := by
    intro l
    induction l with
    | nil => exact fun b => Iff.rfl
    | cons c l ih =>
      intro b
      by_cases hbc : b = c
      · rw [List.destutter'_cons_neg _ (by simpa using hbc), ih, hbc]
        simp
      · rw [List.destutter'_cons_pos _ hbc, List.mem_cons, ih, List.mem_cons (l := c :: l)]
  cases l with
  | nil => rfl
  | cons b l => exact hf l b

end ListRules
