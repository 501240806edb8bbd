/-
# Patterns with stars

A pattern is a list of pieces: a star stands for any run of letters, every other piece for one
letter that it accepts.  A matcher that keeps only the last star is complete: what an earlier star
would find later in the text, the last star finds too, because the pieces between two stars take as
many letters wherever they are tried.
-/
import Mathlib

namespace StarPatterns

variable {α : Type*}

inductive Piece (α : Type*) where
  | star
  | one (accepts : α → Bool)

/-- The language of a pattern. -/
def Matches : List (Piece α) → List α → Prop
  | [], text => text = []
  | .star :: pieces, text => ∃ rest, rest <:+ text ∧ Matches pieces rest
  | .one accepts :: pieces, text =>
    ∃ c rest, text = c :: rest ∧ accepts c = true ∧ Matches pieces rest

/-- Pieces without a star. -/
def Fixed (pieces : List (Piece α)) : Prop := ∀ piece ∈ pieces, ∃ accepts, piece = .one accepts

variable {pieces mid : List (Piece α)} {text rest : List α}

theorem matches_one {as : α → Bool} {c : α} :
    Matches (.one as :: pieces) (c :: text) ↔ as c = true ∧ Matches pieces text := by
  constructor
  · rintro ⟨d, rest, heq, ha, hr⟩
    cases heq
    exact ⟨ha, hr⟩
  · rintro ⟨ha, hr⟩
    exact ⟨c, text, rfl, ha, hr⟩

/-- A star finds what it finds in the rest of a text. -/
theorem matches_star_of_suffix (h : rest <:+ text) (hr : Matches (.star :: pieces) rest) :
    Matches (.star :: pieces) text := by
  obtain ⟨u, hu, hm⟩ := hr
  exact ⟨u, hu.trans h, hm⟩

/-- Pieces without a star take one letter each. -/
theorem exists_of_matches_fixed (hm : Fixed mid) (h : Matches (mid ++ pieces) text) :
    ∃ f rest, text = f ++ rest ∧ f.length = mid.length ∧ Matches pieces rest := by
  induction mid generalizing text with
  | nil => exact ⟨[], text, rfl, rfl, h⟩
  | cons p mid ih =>
    obtain ⟨as, rfl⟩ := hm p List.mem_cons_self
    obtain ⟨c, l, rfl, -, hla⟩ := h
    obtain ⟨f, rest, rfl, hl, hr⟩ := ih (fun other ho => hm other (List.mem_cons_of_mem _ ho)) hla
    exact ⟨c :: f, rest, rfl, congrArg Nat.succ hl, hr⟩

/-! ## The last star -/

/-- The pieces behind the last star were matched, one letter each, up to where the matcher is. -/
def Since (behind : List (Piece α)) (tried : List α) (pieces : List (Piece α)) (text : List α) :
    Prop :=
  ∃ mid seen, Fixed mid ∧ behind = mid ++ pieces ∧ tried = seen ++ text ∧ seen.length = mid.length

/-- What the last star has not tried yet matches. -/
def Later (behind : List (Piece α)) (tried : List α) : Prop :=
  ∃ rest, rest <:+ tried ∧ rest.length < tried.length ∧ Matches behind rest

variable {behind : List (Piece α)} {tried : List α}

theorem since_self : Since pieces text pieces text := ⟨[], [], nofun, rfl, rfl, rfl⟩

/-- One more piece and its letter. -/
theorem Since.one {as : α → Bool} {c : α}
    (h : Since behind tried (Piece.one as :: pieces) (c :: text)) :
    Since behind tried pieces text := by
  obtain ⟨mid, s, hm, rfl, rfl, hl⟩ := h
  refine ⟨mid ++ [.one as], s ++ [c], ?_, ?_, ?_, ?_⟩
  · intro p hp
    rcases List.mem_append.mp hp with hp | hp
    · exact hm p hp
    · exact ⟨as, List.mem_singleton.mp hp⟩
  · rw [List.append_assoc, List.singleton_append]
  · rw [List.append_assoc, List.singleton_append]
  · rw [List.length_append, List.length_append, hl]
    rfl

/-- Where a later try of the star gets to what the matcher has before it. -/
theorem Since.exists_of_later (h : Since behind tried pieces text) (hl : Later behind tried) :
    ∃ rest, rest <:+ text ∧ rest.length < text.length ∧ Matches pieces rest := by
  obtain ⟨mid, s, hmi, rfl, rfl, hle⟩ := h
  obtain ⟨u, hu, hsh, hm⟩ := hl
  obtain ⟨f, rest, rfl, hf, hr⟩ := exists_of_matches_fixed hmi hm
  rw [List.length_append, List.length_append] at hsh
  have hlt : rest.length < text.length := by omega
  have hs : rest <:+ s ++ text := (List.suffix_append f rest).trans hu
  exact ⟨rest, List.suffix_of_suffix_length_le hs (List.suffix_append s text) hlt.le, hlt, hr⟩

/-- **A new star replaces the last one.** -/
theorem Since.matches_star (h : Since behind tried (.star :: pieces) text)
    (hl : Later behind tried) : Matches (.star :: pieces) text := by
  obtain ⟨rest, hr, -, hm⟩ := h.exists_of_later hl
  exact matches_star_of_suffix hr hm

/-- At the end of the text there is nothing to try. -/
theorem Since.not_later (h : Since behind tried pieces []) : ¬ Later behind tried := by
  intro hl
  obtain ⟨rest, -, hlt, -⟩ := h.exists_of_later hl
  exact Nat.not_lt_zero _ hlt

/-- The next try. -/
theorem later_cons {c : α} :
    Later behind (c :: tried) ↔ Matches behind tried ∨ Later behind tried := by
  constructor
  · rintro ⟨rest, hr, hlt, hm⟩
    rcases List.suffix_cons_iff.mp hr with rfl | hr
    · exact absurd hlt (Nat.lt_irrefl _)
    · rcases hr.length_le.eq_or_lt with heq | hs
      · exact Or.inl (hr.eq_of_length heq ▸ hm)
      · exact Or.inr ⟨rest, hr, hs, hm⟩
  · rintro (hm | ⟨rest, hr, hlt, hm⟩)
    · exact ⟨tried, List.suffix_cons c tried, Nat.lt_succ_self _, hm⟩
    · exact ⟨rest, hr.trans (List.suffix_cons c tried), Nat.lt_succ_of_lt hlt, hm⟩

/-- What a star finds: here, or later. -/
theorem matches_star_iff :
    Matches (.star :: pieces) text ↔ Matches pieces text ∨ Later pieces text := by
  constructor
  · rintro ⟨rest, hr, hm⟩
    rcases hr.length_le.eq_or_lt with heq | hlt
    · exact Or.inl (hr.eq_of_length heq ▸ hm)
    · exact Or.inr ⟨rest, hr, hlt, hm⟩
  · rintro (hm | ⟨rest, hr, -, hm⟩)
    · exact ⟨text, List.suffix_refl _, hm⟩
    · exact ⟨rest, hr, hm⟩

end StarPatterns
