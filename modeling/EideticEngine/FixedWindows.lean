/-
# Fixed windows against a sliding one

A counter that starts again with each window lets at most `cap` through per window.  Windows are
at least a width apart, but they begin when the first attempt after the last window comes, so an
interval of one width can meet two of them, and no more.
-/
import Mathlib

namespace FixedWindows

variable {width cap start count now : ℕ} {log : List (ℕ × ℕ)}

/-- What was let through, each with the start of its window: windows do not overlap, and none has
more than `cap`. -/
structure Log (width cap : ℕ) (log : List (ℕ × ℕ)) : Prop where
  within : ∀ e ∈ log, e.1 ≤ e.2 ∧ e.2 < e.1 + width
  apart : ∀ e ∈ log, ∀ e' ∈ log, e.1 < e'.1 → e.1 + width ≤ e'.1
  count : ∀ start, log.countP (·.1 = start) ≤ cap

theorem Log.nil : Log width cap [] :=
  ⟨by simp, by simp, fun _ => Nat.zero_le cap⟩

/-- An interval of one width does not meet three windows. -/
theorem Log.not_three (h : Log width cap log) {e₁ e₂ e₃ : ℕ × ℕ} {t : ℕ} (h₁ : e₁ ∈ log)
    (h₂ : e₂ ∈ log) (h₃ : e₃ ∈ log) (hfr : t ≤ e₁.2) (hto : e₃.2 < t + width)
    (h₁₂ : e₁.1 < e₂.1) (h₂₃ : e₂.1 < e₃.1) : False := by
  have he := (h.within e₁ h₁).2
  have hb := (h.within e₃ h₃).1
  have hf := h.apart e₁ h₁ e₂ h₂ h₁₂
  have hs := h.apart e₂ h₂ e₃ h₃ h₂₃
  omega

/-- Entries of one of two windows. -/
theorem countP_le_add (log : List (ℕ × ℕ)) {p : ℕ × ℕ → Bool} {a b : ℕ}
    (h : ∀ e ∈ log, p e = true → e.1 = a ∨ e.1 = b) :
    log.countP p ≤ log.countP (·.1 = a) + log.countP (·.1 = b) := by
  induction log with
  | nil => exact Nat.zero_le _
  | cons e log ih =>
    have hr := ih fun e' he' => h e' (List.mem_cons_of_mem _ he')
    rw [List.countP_cons, List.countP_cons, List.countP_cons]
    by_cases hp : p e = true
    · rcases h e List.mem_cons_self hp with heq | heq
      · simp only [hp, heq, decide_true, if_true]
        omega
      · simp only [hp, heq, decide_true, if_true]
        omega
    · rw [if_neg hp]
      omega

/-- **At most twice the cap** in any half-open interval of one width. -/
theorem Log.countP_interval_le (h : Log width cap log) (t : ℕ) :
    log.countP (fun e => t ≤ e.2 ∧ e.2 < t + width) ≤ 2 * cap := by
  by_cases hn : ∃ s, ∃ e ∈ log, (t ≤ e.2 ∧ e.2 < t + width) ∧ e.1 = s
  · -- The first window that the interval meets, and another one if there is any.
    obtain ⟨e₁, h₁, hi₁, hs₁⟩ := Nat.find_spec hn
    have hm : ∀ e ∈ log, t ≤ e.2 ∧ e.2 < t + width → e₁.1 ≤ e.1 := by
      intro e he hin
      rw [hs₁]
      exact Nat.find_min' hn ⟨e, he, hin, rfl⟩
    obtain ⟨b, hb⟩ : ∃ b, ∀ e ∈ log, t ≤ e.2 ∧ e.2 < t + width → e.1 = e₁.1 ∨ e.1 = b := by
      by_cases ho : ∃ e ∈ log, (t ≤ e.2 ∧ e.2 < t + width) ∧ e.1 ≠ e₁.1
      · obtain ⟨e₂, h₂, hi₂, hn₂⟩ := ho
        have hl₂ : e₁.1 < e₂.1 := lt_of_le_of_ne (hm e₂ h₂ hi₂) (Ne.symm hn₂)
        refine ⟨e₂.1, fun e he hin => or_iff_not_imp_left.mpr fun hne => ?_⟩
        have hlt : e₁.1 < e.1 := lt_of_le_of_ne (hm e he hin) (Ne.symm hne)
        rcases Nat.lt_trichotomy e.1 e₂.1 with hl | heq | hmo
        · exact (h.not_three h₁ he h₂ hi₁.1 hi₂.2 hlt hl).elim
        · exact heq
        · exact (h.not_three h₁ h₂ he hi₁.1 hin.2 hl₂ hmo).elim
      · refine ⟨0, fun e he hin => .inl ?_⟩
        by_contra hne
        exact ho ⟨e, he, hin, hne⟩
    have hle := countP_le_add log (p := fun e => t ≤ e.2 ∧ e.2 < t + width)
      fun e he hin => hb e he (of_decide_eq_true hin)
    have hf := h.count e₁.1
    have hs := h.count b
    omega
  · rw [List.countP_eq_zero.mpr]
    · exact Nat.zero_le _
    · intro e he hin
      exact hn ⟨e.1, e, he, of_decide_eq_true hin, rfl⟩

/-! ## A counter and its log -/

/-- A window and its counter stand for a log: the counter is what the window has let through, and
all other windows are over. -/
structure Tracks (width cap start count : ℕ) (log : List (ℕ × ℕ)) : Prop where
  sound : Log width cap log
  count : log.countP (·.1 = start) = count
  before : ∀ e ∈ log, e.1 = start ∨ e.1 + width ≤ start

/-- A new window may begin when all others are over. -/
theorem Tracks.fresh (hp : 0 < width) (hl : Log width cap log)
    (ho : ∀ e ∈ log, e.1 + width ≤ now) : Tracks width cap now 0 log where
  sound := hl
  count := by
    rw [List.countP_eq_zero]
    intro e he hs
    have heq := of_decide_eq_true hs
    have hle := ho e he
    omega
  before := fun e he => .inr (ho e he)

/-- When a window is over, so are all those before it. -/
theorem Tracks.over (h : Tracks width cap start count log) (hle : start + width ≤ now) :
    ∀ e ∈ log, e.1 + width ≤ now := by
  intro e he
  rcases h.before e he with heq | hb
  · omega
  · omega

/-- One more in a window that has room. -/
theorem Tracks.push (h : Tracks width cap start count log) (hr : count < cap)
    (hst : start ≤ now) (hen : now < start + width) :
    Tracks width cap start (count + 1) (log ++ [(start, now)]) := by
  have hm : ∀ e ∈ log ++ [(start, now)], e ∈ log ∨ e = (start, now) := by
    intro e he
    rwa [List.mem_append, List.mem_singleton] at he
  have hc : (log ++ [(start, now)]).countP (·.1 = start) = count + 1 := by
    rw [List.countP_append, List.countP_singleton, h.count, if_pos (decide_eq_true rfl)]
  refine ⟨⟨?_, ?_, ?_⟩, hc, ?_⟩
  · intro e he
    rcases hm e he with ho | rfl
    · exact h.sound.within e ho
    · exact ⟨hst, hen⟩
  · intro e he e' he' hlt
    rcases hm e he with ho | rfl <;> rcases hm e' he' with h' | rfl
    · exact h.sound.apart e ho e' h' hlt
    · exact (h.before e ho).resolve_left hlt.ne
    · have hb := h.before e' h'
      omega
    · exact absurd hlt (lt_irrefl _)
  · intro s
    by_cases heq : s = start
    · subst heq
      rw [hc]
      exact hr
    · rw [List.countP_append, List.countP_singleton, if_neg (by simpa using fun hs => heq hs.symm)]
      exact h.sound.count s
  · intro e he
    rcases hm e he with ho | rfl
    · exact h.before e ho
    · exact .inl rfl

end FixedWindows
