/-
# Taking successful computations apart

A computation in `Except` that succeeds is a sequence of successful steps.  The
lemmas invert `>>=`, `map` and a list fold with early return.
-/
import Mathlib.Tactic.Common

namespace Except

universe u v

variable {ε : Type u} {α β : Type v}

/-- A bind succeeds exactly when both parts do. -/
theorem bind_eq_ok_iff {x : Except ε α} {f : α → Except ε β} {b : β} :
    (x >>= f) = .ok b ↔ ∃ a, x = .ok a ∧ f a = .ok b := by
  cases x with
  | error e => simp [bind, Except.bind]
  | ok a => simp [bind, Except.bind]

/-- A mapped computation succeeds exactly when the computation does. -/
theorem map_eq_ok_iff {x : Except ε α} {f : α → β} {b : β} :
    x.map f = .ok b ↔ ∃ a, x = .ok a ∧ f a = b := by
  cases x <;> simp [Except.map]

/-- A step that returns hands its value on. -/
theorem ok_then (a : α) (f : α → Except ε β) : (Except.ok a >>= f) = f a := rfl

theorem then_of_ok {x : Except ε α} {a : α} {f : α → Except ε β} {r : Except ε β}
    (hx : x = .ok a) (hf : f a = r) : (x >>= f) = r := by
  rw [hx]
  exact hf

/-- What is left when the error is forgotten is the value. -/
theorem eq_ok_of_toOption {x : Except ε α} {a : α} (h : x.toOption = some a) : x = .ok a := by
  cases x with
  | error error => cases h
  | ok b => exact congrArg Except.ok (Option.some.inj h)

/-- Replacing the error keeps the successes. -/
theorem mapError_eq_ok_iff {ε' : Type u} {x : Except ε α} {f : ε → ε'} {a : α} :
    x.mapError f = .ok a ↔ x = .ok a := by
  cases x <;> simp [Except.mapError]

/-- Report an error unless the condition holds. -/
def check (c : Prop) [Decidable c] (e : ε) : Except ε Unit := if c then .ok () else .error e

@[simp] theorem check_eq_ok_iff {c : Prop} [Decidable c] {e : ε} {u : Unit} :
    check c e = .ok u ↔ c := by
  unfold check
  split <;> simp_all

/-- A check that holds is passed. -/
theorem check_then {γ : Type} {ε' : Type} {c : Prop} [Decidable c] {e : ε'}
    {f : Unit → Except ε' γ} {r : Except ε' γ} (h : c) (hf : f () = r) :
    (check c e >>= f) = r :=
  then_of_ok (check_eq_ok_iff.mpr h) hf

/-- A check, and what follows it if it holds, report the same error. -/
theorem check_then_error {γ : Type} {ε' : Type} {c : Prop} [Decidable c] {e : ε'}
    {f : Unit → Except ε' γ} (h : c → f () = .error e) : (check c e >>= f) = .error e := by
  by_cases hc : c
  · exact check_then hc (h hc)
  · simp [check, hc, bind, Except.bind]

end Except

/-- A loop of checks succeeds exactly when every check does. -/
theorem List.forM_eq_ok_iff {α ε : Type*} {f : α → Except ε PUnit} {l : List α} {u : PUnit} :
    forM l f = .ok u ↔ ∀ a ∈ l, f a = .ok ⟨⟩ := by
  induction l with
  | nil => simp [pure, Except.pure]
  | cons a l ih =>
    rw [List.forM_cons, Except.bind_eq_ok_iff, List.forall_mem_cons, ← ih]
    constructor
    · rintro ⟨⟨⟩, ha, hl⟩
      exact ⟨ha, hl⟩
    · rintro ⟨ha, hl⟩
      exact ⟨⟨⟩, ha, hl⟩

/-- **The rule for a `for` loop with an early error return.**  A property of the
elements still to come and of the state, kept by every round that succeeds, holds
at the end with no element left. -/
theorem List.foldlM_ok_induction {α σ : Type*} {ε : Type*} {f : σ → α → Except ε σ}
    {P : List α → σ → Prop}
    (hs : ∀ a r s s', P (a :: r) s → f s a = .ok s' → P r s') :
    ∀ (l : List α) (s s' : σ), P l s → l.foldlM f s = .ok s' → P [] s' := by
  intro l
  induction l with
  | nil =>
    intro s s' hP h
    cases h
    exact hP
  | cons a r ih =>
    intro s s' hP h
    rw [List.foldlM_cons] at h
    obtain ⟨s₁, hfa, hr⟩ := Except.bind_eq_ok_iff.mp h
    exact ih s₁ s' (hs a r s s₁ hP hfa) hr
