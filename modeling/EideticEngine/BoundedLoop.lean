/-
# Loops with a termination measure

A `while` loop of an imperative program, as a step function `σ → σ ⊕ ρ`: a step
either continues with a new state or leaves the loop with a result.  `Loop`
bundles the step with the invariant and the measure that make it terminate, so
`Loop.run` is a total function; the measure plus one is the fuel of the
underlying structural iteration, which keeps the run executable.

The rules a client uses are `Loop.run_eq` (unfold one round) and
`Loop.run_induction` (an extra invariant, carried to the result).
-/
import Mathlib.Tactic.Common

/-- At most `n` rounds of `step`; `none` when they do not leave the loop. -/
def iterate {σ ρ : Type*} (step : σ → σ ⊕ ρ) : ℕ → σ → Option ρ
  | 0, _ => none
  | n + 1, s =>
    match step s with
    | .inl s' => iterate step n s'
    | .inr r => some r

/-- A loop body together with the reason why the loop ends. -/
structure Loop (σ ρ : Type*) where
  /-- One round of the loop. -/
  step : σ → σ ⊕ ρ
  /-- What every state at the head of the loop satisfies. -/
  Inv : σ → Prop
  /-- The quantity that every continuing round decreases. -/
  measure : σ → ℕ
  inv_step : ∀ s s', Inv s → step s = .inl s' → Inv s'
  measure_step : ∀ s s', Inv s → step s = .inl s' → measure s' < measure s

namespace Loop

variable {σ ρ : Type*} (L : Loop σ ρ)

/-- More fuel than the measure is enough to leave the loop. -/
theorem iterate_isSome : ∀ (n : ℕ) (s : σ), L.Inv s → L.measure s < n →
    (iterate L.step n s).isSome := by
  intro n
  induction n with
  | zero => intro s _ hlt; omega
  | succ n ih =>
    intro s hs hlt
    rw [iterate]
    cases hst : L.step s with
    | inl s' =>
      have hd := L.measure_step s s' hs hst
      exact ih s' (L.inv_step s s' hs hst) (by omega)
    | inr r => rfl

/-- Any two amounts of sufficient fuel give the same result. -/
theorem iterate_congr : ∀ (n m : ℕ) (s : σ), L.Inv s → L.measure s < n → L.measure s < m →
    iterate L.step n s = iterate L.step m s := by
  intro n
  induction n with
  | zero => intro m s _ hlt; omega
  | succ n ih =>
    intro m s hs hn hm
    obtain ⟨m, rfl⟩ : ∃ k, m = k + 1 := ⟨m - 1, by omega⟩
    rw [iterate, iterate]
    cases hst : L.step s with
    | inl s' =>
      have hd := L.measure_step s s' hs hst
      exact ih m s' (L.inv_step s s' hs hst) (by omega) (by omega)
    | inr r => rfl

/-- Run the loop from a state that satisfies its invariant. -/
def run (s : σ) (hs : L.Inv s) : ρ :=
  (iterate L.step (L.measure s + 1) s).get
    (L.iterate_isSome _ s hs (Nat.lt_succ_self _))

/-- The iteration that `run` is made of. -/
theorem iterate_eq_run {s : σ} (hs : L.Inv s) :
    iterate L.step (L.measure s + 1) s = some (L.run s hs) :=
  (Option.some_get _).symm

/-- A round that leaves the loop gives the loop's result. -/
theorem run_of_inr {s : σ} {r : ρ} (hs : L.Inv s) (h : L.step s = .inr r) :
    L.run s hs = r := by
  simp [run, iterate, h]

/-- A round that continues leaves the result to the rest of the run. -/
theorem run_of_inl {s s' : σ} (hs : L.Inv s) (h : L.step s = .inl s') :
    L.run s hs = L.run s' (L.inv_step s s' hs h) := by
  have hd := L.measure_step s s' hs h
  unfold run
  rw [Option.get_inj, iterate, h]
  exact L.iterate_congr _ _ s' (L.inv_step s s' hs h) (by omega) (by omega)

/-- **The invariant rule.**  A property `P` of the states that every continuing
round keeps, and that a leaving round turns into `Q` of the result, gives `Q` of
the result of the whole run. -/
theorem run_induction {P : σ → Prop} {Q : ρ → Prop}
    (hst : ∀ s s', L.Inv s → P s → L.step s = .inl s' → P s')
    (he : ∀ s r, L.Inv s → P s → L.step s = .inr r → Q r) :
    ∀ (s : σ) (hs : L.Inv s), P s → Q (L.run s hs) := by
  suffices h : ∀ (n : ℕ) (s : σ) (hs : L.Inv s), L.measure s < n → P s → Q (L.run s hs) by
    intro s hs hP
    exact h _ s hs (Nat.lt_succ_self _) hP
  intro n
  induction n with
  | zero => intro s _ hlt; omega
  | succ n ih =>
    intro s hs hlt hP
    cases h : L.step s with
    | inl s' =>
      have hd := L.measure_step s s' hs h
      rw [L.run_of_inl hs h]
      exact ih s' _ (by omega) (hst s s' hs hP h)
    | inr r =>
      rw [L.run_of_inr hs h]
      exact he s r hs hP h

end Loop
