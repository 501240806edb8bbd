/-
# Transports that split and interrupt

A transport carries out the calls of a program one after another.  A schedule says of every call
whether it is interrupted or carried out, and how many bytes it moves at most.  A schedule is fair
if no call is put off forever.
-/
import Mathlib.Tactic.Common

namespace ShortIo

/-- What a transport does with a call: interrupt it, or carry it out for one byte and at most so
many more. -/
inductive Step where
  | interrupted
  | ready (more : ℕ)

/-- A transport: its schedule, the number of the next call, and the bytes that are waiting to be
read or were written. -/
structure Transport where
  schedule : ℕ → Step
  calls : ℕ
  bytes : List UInt8

/-- No call is interrupted forever. -/
def Fair (schedule : ℕ → Step) : Prop :=
  ∀ n, ∃ m, n ≤ m ∧ ∃ more, schedule m = .ready more

/-- One call.  What it does depends on how many bytes it may move at most. -/
def Transport.attempt {α ε : Type} (interruption : ε)
    (perform : ℕ → List UInt8 → α × List UInt8) (t : Transport) : Except ε α × Transport :=
  match t.schedule t.calls with
  | .interrupted => (.error interruption, { t with calls := t.calls + 1 })
  | .ready more =>
    (.ok (perform (more + 1) t.bytes).1,
      { t with calls := t.calls + 1, bytes := (perform (more + 1) t.bytes).2 })

/-- A call either is interrupted and changes nothing, or it moves at least one byte. -/
theorem Transport.attempt_cases {α ε : Type} (interruption : ε)
    (perform : ℕ → List UInt8 → α × List UInt8) (t : Transport) :
    (t.schedule t.calls = .interrupted ∧ t.attempt interruption perform
        = (.error interruption, { t with calls := t.calls + 1 }))
      ∨ ∃ n, 0 < n ∧ t.attempt interruption perform = (.ok (perform n t.bytes).1,
          { t with calls := t.calls + 1, bytes := (perform n t.bytes).2 }) := by
  unfold Transport.attempt
  cases hs : t.schedule t.calls with
  | interrupted => exact Or.inl ⟨rfl, rfl⟩
  | ready m => exact Or.inr ⟨m + 1, Nat.succ_pos m, rfl⟩

end ShortIo
