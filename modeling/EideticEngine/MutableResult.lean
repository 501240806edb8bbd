/-
# Fallible steps on a mutable argument

A function that takes `&mut σ` and returns a `Result` is a computation in
`EStateM ε σ`: a failed call hands back the state as it was when the call failed.
`EStateM.lift` runs a step that cannot touch the state, and `FailsWithin R` bounds
what a failed call may have done to the state, given its error.  `Post x s Q E` gives
both ends of a call their postcondition and is taken apart along `>>=`.
-/
import EideticEngine.ExceptRules

namespace EStateM

variable {ε σ α β : Type}

/-- A step that does not touch the state. -/
def lift (x : Except ε α) : EStateM ε σ α := fun s =>
  match x with
  | .ok a => .ok a s
  | .error e => .error e s

/-- A step that cannot touch the state, then the rest: what success means. -/
theorem lift_bind_eq_ok_iff {x : Except ε α} {f : α → EStateM ε σ β} {s s' : σ} {b : β} :
    (lift x >>= f) s = .ok b s' ↔ ∃ a, x = .ok a ∧ f a s = .ok b s' := by
  cases x with
  | error e => simp [lift, bind, EStateM.bind]
  | ok a => simp [lift, bind, EStateM.bind]

/-- Every failed call relates its error and the states before and after it by `R`. -/
def FailsWithin (R : ε → σ → σ → Prop) (x : EStateM ε σ α) : Prop :=
  ∀ s e s', x s = .error e s' → R e s s'

/-- A step that cannot touch the state adds failures that leave it alone. -/
theorem FailsWithin.lift_bind {R : ε → σ → σ → Prop} (hr : ∀ e s, R e s s) (x : Except ε α)
    {f : α → EStateM ε σ β} (hf : ∀ a, FailsWithin R (f a)) : FailsWithin R (lift x >>= f) := by
  intro s e s' h
  cases x with
  | error e₀ =>
    simp only [lift, bind, EStateM.bind, Result.error.injEq] at h
    rw [← h.2]
    exact hr e s
  | ok a => exact hf a s e s' h

/-- A value made from the result of a step adds no failure. -/
theorem FailsWithin.bind_pure {R : ε → σ → σ → Prop} {x : EStateM ε σ α} {b : α → β}
    (hx : FailsWithin R x) : FailsWithin R (x >>= fun a => pure (b a)) := by
  intro s e s' h
  simp only [bind, EStateM.bind, pure, EStateM.pure] at h
  cases hxs : x s with
  | ok a s₁ => simp [hxs] at h
  | error e₁ s₁ =>
    simp only [hxs, Result.error.injEq] at h
    rw [← h.1, ← h.2]
    exact hx s e₁ s₁ hxs

/-- What success of a step and a value made from its result means. -/
theorem bind_pure_eq_ok_iff {x : EStateM ε σ α} {f : α → β} {s s' : σ} {b : β} :
    (x >>= fun a => pure (f a)) s = .ok b s' ↔ ∃ a, x s = .ok a s' ∧ f a = b := by
  simp only [bind, EStateM.bind, pure, EStateM.pure]
  cases x s with
  | ok a s₁ => simp [and_comm]
  | error e s₁ => simp

/-! ## Pre- and postconditions -/

/-- What a call from a state ends in: `Q` when it returns and `E` when it fails. -/
def Post (x : EStateM ε σ α) (s : σ) (Q : α → σ → Prop) (E : ε → σ → Prop) : Prop :=
  match x s with
  | .ok a s' => Q a s'
  | .error e s' => E e s'

variable {x : EStateM ε σ α} {f : α → EStateM ε σ β} {s s' : σ} {a : α} {e : ε}
  {Q Q' : α → σ → Prop} {E E' : ε → σ → Prop}

theorem Post.of_ok (h : Post x s Q E) (hx : x s = .ok a s') : Q a s' := by
  rw [Post, hx] at h
  exact h

theorem Post.of_error (h : Post x s Q E) (hx : x s = .error e s') : E e s' := by
  rw [Post, hx] at h
  exact h

/-- The rule of consequence. -/
theorem Post.mono (h : Post x s Q E) (hQ : ∀ a s', Q a s' → Q' a s')
    (hE : ∀ e s', E e s' → E' e s') : Post x s Q' E' := by
  unfold Post at h ⊢
  split
  · rename_i heq
    rw [heq] at h
    exact hQ _ _ h
  · rename_i heq
    rw [heq] at h
    exact hE _ _ h

theorem post_pure : Post (pure a) s Q E ↔ Q a s := Iff.rfl

/-- The rest of a call starts where its first step ends. -/
theorem post_bind {Q : β → σ → Prop} :
    Post (x >>= f) s Q E ↔ Post x s (fun a s' => Post (f a) s' Q E) E := by
  unfold Post
  simp only [bind, EStateM.bind]
  cases x s <;> rfl

/-- The rule for a sequence of two calls. -/
theorem Post.bind {Q : β → σ → Prop} {R : α → σ → Prop} (hx : Post x s R E)
    (hf : ∀ a s', R a s' → Post (f a) s' Q E) : Post (x >>= f) s Q E :=
  post_bind.mpr (hx.mono hf fun _ _ h => h)

theorem post_map {g : α → β} {Q : β → σ → Prop} :
    Post (g <$> x) s Q E ↔ Post x s (fun a s' => Q (g a) s') E := by
  unfold Post
  simp only [Functor.map, EStateM.map]
  cases x s <;> rfl

theorem post_get_bind {g : σ → EStateM ε σ β} {Q : β → σ → Prop} :
    Post (get >>= g) s Q E ↔ Post (g s) s Q E := Iff.rfl

theorem post_set_bind {g : PUnit → EStateM ε σ β} {Q : β → σ → Prop} :
    Post (set s' >>= g) s Q E ↔ Post (g ⟨⟩) s' Q E := Iff.rfl

theorem post_modify {g : σ → σ} {Q : Unit → σ → Prop} :
    Post (modify g : EStateM ε σ Unit) s Q E ↔ Q () (g s) := Iff.rfl

end EStateM
