/-
# Scanners with lookahead

A scanner reads a text from left to right.  Its step sees all of the text that is left and
takes at least one symbol of it.  The state at a place is unique, an invariant of the step
holds at every place the scan stops at, and a scan may be cut where the lookahead of the step
does not go past the cut.
-/
import Mathlib

namespace CursorScan

variable {σ α : Type*}

/-- A scanner: from a state, the next symbol and what follows it, the next state and what is
left, which is a suffix of what followed. -/
structure Scanner (σ α : Type*) where
  step : σ → α → List α → σ × List α
  suffix : ∀ s c rest, (step s c rest).2 <:+ rest

namespace Scanner

/-- The state at the end of a text. -/
def run (m : Scanner σ α) (s : σ) : List α → σ
  | [] => s
  | c :: rest => run m (m.step s c rest).1 (m.step s c rest).2
termination_by text => text.length
decreasing_by
  have := (m.suffix s c rest).length_le
  simp only [List.length_cons]
  omega

@[simp] theorem run_nil (m : Scanner σ α) (s : σ) : m.run s [] = s := by
  rw [run]

theorem run_cons (m : Scanner σ α) (s : σ) (c : α) (r : List α) :
    m.run s (c :: r) = m.run (m.step s c r).1 (m.step s c r).2 := by
  rw [run]

/-! ## Places of a scan -/

/-- A place of a scan: what was read, the state, and what is left. -/
structure Place (σ α : Type*) where
  seen : List α
  state : σ
  rest : List α

/-- One step of the scan. -/
inductive Moves (m : Scanner σ α) : Place σ α → Place σ α → Prop
  | step {seen read rest rest' : List α} {s s' : σ} {c : α}
      (hstep : m.step s c rest = (s', rest')) (hread : c :: rest = read ++ rest') :
      Moves m ⟨seen, s, c :: rest⟩ ⟨seen ++ read, s', rest'⟩

/-- The scan of `text` from the state `s₀` comes to a place. -/
def Reaches (m : Scanner σ α) (s₀ : σ) (text : List α) (place : Place σ α) : Prop :=
  Relation.ReflTransGen m.Moves ⟨[], s₀, text⟩ place

variable {m : Scanner σ α} {s₀ : σ} {text : List α} {place next : Place σ α}

theorem rightUnique_moves (m : Scanner σ α) : Relator.RightUnique m.Moves := by
  rintro _ _ _ ⟨hs, hr⟩ ho
  cases ho with
  | step hs' hr' =>
    obtain ⟨rfl, rfl⟩ := Prod.mk.inj (hs.symm.trans hs')
    rw [List.append_cancel_right (hr.symm.trans hr')]

theorem Moves.length_lt (h : m.Moves place next) : place.seen.length < next.seen.length := by
  obtain ⟨hs, hr⟩ := h
  rename_i se read r r' s s' c
  have hle := (m.suffix s c r).length_le
  rw [hs] at hle
  have hl := congrArg List.length hr
  simp only [List.length_append, List.length_cons] at hl hle ⊢
  omega

theorem Moves.append_eq (h : m.Moves place next) :
    next.seen ++ next.rest = place.seen ++ place.rest := by
  obtain ⟨-, hr⟩ := h
  simp [hr]

theorem Moves.run_eq (h : m.Moves place next) :
    m.run next.state next.rest = m.run place.state place.rest := by
  obtain ⟨hs, -⟩ := h
  rw [run_cons, hs]

namespace Reaches

theorem refl (m : Scanner σ α) (s₀ : σ) (text : List α) : m.Reaches s₀ text ⟨[], s₀, text⟩ :=
  Relation.ReflTransGen.refl

theorem tail (h : m.Reaches s₀ text place) (hm : m.Moves place next) : m.Reaches s₀ text next :=
  Relation.ReflTransGen.tail h hm

/-- **Invariant rule.** What holds at the start and is kept by every step holds at every place
of a scan. -/
theorem invariant {P : Place σ α → Prop} (h : m.Reaches s₀ text place) (hs : P ⟨[], s₀, text⟩)
    (hst : ∀ p q, m.Reaches s₀ text p → P p → m.Moves p q → P q) : P place := by
  induction h with
  | refl => exact hs
  | tail hr hm ih => exact hst _ _ hr ih hm

/-- What was read and what is left make up the text. -/
theorem append_eq (h : m.Reaches s₀ text place) : place.seen ++ place.rest = text :=
  h.invariant (P := fun p => p.seen ++ p.rest = text) rfl fun _ _ _ hp hm => hm.append_eq.trans hp

/-- The scan goes on from a place as it would from the start. -/
theorem run_eq (h : m.Reaches s₀ text place) : m.run place.state place.rest = m.run s₀ text :=
  h.invariant (P := fun p => m.run p.state p.rest = m.run s₀ text) rfl
    fun _ _ _ hp hm => hm.run_eq.trans hp

theorem length_le {p q : Place σ α} (h : Relation.ReflTransGen m.Moves p q) :
    p.seen.length ≤ q.seen.length := by
  induction h with
  | refl => exact le_rfl
  | tail _ hm ih => exact ih.trans hm.length_lt.le

theorem eq_of_length_le {p q : Place σ α} (h : Relation.ReflTransGen m.Moves p q)
    (hle : q.seen.length ≤ p.seen.length) : p = q := by
  rcases Relation.ReflTransGen.cases_head h with heq | ⟨r, hm, hr⟩
  · exact heq
  · have hlt := hm.length_lt
    have hge := length_le hr
    omega

/-- **The place at a length is unique.** -/
theorem unique {p q : Place σ α} (hp : m.Reaches s₀ text p) (hq : m.Reaches s₀ text q)
    (hl : p.seen.length = q.seen.length) : p = q := by
  rcases Relation.ReflTransGen.total_of_right_unique m.rightUnique_moves hp hq with h | h
  · exact eq_of_length_le h hl.ge
  · exact (eq_of_length_le h hl.le).symm

end Reaches

/-- The scan comes to the end of its text. -/
theorem reaches_run (m : Scanner σ α) (s₀ : σ) (text : List α) :
    m.Reaches s₀ text ⟨text, m.run s₀ text, []⟩ := by
  have he : ∀ n : ℕ, ∀ p : Place σ α, p.rest.length = n → m.Reaches s₀ text p →
      m.Reaches s₀ text ⟨text, m.run s₀ text, []⟩ := by
    intro n
    induction n using Nat.strong_induction_on with
    | _ n ih =>
      rintro ⟨se, s, r⟩ hl hr
      cases r with
      | nil =>
        have hs : se = text := by simpa using hr.append_eq
        have hru : s = m.run s₀ text := by simpa using hr.run_eq
        rwa [hs, hru] at hr
      | cons c r =>
        obtain ⟨read, hre⟩ := (m.suffix s c r).trans (List.suffix_cons c r)
        have hle := (m.suffix s c r).length_le
        simp only [List.length_cons] at hl
        exact ih _ (lt_of_le_of_lt hle (by omega)) _ rfl (hr.tail (.step rfl hre.symm))
  exact he _ _ rfl (Reaches.refl m s₀ text)

/-- A scan from a place is the end of the scan that came to it. -/
theorem Reaches.trans {q : Place σ α} (h : m.Reaches s₀ text place)
    (hq : m.Reaches place.state place.rest q) :
    m.Reaches s₀ text ⟨place.seen ++ q.seen, q.state, q.rest⟩ := by
  refine hq.invariant (P := fun q => m.Reaches s₀ text ⟨place.seen ++ q.seen, q.state, q.rest⟩)
    (by simpa using h) ?_
  rintro _ _ - hp ⟨hs, hr⟩
  have hm := hp.tail (Moves.step hs hr)
  simpa using hm

/-! ## Cutting a scan -/

/-- The scan comes to every symbol that no step takes with what stands before it. -/
theorem exists_reaches {c : α} (h : ∀ s first b after, ∃ b',
      (m.step s first (b ++ c :: after)).2 = b' ++ c :: after)
    (s₀ : σ) (b after : List α) :
    ∃ s, m.Reaches s₀ (b ++ c :: after) ⟨b, s, c :: after⟩ := by
  induction hn : b.length using Nat.strong_induction_on generalizing b s₀ with
  | _ n ih =>
    cases b with
    | nil => exact ⟨s₀, Reaches.refl m s₀ (c :: after)⟩
    | cons first b =>
      obtain ⟨b', hre⟩ := h s₀ first b after
      obtain ⟨read, hr⟩ := m.suffix s₀ first (b ++ c :: after)
      rw [hre, ← List.append_assoc] at hr
      have hb := List.append_cancel_right hr
      have hl := congrArg List.length hb
      simp only [List.length_append, List.length_cons] at hl hn
      obtain ⟨s, hs⟩ := ih b'.length (by omega) _ b' rfl
      refine ⟨s, ?_⟩
      have hf : m.Reaches s₀ (first :: b ++ c :: after)
          ⟨[] ++ first :: read, (m.step s₀ first (b ++ c :: after)).1, b' ++ c :: after⟩ :=
        (Reaches.refl m s₀ _).tail (.step (Prod.ext rfl hre) (by simp [← hb]))
      have hw := hf.trans hs
      simpa [← hb] using hw

/-- The step looks no further than the symbol `c`: it does the same whatever follows `c`, and
it does not take `c` with what stands before it. -/
def StopsAt (m : Scanner σ α) (c : α) : Prop :=
  (∀ s first before after, ∃ s' before',
      m.step s first (before ++ c :: after) = (s', before' ++ c :: after) ∧
      m.step s first (before ++ [c]) = (s', before' ++ [c])) ∧
    ∀ s after, m.step s c after = ((m.step s c []).1, after)

/-- The scan of a text comes to the symbol it stops at in a state that does not depend on what
follows. -/
theorem StopsAt.reaches {c : α} (h : m.StopsAt c) (s₀ : σ) (b : List α) :
    ∃ s, ∀ after, m.Reaches s₀ (b ++ c :: after) ⟨b, s, c :: after⟩ := by
  induction hn : b.length using Nat.strong_induction_on generalizing b s₀ with
  | _ n ih =>
    cases b with
    | nil => exact ⟨s₀, fun after => Reaches.refl m s₀ (c :: after)⟩
    | cons first b =>
      obtain ⟨s', b', -, hsh⟩ := h.1 s₀ first b []
      have ha : ∀ after, m.step s₀ first (b ++ c :: after) = (s', b' ++ c :: after) := by
        intro after
        obtain ⟨s'', b'', hlo, hs'⟩ := h.1 s₀ first b after
        obtain ⟨rfl, heq⟩ := Prod.mk.inj (hsh.symm.trans hs')
        rw [hlo, List.append_cancel_right heq]
      obtain ⟨read, hr⟩ := m.suffix s₀ first (b ++ [c])
      rw [hsh, ← List.append_assoc] at hr
      have hb := List.append_cancel_right hr
      have hl := congrArg List.length hb
      simp only [List.length_append, List.length_cons] at hl hn
      obtain ⟨s, hs⟩ := ih b'.length (by omega) s' b' rfl
      refine ⟨s, fun after => ?_⟩
      have hf : m.Reaches s₀ (first :: b ++ c :: after)
          ⟨[] ++ first :: read, s', b' ++ c :: after⟩ :=
        (Reaches.refl m s₀ _).tail (.step (ha after) (by simp [← hb]))
      have hw := hf.trans (hs after)
      simpa [← hb] using hw

/-- **A scan may be cut behind the symbol.** -/
theorem StopsAt.reaches_after {c : α} (h : m.StopsAt c) (s₀ : σ) (b after : List α) :
    m.Reaches s₀ (b ++ c :: after) ⟨b ++ [c], m.run s₀ (b ++ [c]), after⟩ := by
  obtain ⟨s, hs⟩ := h.reaches s₀ b
  have hm : ∀ tail, m.Reaches s₀ (b ++ c :: tail) ⟨b ++ [c], (m.step s c []).1, tail⟩ := fun tail =>
    (hs tail).tail (.step (h.2 s tail) rfl)
  have hst : (m.step s c []).1 = m.run s₀ (b ++ [c]) := by
    simpa using (hm []).run_eq
  rw [← hst]
  exact hm after

end Scanner

end CursorScan
