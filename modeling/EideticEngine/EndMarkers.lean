/-
# End markers (`src/db/memory_temporal.rs`, `tighten_end`)

An end marker of a memory is a text that stands for an instant.  A call reads it, compares
instants, and updates the row only if the text is still the one that it read; it tries three
times.  Many calls run at once, and between any two of their statements others run theirs.
-/
import EideticEngine.MemoryTemporal

namespace MemoryTemporal

/-! ## Calls and statements -/

inductive EndColumn where
  | validTo
  | supersededAt
  deriving DecidableEq

/-- A call: the end that is asked for and its column. -/
structure TightenEnd where
  raw : String
  column : EndColumn

/-- The row of the memory, as far as it is read or written. -/
structure EndRow where
  ends : EndColumn → Option String
  tombstonedAt : Option String
  updatedAt : String

/-- Where a call is. -/
inductive TightenPhase where
  | start
  | reading (at' : ℤ) (tries : ℕ)
  | updating (at' : ℤ) (tries : ℕ) (previous : Option String)
  | done (result : Except DbError Bool)

structure EndState (n : ℕ) where
  row : Option EndRow
  phase : Fin n → TightenPhase

/-- The next statement of a call, which may fail, or a tombstone. -/
inductive EndAction (n : ℕ) where
  | call (call : Fin n) (failure : Option DbError) (now : String)
  | tombstone (now : String)

/-- The row that statements see. -/
def EndState.live {n : ℕ} (s : EndState n) : Option EndRow :=
  s.row.filter fun row => row.tombstonedAt = none

section

variable (instant : String → Option ℤ) {n : ℕ}

def EndState.goto (s : EndState n) (call : Fin n) (phase : TightenPhase) : EndState n :=
  { s with phase := Function.update s.phase call phase }

/-- What a call does after it has read the row. -/
def afterRead (request : TightenEnd) (at' : ℤ) (tries : ℕ) (row : Option EndRow) : TightenPhase :=
  match row with
  | none => .done (.ok false)
  | some row =>
    match row.ends request.column with
    | none => .updating at' tries none
    | some previous =>
      match instant previous with
      | none => .done (.error (malformed "Stored memory end marker is not RFC3339"))
      | some «end» =>
        if «end» ≤ at' then .done (.ok false) else .updating at' tries (some previous)

/-- After an update that changed no row: another try, or the report of the race. -/
def afterRace (at' : ℤ) (tries : ℕ) : TightenPhase :=
  if tries + 1 < 3 then .reading at' (tries + 1)
  else .done (.error (malformed
    "Memory end marker changed during update; retry against current state"))

/-- The update, if the row is live and has the end that was read. -/
def updateEnd (row : Option EndRow) (request : TightenEnd) (previous : Option String)
    (now : String) : Option EndRow :=
  match row with
  | some row =>
    if row.ends request.column = previous then
      some { row with
        ends := Function.update row.ends request.column (some request.raw), updatedAt := now }
    else none
  | none => none

def tightenStep (request : TightenEnd) (s : EndState n) (call : Fin n) (failure : Option DbError)
    (now : String) : Option (EndState n) :=
  match s.phase call, failure with
  | .start, _ =>
    match reference instant request.raw with
    | .error error => some (s.goto call (.done (.error error)))
    | .ok at' => some (s.goto call (.reading at' 0))
  | .reading _ _, some error => some (s.goto call (.done (.error error)))
  | .reading at' tries, none => some (s.goto call (afterRead instant request at' tries s.live))
  | .updating _ _ _, some error => some (s.goto call (.done (.error error)))
  | .updating at' tries previous, none =>
    match updateEnd s.live request previous now with
    | some row => some ({ s with row := some row }.goto call (.done (.ok true)))
    | none => some (s.goto call (afterRace at' tries))
  | .done _, _ => none

variable (calls : Fin n → TightenEnd)

def endStep (s : EndState n) : EndAction n → Option (EndState n)
  | .call call failure now => tightenStep instant (calls call) s call failure now
  | .tombstone now =>
    some { s with row := s.row.map fun row => { row with tombstonedAt := some now } }

/-- Any number of statements. -/
def EndSteps : EndState n → EndState n → Prop :=
  Relation.ReflTransGen fun s s' => ∃ action, endStep instant calls s action = some s'

/-- All calls are to begin; the row is as it may be. -/
def EndState.Initial (s : EndState n) : Prop := ∀ call, s.phase call = .start

/-! ## Stored ends -/

/-- The stored text of an end. -/
def EndState.storedEnd (s : EndState n) (column : EndColumn) : Option String :=
  s.row.bind fun row => row.ends column

/-- The stored end as an instant; an end that is not set, or is no instant, is none. -/
def EndState.endAt (s : EndState n) (column : EndColumn) : WithTop ℤ :=
  match (s.storedEnd column).bind instant with
  | some «end» => («end» : WithTop ℤ)
  | none => ⊤

variable {instant calls} {s s' s'' : EndState n} {call : Fin n} {request : TightenEnd}

/-- The live row is the row. -/
theorem live_eq_some {row : EndRow} (h : s.live = some row) : s.row = some row :=
  (Option.filter_eq_some_iff.mp h).1

variable (instant) in
/-- Ends have not moved later, and no row has come to life. -/
structure Tighter (s s' : EndState n) : Prop where
  endAt : ∀ column, s'.endAt instant column ≤ s.endAt instant column
  live : s.live = none → s'.live = none

theorem Tighter.of_row (h : s'.row = s.row) : Tighter instant s s' where
  endAt := fun c => by
    rw [EndState.endAt, EndState.endAt, EndState.storedEnd, EndState.storedEnd, h]
  live := fun hl => by rwa [EndState.live, h]

theorem Tighter.trans (h : Tighter instant s s') (h' : Tighter instant s' s'') :
    Tighter instant s s'' :=
  ⟨fun c => (h'.endAt c).trans (h.endAt c), fun hl => h'.live (h.live hl)⟩

variable (instant) in
/-- What a call knows where it is. -/
def Holds (request : TightenEnd) (s : EndState n) : TightenPhase → Prop
  | .start => True
  | .reading at' _ => instant request.raw = some at'
  | .updating at' _ previous => instant request.raw = some at'
      ∧ ∀ text ∈ previous, ∃ earlier, instant text = some earlier ∧ at' < earlier
  | .done (.ok result) => (result = false ∧ s.live = none)
      ∨ ∃ at' : ℤ, instant request.raw = some at' ∧ s.endAt instant request.column ≤ at'
  | .done (.error _) => True

theorem Holds.tighter {p : TightenPhase} (h : Holds instant request s p)
    (ht : Tighter instant s s') : Holds instant request s' p := by
  cases p with
  | done r =>
    cases r with
    | error _ => trivial
    | ok r =>
      rcases h with ⟨hr, hl⟩ | ⟨at', hat, hle⟩
      · exact .inl ⟨hr, ht.live hl⟩
      · exact .inr ⟨at', hat, (ht.endAt _).trans hle⟩
  | _ => exact h

/-- What was read decides where a call goes. -/
theorem holds_afterRead {at' : ℤ} {ts : ℕ} (hat : instant request.raw = some at') :
    Holds instant request s (afterRead instant request at' ts s.live) := by
  unfold afterRead
  split
  · rename_i hl
    exact .inl ⟨rfl, hl⟩
  · rename_i row hl
    split
    · exact ⟨hat, fun text ht => nomatch ht⟩
    · rename_i ps hp
      split
      · trivial
      · rename_i stored hs
        split
        · rename_i hle
          refine .inr ⟨at', hat, ?_⟩
          rw [EndState.endAt, EndState.storedEnd, live_eq_some hl, Option.bind_some, hp,
            Option.bind_some, hs]
          exact WithTop.coe_le_coe.mpr hle
        · rename_i hlt
          refine ⟨hat, fun text ht => ?_⟩
          cases ht
          exact ⟨stored, hs, not_le.mp hlt⟩

theorem holds_afterRace {at' : ℤ} {ts : ℕ} (hat : instant request.raw = some at') :
    Holds instant request s (afterRace at' ts) := by
  unfold afterRace
  split
  · exact hat
  · trivial

/-- An update changes a live row that has the end that was read, and only that end. -/
theorem updateEnd_eq_some {ps : Option String} {now : String} {row : EndRow}
    (h : updateEnd s.live request ps now = some row) :
    ∃ old, s.row = some old ∧ s.live = some old ∧ old.ends request.column = ps ∧ row = { old with
        ends := Function.update old.ends request.column (some request.raw), updatedAt := now } := by
  unfold updateEnd at h
  split at h
  · rename_i old hl
    split at h
    · rename_i hp
      exact ⟨old, live_eq_some hl, hl, hp, (Option.some.inj h).symm⟩
    · cases h
  · cases h

/-- The effect of a statement: a call moves, an end is tightened, or the row is tombstoned. -/
inductive EndEffect (instant : String → Option ℤ) (calls : Fin n → TightenEnd) (s : EndState n) :
    EndState n → Prop
  | moved {s' : EndState n} {call : Fin n} {phase : TightenPhase} : s'.row = s.row →
      s'.phase = Function.update s.phase call phase →
      (Holds instant (calls call) s (s.phase call) → Holds instant (calls call) s phase) →
      EndEffect instant calls s s'
  | tightened {s' : EndState n} {call : Fin n} {at' : ℤ} {tries : ℕ} {old : EndRow}
      {now : String} : s.phase call = .updating at' tries (old.ends (calls call).column) →
      s.live = some old →
      s'.row = some { old with
        ends := Function.update old.ends (calls call).column (some (calls call).raw)
        updatedAt := now } →
      s'.phase = Function.update s.phase call (.done (.ok true)) → EndEffect instant calls s s'
  | tombstoned {s' : EndState n} {now : String} :
      s'.row = s.row.map (fun row => { row with tombstonedAt := some now }) →
      s'.phase = s.phase → EndEffect instant calls s s'

theorem EndEffect.of_goto {p : TightenPhase} (h : s.goto call p = s')
    (hp : Holds instant (calls call) s (s.phase call) → Holds instant (calls call) s p) :
    EndEffect instant calls s s' := by
  subst h
  exact .moved rfl rfl hp

/-- **Every statement**, by its effect. -/
theorem endStep_effect {a : EndAction n} (h : endStep instant calls s a = some s') :
    EndEffect instant calls s s' := by
  cases a with
  | tombstone now =>
    cases h
    exact .tombstoned rfl rfl
  | call call f now =>
    simp only [endStep, tightenStep] at h
    split at h
    · split at h
      · exact .of_goto (Option.some.inj h) fun _ => trivial
      · rename_i at' hat
        refine .of_goto (Option.some.inj h) fun _ => ?_
        unfold reference at hat
        split at hat
        · rename_i value hv
          rwa [Except.ok.inj hat] at hv
        · cases hat
    · exact .of_goto (Option.some.inj h) fun _ => trivial
    · rename_i at' ts hp
      refine .of_goto (Option.some.inj h) fun hr => ?_
      rw [hp] at hr
      exact holds_afterRead hr
    · exact .of_goto (Option.some.inj h) fun _ => trivial
    · rename_i at' ts ps hp
      split at h
      · rename_i row hu
        obtain ⟨old, -, hl, rfl, rfl⟩ := updateEnd_eq_some hu
        cases h
        exact .tightened hp hl rfl rfl
      · refine .of_goto (Option.some.inj h) fun hr => ?_
        rw [hp] at hr
        exact holds_afterRace hr.1
    · cases h

variable (instant calls) in
/-- What holds after every run. -/
def EndInv (s : EndState n) : Prop := ∀ call, Holds instant (calls call) s (s.phase call)

/-- A tightened end is earlier, and the other one is as it was. -/
theorem tighter_of_tightened {at' : ℤ} {ts : ℕ} {old : EndRow} {now : String}
    (h : EndInv instant calls s)
    (hph : s.phase call = .updating at' ts (old.ends (calls call).column))
    (hl : s.live = some old)
    (hr : s'.row = some { old with
      ends := Function.update old.ends (calls call).column (some (calls call).raw)
      updatedAt := now }) :
    Tighter instant s s' ∧ instant (calls call).raw = some at'
      ∧ s'.endAt instant (calls call).column = at' := by
  have hh := h call
  rw [hph] at hh
  obtain ⟨hat, hla⟩ := hh
  have hs : ∀ c, s'.storedEnd c
      = Function.update old.ends (calls call).column (some (calls call).raw) c := by
    intro c
    rw [EndState.storedEnd, hr]
    rfl
  have hb : ∀ c, s.storedEnd c = old.ends c := by
    intro c
    rw [EndState.storedEnd, live_eq_some hl]
    rfl
  have hn : s'.endAt instant (calls call).column = at' := by
    rw [EndState.endAt, hs, Function.update_self, Option.bind_some, hat]
  refine ⟨⟨?_, ?_⟩, hat, hn⟩
  · intro c
    by_cases heq : c = (calls call).column
    · subst heq
      rw [hn, EndState.endAt, hb]
      cases hp : old.ends (calls call).column with
      | none => exact le_top
      | some text =>
        obtain ⟨ea, ht, hlt⟩ := hla text hp
        rw [Option.bind_some, ht]
        exact WithTop.coe_le_coe.mpr hlt.le
    · rw [EndState.endAt, EndState.endAt, hs, hb, Function.update_of_ne heq]
  · intro hno
    rw [hno] at hl
    cases hl

/-- One statement keeps what the calls know, and moves no end later. -/
theorem EndInv.step (h : EndInv instant calls s) (he : EndEffect instant calls s s') :
    EndInv instant calls s' ∧ Tighter instant s s' := by
  cases he with
  | @moved call p hr hm hp =>
    have ht : Tighter instant s s' := .of_row hr
    refine ⟨fun other => ?_, ht⟩
    rw [hm]
    by_cases heq : other = call
    · subst heq
      rw [Function.update_self]
      exact (hp (h other)).tighter ht
    · rw [Function.update_of_ne heq]
      exact (h other).tighter ht
  | @tightened call at' ts old now hp hl hr hm =>
    obtain ⟨ht, hat, hen⟩ := tighter_of_tightened h hp hl hr
    refine ⟨fun other => ?_, ht⟩
    rw [hm]
    by_cases heq : other = call
    · subst heq
      rw [Function.update_self]
      exact .inr ⟨at', hat, hen.le⟩
    · rw [Function.update_of_ne heq]
      exact (h other).tighter ht
  | tombstoned hr hm =>
    have ht : Tighter instant s s' := by
      constructor
      · intro c
        rw [EndState.endAt, EndState.endAt, EndState.storedEnd, EndState.storedEnd, hr]
        cases s.row with
        | none => exact le_rfl
        | some row => exact le_rfl
      · intro _
        rw [EndState.live, hr]
        cases s.row with
        | none => rfl
        | some row => rfl
    refine ⟨fun other => ?_, ht⟩
    rw [hm]
    exact (h other).tighter ht

/-- **A run keeps the invariant**, and no marker moves later. -/
theorem EndInv.steps (h : EndInv instant calls s) (hst : EndSteps instant calls s s') :
    EndInv instant calls s' ∧ Tighter instant s s' := by
  induction hst with
  | refl => exact ⟨h, .of_row rfl⟩
  | tail _ hs ih =>
    obtain ⟨a, hs⟩ := hs
    obtain ⟨hi, ht⟩ := ih.1.step (endStep_effect hs)
    exact ⟨hi, ih.2.trans ht⟩

/-- The invariant holds at the start. -/
theorem EndState.Initial.inv (h : s.Initial) : EndInv instant calls s := by
  intro call
  rw [h call]
  trivial

/-- A call that finds the row changed leaves it, and reads again or reports the race. -/
theorem endStep_of_race {at' : ℤ} {ts : ℕ} {ps : Option String} {now : String}
    (hp : s.phase call = .updating at' ts ps)
    (hr : ∀ row, s.live = some row → row.ends (calls call).column ≠ ps)
    (h : endStep instant calls s (.call call none now) = some s') :
    s'.row = s.row ∧ (s'.phase call = .reading at' (ts + 1)
      ∨ s'.phase call = .done (.error (malformed
        "Memory end marker changed during update; retry against current state"))) := by
  have hn : updateEnd s.live (calls call) ps now = none := by
    unfold updateEnd
    split
    · rename_i row hl
      exact if_neg (hr row hl)
    · rfl
  simp only [endStep, tightenStep, hp, hn] at h
  cases h
  have hm : (s.goto call (afterRace at' ts)).phase call = afterRace at' ts :=
    Function.update_self ..
  refine ⟨rfl, ?_⟩
  rw [hm]
  unfold afterRace
  split
  · exact .inl rfl
  · exact .inr rfl

/-- A stored text is replaced only by that of an earlier instant. -/
theorem EndInv.earlier_of_ne {a : EndAction n} {c : EndColumn}
    (hi : EndInv instant calls s) (h : endStep instant calls s a = some s')
    (hne : s'.storedEnd c ≠ s.storedEnd c) :
    ∃ raw at', s'.storedEnd c = some raw ∧ instant raw = some at'
      ∧ ∀ text ∈ s.storedEnd c, ∃ l, instant text = some l ∧ at' < l := by
  cases endStep_effect h with
  | moved hr _ _ =>
    rw [EndState.storedEnd, EndState.storedEnd, hr] at hne
    exact absurd rfl hne
  | tombstoned hr _ =>
    rw [EndState.storedEnd, EndState.storedEnd, hr, Option.bind_map] at hne
    exact absurd rfl hne
  | @tightened call at' ts old now hp hl hr _ =>
    have hs : s'.storedEnd c
        = Function.update old.ends (calls call).column (some (calls call).raw) c := by
      rw [EndState.storedEnd, hr]
      rfl
    have hb : s.storedEnd c = old.ends c := by
      rw [EndState.storedEnd, live_eq_some hl]
      rfl
    rw [hs, hb] at hne
    by_cases heq : c = (calls call).column
    · subst heq
      have hh := hi call
      rw [hp] at hh
      rw [hs, hb, Function.update_self]
      exact ⟨_, at', rfl, hh.1, hh.2⟩
    · rw [Function.update_of_ne heq] at hne
      exact absurd rfl hne

/-- **End markers only move earlier.**  In every interleaving of any calls: an end never moves
later; from when a call has returned success on a live row, its end is at or before the instant
that was asked for; a call that loses a race reads again or reports it; and no text is replaced
but by that of an earlier instant. -/
theorem end_markers_only_move_earlier {start : EndState n} (hinitial : start.Initial)
    (hsteps : EndSteps instant calls start s) (hlater : EndSteps instant calls s s') :
    (∀ column, s'.endAt instant column ≤ s.endAt instant column)
    ∧ (∀ call result, s.phase call = .done (.ok result) → (result = true ∨ s.live ≠ none) →
        ∃ at' : ℤ, instant (calls call).raw = some at' ∧ s'.endAt instant (calls call).column ≤ at')
    ∧ (∀ call at' tries previous now s'', s.phase call = .updating at' tries previous →
        (∀ row, s.live = some row → row.ends (calls call).column ≠ previous) →
        endStep instant calls s (.call call none now) = some s'' →
        s''.row = s.row ∧ (s''.phase call = .reading at' (tries + 1)
          ∨ s''.phase call = .done (.error (malformed
            "Memory end marker changed during update; retry against current state"))))
    ∧ ∀ action s'' column, endStep instant calls s action = some s'' →
        s''.storedEnd column ≠ s.storedEnd column →
        ∃ raw at', s''.storedEnd column = some raw ∧ instant raw = some at'
          ∧ ∀ text ∈ s.storedEnd column, ∃ later, instant text = some later ∧ at' < later := by
  have hi : EndInv instant calls s := (hinitial.inv.steps hsteps).1
  obtain ⟨-, ht⟩ := hi.steps hlater
  refine ⟨ht.endAt, ?_, ?_, ?_⟩
  · intro call result hp hl
    have hh := hi call
    rw [hp] at hh
    rcases hh with ⟨hf, hd⟩ | ⟨at', hat, hle⟩
    · rcases hl with htr | ha
      · rw [hf] at htr
        cases htr
      · exact absurd hd ha
    · exact ⟨at', hat, (ht.endAt _).trans hle⟩
  · intro call at' tries previous now s'' hp hr h
    exact endStep_of_race hp hr h
  · intro action s'' column h hne
    exact hi.earlier_of_ne h hne

theorem endSteps_of_foldlM {as : List (EndAction n)}
    (h : as.foldlM (endStep instant calls) s = some s') : EndSteps instant calls s s' := by
  induction as generalizing s with
  | nil =>
    cases h
    exact .refl
  | cons a as ih =>
    rw [List.foldlM_cons] at h
    obtain ⟨s₁, hs, hr⟩ := Option.bind_eq_some_iff.mp h
    exact .head ⟨a, hs⟩ (ih hr)

end

/-- A live row with no ends and two calls, for the second and for the first of two days. -/
def sampleEndState : EndState 2 := ⟨some ⟨fun _ => none, none, ""⟩, fun _ => .start⟩

def sampleEndCalls : Fin 2 → TightenEnd
  | 0 => ⟨"2026-01-02T00:00:00Z", .validTo⟩
  | 1 => ⟨"2026-01-01T00:00:00Z", .validTo⟩

/-- Both calls read, the second one updates, and the first one loses the race and reads again. -/
theorem end_markers_only_move_earlier_sample : ∃ s : EndState 2,
    s.storedEnd .validTo = some "2026-01-01T00:00:00Z"
      ∧ s.endAt sampleInstant .validTo ≤ sampleEndState.endAt sampleInstant .validTo := by
  have hr : (([0, 1, 0, 1, 1, 0, 0].map fun call => EndAction.call call none "").foldlM
      (endStep sampleInstant sampleEndCalls) sampleEndState).map (·.storedEnd .validTo)
        = some (some "2026-01-01T00:00:00Z") := by decide +kernel
  obtain ⟨s, hs, hst⟩ := Option.map_eq_some_iff.mp hr
  have hs := endSteps_of_foldlM hs
  exact ⟨s, hst, (end_markers_only_move_earlier (fun _ => rfl) .refl hs).1 .validTo⟩

end MemoryTemporal
