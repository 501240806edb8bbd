/-
# The audit lane (`src/core/audit_lane.rs`)

Producers put audit events into a bounded queue and fall back to a direct insert when the queue
is full or closed.  One consumer drains the queue in batches into a sink that may fail; it works
outside the lock and books what it drained when the drain ends.

A step is one locked section, one call of the sink or of a direct insert, so that every
interleaving of any number of producers with the consumer is a list of actions.
-/
import EideticEngine.MachineInt
import Mathlib

namespace AuditLane

/-! ## Data -/

/-- `AuditLanePhase`. -/
inductive AuditLanePhase where
  | enqueue
  | drain
  | batchCommit
  | shutdown
  | backpressure
  deriving DecidableEq, Repr

/-- `AuditEvent`. -/
structure AuditEvent where
  auditId : String
  workspaceId : String
  actor : Option String
  requestId : Option String
  auditSeq : ℕ
  action : String
  targetType : Option String
  targetId : Option String
  details : Option String
  deriving DecidableEq, Repr

/-- `AuditLaneConfig`. -/
structure AuditLaneConfig where
  capacity : ℕ
  batchSize : ℕ
  shutdownEventLimit : ℕ
  deriving DecidableEq, Repr

/-- `AuditLaneConfig::normalized`. -/
def AuditLaneConfig.normalized (config : AuditLaneConfig) : AuditLaneConfig :=
  { config with
    capacity := max config.capacity 1
    batchSize := max config.batchSize 1 }

/-- `AuditEnqueueResult`. -/
inductive AuditEnqueueResult where
  | enqueued (auditSeq pendingEvents : ℕ)
  | backpressure (code : String) (event : AuditEvent) (capacity pendingEvents : ℕ)
  | closed (event : AuditEvent)
  deriving DecidableEq, Repr

/-- `AuditLaneDrainReport`. -/
structure AuditLaneDrainReport where
  phase : AuditLanePhase
  drainedEvents : ℕ
  batches : ℕ
  failedEvents : ℕ
  failedBatches : ℕ
  pendingEvents : ℕ
  degradedCodes : List String
  deriving DecidableEq, Repr

/-- `AuditLaneDrainError`. -/
structure AuditLaneDrainError (S : Type) where
  report : AuditLaneDrainReport
  source : S
  undelivered : List AuditEvent
  deriving DecidableEq, Repr

/-- `AuditEmissionPath`. -/
inductive AuditEmissionPath where
  | enqueued
  | directDisabled
  | directFallback
  deriving DecidableEq, Repr

/-- `AuditEmissionReport`. -/
structure AuditEmissionReport where
  auditSeq : ℕ
  path : AuditEmissionPath
  pendingEvents : ℕ
  degradedCodes : List String
  deriving DecidableEq, Repr

/-! ## The locked sections -/

/-- `AuditLaneState`. -/
structure AuditLaneState where
  queue : List AuditEvent
  accepted : ℕ
  drained : ℕ
  failed : ℕ
  deriving DecidableEq, Repr

/-- `AuditLaneState::pending`. -/
def AuditLaneState.pending (state : AuditLaneState) : ℕ :=
  state.accepted - state.drained - state.failed

/-- `AuditLaneShared`. -/
structure AuditLaneShared where
  state : AuditLaneState
  closed : Bool
  deriving DecidableEq, Repr

/-- `AuditLaneHandle::enqueue`. -/
def AuditLaneShared.enqueue (capacity : ℕ) (shared : AuditLaneShared) (event : AuditEvent) :
    AuditLaneShared × AuditEnqueueResult :=
  if shared.closed then (shared, .closed event)
  else if capacity ≤ shared.state.queue.length then
    (shared, .backpressure "audit_backpressure" event capacity shared.state.pending)
  else
    let state :=
      { shared.state with
        queue := shared.state.queue ++ [event]
        accepted := wrappingAdd64 shared.state.accepted 1 }
    ({ shared with state := state }, .enqueued event.auditSeq state.pending)

/-- `finish_drain_report`. -/
def AuditLaneShared.finishDrainReport (shared : AuditLaneShared) (phase : AuditLanePhase)
    (drainedEvents batches failedEvents failedBatches : ℕ) :
    AuditLaneShared × AuditLaneDrainReport :=
  let state :=
    { shared.state with
      drained := wrappingAdd64 shared.state.drained drainedEvents
      failed := wrappingAdd64 shared.state.failed failedEvents }
  ({ shared with state := state },
    { phase := phase
      drainedEvents := drainedEvents
      batches := batches
      failedEvents := failedEvents
      failedBatches := failedBatches
      pendingEvents := state.pending
      degradedCodes :=
        (if 0 < failedBatches then ["audit_lane_batch_commit_failed"] else [])
          ++ (if phase = .shutdown ∧ 0 < state.pending then
            ["audit_lane_shutdown_drain_timeout"] else []) })

/-! ## Emissions in progress -/

/-- A call of `emit_with_direct_fallback` past its first locked section: before the direct
insert, or before it reads the pending count of a closed lane. -/
inductive Emission where
  | directDisabled (event : AuditEvent)
  | backpressure (code : String) (event : AuditEvent) (pendingEvents : ℕ)
  | closed (event : AuditEvent)
  | readPending (auditSeq : ℕ)
  deriving DecidableEq, Repr

/-- The event that is still to be inserted directly. -/
def Emission.awaiting : Emission → Option AuditEvent
  | .directDisabled event | .backpressure _ event _ | .closed event => some event
  | .readPending _ => none

/-! ## The consumer -/

/-- The variables of `drain_with_limit`. -/
structure DrainState where
  phase : AuditLanePhase
  maxEvents : Option ℕ
  batch : List AuditEvent
  receivedEvents : ℕ
  drainedEvents : ℕ
  batches : ℕ
  deriving DecidableEq, Repr

/-- Where the consumer is: outside a drain, at the head of the loop, inside the sink with a full
batch or with the rest after the loop, or before `finish_drain_report`. -/
inductive Consumer (S : Type) where
  | idle
  | receiving (drain : DrainState)
  | sinking (drain : DrainState) (rest : Bool)
  | finishing (drain : DrainState) (failure : Option S)
  deriving DecidableEq, Repr

/-- The batch has been taken by the sink. -/
def DrainState.sunk (drain : DrainState) : DrainState :=
  { drain with
    batch := []
    drainedEvents := satAdd64 drain.drainedEvents drain.batch.length
    batches := satAdd64 drain.batches 1 }

/-! ## The world -/

/-- The lane, the calls in progress and what has happened so far. -/
structure World (S D : Type) where
  shared : AuditLaneShared
  inFlight : List Emission
  consumer : Consumer S
  /-- The events emitted, in the order of their calls. -/
  emitted : List AuditEvent
  /-- The events accepted into the queue, in order. -/
  accepted : List AuditEvent
  /-- The events passed to a direct insert. -/
  direct : List AuditEvent
  /-- What the emissions returned. -/
  emissions : List (Except D AuditEmissionReport)
  /-- The batches given to the sink, in time order. -/
  batches : List (List AuditEvent)
  /-- The batches that the sink refused. -/
  refused : List (List AuditEvent)
  /-- What the drains returned. -/
  drains : List (Except (AuditLaneDrainError S) AuditLaneDrainReport)

variable {S D : Type}

/-- `AuditLane::new`. -/
def World.new : World S D where
  shared := ⟨⟨[], 0, 0, 0⟩, false⟩
  inFlight := []
  consumer := .idle
  emitted := []
  accepted := []
  direct := []
  emissions := []
  batches := []
  refused := []
  drains := []

/-- One step of a producer or of the consumer; results of the direct insert and of the sink are
part of the action. -/
inductive Action (S D : Type) where
  /-- A call of `emit_with_direct_fallback`, up to the end of `enqueue`. -/
  | emit (throughLane : Bool) (event : AuditEvent)
  /-- The direct insert of an emission. -/
  | directInsert (index : ℕ) (result : Except D Unit)
  /-- `pending_events` at the end of an emission. -/
  | readPending (index : ℕ)
  /-- A call of `try_drain_available`. -/
  | beginDrain
  /-- A call of `try_shutdown_drain`, up to the store of `closed`. -/
  | beginShutdown
  /-- One turn of the loop. -/
  | receive
  /-- The sink returns. -/
  | sinkReturns (result : Except S Unit)
  /-- `finish_drain_report` and the return. -/
  | finish

/-- A call of `emit_with_direct_fallback`. -/
def World.emit (config : AuditLaneConfig) (w : World S D) (throughLane : Bool)
    (event : AuditEvent) : World S D :=
  let w := { w with emitted := w.emitted ++ [event] }
  if !throughLane then { w with inFlight := w.inFlight ++ [Emission.directDisabled event] }
  else
    let (shared, result) := w.shared.enqueue config.capacity event
    let w := { w with shared := shared }
    match result with
    | .enqueued auditSeq pendingEvents =>
      { w with
        accepted := w.accepted ++ [event]
        emissions := w.emissions ++ [Except.ok ⟨auditSeq, .enqueued, pendingEvents, []⟩] }
    | .backpressure code event _ pendingEvents =>
      { w with inFlight := w.inFlight ++ [Emission.backpressure code event pendingEvents] }
    | .closed event => { w with inFlight := w.inFlight ++ [Emission.closed event] }

/-- What an emission does after its direct insert. -/
def World.afterInsert (w : World S D) (emission : Emission) : World S D :=
  match emission with
  | .directDisabled event =>
    { w with emissions := w.emissions ++ [Except.ok ⟨event.auditSeq, .directDisabled, 0, []⟩] }
  | .backpressure code event pendingEvents =>
    { w with
      emissions := w.emissions
        ++ [Except.ok ⟨event.auditSeq, .directFallback, pendingEvents, [code]⟩] }
  | .closed event => { w with inFlight := w.inFlight ++ [Emission.readPending event.auditSeq] }
  | .readPending _ => w

/-- The direct insert of an emission. -/
def World.directInsert (w : World S D) (index : ℕ) (result : Except D Unit) :
    Option (World S D) := do
  let emission ← w.inFlight[index]?
  let event ← emission.awaiting
  let w := { w with inFlight := w.inFlight.eraseIdx index, direct := w.direct ++ [event] }
  match result with
  | .error e => return { w with emissions := w.emissions ++ [Except.error e] }
  | .ok _ => return w.afterInsert emission

/-- The last locked section of an emission that found the lane closed. -/
def World.readPending (w : World S D) (index : ℕ) : Option (World S D) :=
  match w.inFlight[index]? with
  | some (.readPending auditSeq) =>
    some { w with
      inFlight := w.inFlight.eraseIdx index
      emissions := w.emissions
        ++ [Except.ok ⟨auditSeq, .directFallback, w.shared.state.pending, []⟩] }
  | _ => none

/-- The batch is given to the sink. -/
def World.callSink (w : World S D) (drain : DrainState) (rest : Bool) : World S D :=
  { w with batches := w.batches ++ [drain.batch], consumer := .sinking drain rest }

/-- What follows the loop: the rest goes to the sink, if there is any. -/
def World.leaveLoop (w : World S D) (drain : DrainState) : World S D :=
  if drain.batch = [] then { w with consumer := .finishing drain none }
  else w.callSink drain true

/-- One turn of the loop. -/
def World.receive (config : AuditLaneConfig) (w : World S D) (drain : DrainState) : World S D :=
  if drain.maxEvents.any fun limit => decide (limit ≤ drain.receivedEvents) then w.leaveLoop drain
  else
    match w.shared.state.queue with
    | [] => w.leaveLoop drain
    | event :: queue =>
      let w :=
        { w with shared := { w.shared with state := { w.shared.state with queue := queue } } }
      let drain :=
        { drain with
          receivedEvents := satAdd64 drain.receivedEvents 1
          batch := drain.batch ++ [event] }
      if drain.batch.length = config.batchSize then w.callSink drain false
      else { w with consumer := .receiving drain }

/-- The sink returns. -/
def World.sinkReturns (w : World S D) (drain : DrainState) (rest : Bool)
    (result : Except S Unit) : World S D :=
  match result with
  | .error source =>
    { w with
      refused := w.refused ++ w.batches.getLast?.toList
      consumer := .finishing drain (some source) }
  | .ok _ =>
    if rest then { w with consumer := .finishing drain.sunk none }
    else { w with consumer := .receiving drain.sunk }

/-- `finish_drain_report` and the return of the drain. -/
def World.finish (w : World S D) (drain : DrainState) (failure : Option S) : World S D :=
  match failure with
  | some source =>
    let (shared, report) := w.shared.finishDrainReport drain.phase drain.drainedEvents
      drain.batches drain.batch.length 1
    { w with
      shared := shared
      consumer := .idle
      drains := w.drains ++ [.error ⟨report, source, drain.batch⟩] }
  | none =>
    let (shared, report) := w.shared.finishDrainReport drain.phase drain.drainedEvents
      drain.batches 0 0
    { w with shared := shared, consumer := .idle, drains := w.drains ++ [.ok report] }

/-- One step; `none` when the action is not the next one of anybody. -/
def World.step (config : AuditLaneConfig) (w : World S D) : Action S D → Option (World S D)
  | .emit throughLane event => some (w.emit config throughLane event)
  | .directInsert index result => w.directInsert index result
  | .readPending index => w.readPending index
  | .beginDrain =>
    match w.consumer with
    | .idle => some { w with consumer := .receiving ⟨.drain, none, [], 0, 0, 0⟩ }
    | _ => none
  | .beginShutdown =>
    match w.consumer with
    | .idle =>
      some { w with
        shared := { w.shared with closed := true }
        consumer := .receiving ⟨.shutdown, some config.shutdownEventLimit, [], 0, 0, 0⟩ }
    | _ => none
  | .receive =>
    match w.consumer with
    | .receiving drain => some (w.receive config drain)
    | _ => none
  | .sinkReturns result =>
    match w.consumer with
    | .sinking drain rest => some (w.sinkReturns drain rest result)
    | _ => none
  | .finish =>
    match w.consumer with
    | .finishing drain failure => some (w.finish drain failure)
    | _ => none

/-- A run of the lane. -/
def World.run (config : AuditLaneConfig) (w : World S D) (actions : List (Action S D)) :
    Option (World S D) :=
  actions.foldlM (World.step config) w

/-! ## The books of the lane -/

/-- The events that the consumer has taken and not given to the sink yet. -/
def Consumer.inHand : Consumer S → List AuditEvent
  | .receiving drain => drain.batch
  | _ => []

/-- The events that the drain in progress has taken. -/
def Consumer.received : Consumer S → ℕ
  | .idle => 0
  | .receiving drain | .sinking drain _ | .finishing drain _ => drain.receivedEvents

/-- The refused batch that the drain is about to return. -/
def Consumer.returning : Consumer S → List (List AuditEvent)
  | .finishing drain (some _) => [drain.batch]
  | _ => []

/-- The batch that a failed drain returned. -/
def undelivered (result : Except (AuditLaneDrainError S) AuditLaneDrainReport) :
    Option (List AuditEvent) :=
  match result with
  | .error error => some error.undelivered
  | .ok _ => none

theorem filterMap_undelivered_ok (ds : List (Except (AuditLaneDrainError S)
    AuditLaneDrainReport)) (report : AuditLaneDrainReport) :
    (ds ++ [Except.ok report]).filterMap undelivered = ds.filterMap undelivered := by
  rw [List.filterMap_append]
  exact List.append_nil _

theorem filterMap_undelivered_error (ds : List (Except (AuditLaneDrainError S)
    AuditLaneDrainReport)) (error : AuditLaneDrainError S) :
    (ds ++ [Except.error error]).filterMap undelivered
      = ds.filterMap undelivered ++ [error.undelivered] := by
  rw [List.filterMap_append]
  rfl

/-- The counts of a drain agree with its batch, and the batch is what the sink has. -/
def Consumer.Sound (config : AuditLaneConfig) (batches : List (List AuditEvent)) :
    Consumer S → Prop
  | .idle => True
  | .receiving drain =>
    drain.receivedEvents = drain.drainedEvents + drain.batch.length ∧
      drain.batch.length < config.batchSize
  | .sinking drain _ =>
    drain.receivedEvents = drain.drainedEvents + drain.batch.length ∧
      batches.getLast? = some drain.batch
  | .finishing drain none =>
    drain.receivedEvents = drain.drainedEvents + drain.batch.length ∧ drain.batch = []
  | .finishing drain (some _) =>
    drain.receivedEvents = drain.drainedEvents + drain.batch.length

/-- Nothing is lost, repeated or miscounted, where the consumer has `hand` in hand, has taken
`received` events in its drain and is about to return `returning`. -/
structure Ledger (config : AuditLaneConfig) (w : World S D) (hand : List AuditEvent)
    (received : ℕ) (returning : List (List AuditEvent)) : Prop where
  /-- Every emitted event was accepted, was passed to a direct insert, or is about to be. -/
  fate : w.emitted.Perm (w.accepted ++ w.direct ++ w.inFlight.filterMap Emission.awaiting)
  /-- The batches given to the sink are the accepted events in their order. -/
  delivered : w.batches.flatten ++ hand ++ w.shared.state.queue = w.accepted
  /-- No batch is empty or too long. -/
  sized : ∀ batch ∈ w.batches, batch ≠ [] ∧ batch.length ≤ config.batchSize
  /-- A failing drain returns the batch that the sink refused. -/
  returned : w.drains.filterMap undelivered ++ returning = w.refused
  /-- The accepted events are counted. -/
  counted : w.shared.state.accepted = w.accepted.length
  /-- They are drained, failed, queued or in a drain. -/
  balance : w.shared.state.accepted = w.shared.state.drained + w.shared.state.failed
    + w.shared.state.queue.length + received
  /-- The queue keeps its capacity. -/
  bounded : w.shared.state.queue.length ≤ config.capacity

/-- The books of the lane. -/
structure Books (config : AuditLaneConfig) (w : World S D) : Prop where
  ledger : Ledger config w w.consumer.inHand w.consumer.received w.consumer.returning
  /-- The drain in progress is counted right. -/
  sound : w.consumer.Sound config w.batches

theorem books_new {config : AuditLaneConfig} : Books config (World.new : World S D) where
  ledger :=
    { fate := List.Perm.refl _
      delivered := rfl
      sized := by simp [World.new]
      returned := rfl
      counted := rfl
      balance := rfl
      bounded := Nat.zero_le _ }
  sound := trivial

section Steps

variable {config : AuditLaneConfig} {w w' : World S D} {hand : List AuditEvent} {received : ℕ}
  {returning : List (List AuditEvent)}

/-- Accepted events were emitted, so there are fewer than counters can hold. -/
theorem Ledger.accepted_le (h : Ledger config w hand received returning) :
    w.accepted.length ≤ w.emitted.length := by
  rw [h.fate.length_eq, List.length_append, List.length_append]
  omega

/-! ## Producers -/

/-- What the first locked section of an emission can do. -/
theorem World.emit_cases (config : AuditLaneConfig) (w : World S D) (tl : Bool)
    (event : AuditEvent) :
    (∃ em, em.awaiting = some event ∧ w.emit config tl event = { w with
            emitted := w.emitted ++ [event]
            inFlight := w.inFlight ++ [em] }) ∨
    (w.shared.closed = false ∧ w.shared.state.queue.length < config.capacity ∧ ∃ report,
      w.emit config tl event = { w with
            emitted := w.emitted ++ [event]
            accepted := w.accepted ++ [event]
            emissions := w.emissions ++ [.ok report]
            shared := { w.shared with
                state := { w.shared.state with
                    queue := w.shared.state.queue ++ [event]
                    accepted := wrappingAdd64 w.shared.state.accepted 1 } } }) := by
  cases tl with
  | false => exact Or.inl ⟨.directDisabled event, rfl, rfl⟩
  | true =>
    cases hc : w.shared.closed with
    | true =>
      refine Or.inl ⟨.closed event, rfl, ?_⟩
      simp [World.emit, AuditLaneShared.enqueue, hc]
    | false =>
      by_cases hf : config.capacity ≤ w.shared.state.queue.length
      · refine Or.inl ⟨.backpressure "audit_backpressure" event w.shared.state.pending, rfl, ?_⟩
        simp [World.emit, AuditLaneShared.enqueue, hc, hf]
      · refine Or.inr ⟨rfl, not_le.mp hf, ?_⟩
        refine ⟨⟨event.auditSeq, .enqueued, AuditLaneState.pending { w.shared.state with
            queue := w.shared.state.queue ++ [event]
            accepted := wrappingAdd64 w.shared.state.accepted 1 }, []⟩, ?_⟩
        simp [World.emit, AuditLaneShared.enqueue, hc, hf]

/-- An emission keeps the books. -/
theorem Ledger.emit (h : Ledger config w hand received returning) (tl : Bool)
    (event : AuditEvent) (hf : (w.emit config tl event).emitted.length < 2 ^ 64) :
    Ledger config (w.emit config tl event) hand received returning := by
  have hle := h.accepted_le
  rcases w.emit_cases config tl event with
    ⟨em, ha, heq⟩ | ⟨-, hr, report, heq⟩
  · rw [heq]
    refine { h with fate := ?_ }
    have ho : [em].filterMap Emission.awaiting = [event] := by simp [ha]
    simp only [List.filterMap_append, ho]
    rw [← List.append_assoc]
    exact h.fate.append_right [event]
  · rw [heq] at hf ⊢
    simp only [List.length_append, List.length_singleton] at hf
    have hc : wrappingAdd64 w.shared.state.accepted 1 = w.shared.state.accepted + 1 := by
      apply wrappingAdd64_of_lt
      rw [h.counted]
      omega
    refine { h with fate := ?_, delivered := ?_, counted := ?_, balance := ?_, bounded := ?_ }
    · refine (h.fate.append_right [event]).trans ?_
      simp only [List.append_assoc]
      refine List.Perm.append_left _ ?_
      rw [← List.append_assoc]
      exact List.perm_append_comm
    · simp only
      rw [← h.delivered, List.append_assoc, List.append_assoc, List.append_assoc]
    · simp only [List.length_append, List.length_singleton]
      rw [hc, h.counted]
    · have := h.balance
      simp only [hc, List.length_append, List.length_singleton]
      omega
    · simp only [List.length_append, List.length_singleton]
      omega

/-- What the direct insert of an emission can do. -/
theorem World.directInsert_cases {w w' : World S D} {index : ℕ} {r : Except D Unit}
    (h : w.directInsert index r = some w') :
    ∃ em event es re, w.inFlight[index]? = some em ∧
      em.awaiting = some event ∧ re.filterMap Emission.awaiting = [] ∧
      w' = { w with
        inFlight := w.inFlight.eraseIdx index ++ re
        direct := w.direct ++ [event]
        emissions := es } := by
  unfold World.directInsert at h
  rw [Option.bind_eq_bind, Option.bind_eq_some_iff] at h
  obtain ⟨em, he, h⟩ := h
  rw [Option.bind_eq_bind, Option.bind_eq_some_iff] at h
  obtain ⟨event, hev, h⟩ := h
  cases r with
  | error e =>
    cases h
    exact ⟨em, event, _, [], he, hev, rfl, by rw [List.append_nil]⟩
  | ok _ =>
    cases h
    cases em with
    | directDisabled e' =>
      exact ⟨_, event, _, [], he, hev, rfl, by rw [List.append_nil]; rfl⟩
    | backpressure code e' pes =>
      exact ⟨_, event, _, [], he, hev, rfl, by rw [List.append_nil]; rfl⟩
    | closed e' => exact ⟨_, event, _, [Emission.readPending e'.auditSeq], he, hev,
        rfl, rfl⟩
    | readPending as => cases hev

/-- Taking one emission out of those in progress. -/
theorem filterMap_eraseIdx_perm {inFlight : List Emission} {index : ℕ} {em : Emission}
    (h : inFlight[index]? = some em) :
    (inFlight.filterMap Emission.awaiting).Perm
      (em.awaiting.toList ++ (inFlight.eraseIdx index).filterMap Emission.awaiting) := by
  obtain ⟨hlt, rfl⟩ := List.getElem?_eq_some_iff.mp h
  have hp := (List.getElem_cons_eraseIdx_perm hlt).symm.filterMap Emission.awaiting
  refine hp.trans ?_
  rw [List.filterMap_cons]
  cases inFlight[index].awaiting <;> exact List.Perm.refl _

/-- A direct insertion keeps the books. -/
theorem Ledger.directInsert (h : Ledger config w hand received returning) {index : ℕ}
    {r : Except D Unit} (hs : w.directInsert index r = some w') :
    Ledger config w' hand received returning := by
  obtain ⟨em, event, es, re, he, hev, hr, rfl⟩ := World.directInsert_cases hs
  refine { h with fate := ?_ }
  have hp := filterMap_eraseIdx_perm he
  rw [hev] at hp
  refine h.fate.trans ((hp.append_left _).trans ?_)
  simp only [List.filterMap_append, hr, List.append_nil, Option.toList_some, List.append_assoc]
  exact List.Perm.refl _

/-- Reading the pending events keeps the books. -/
theorem Ledger.readPending (h : Ledger config w hand received returning) {index : ℕ}
    (hs : w.readPending index = some w') : Ledger config w' hand received returning := by
  unfold World.readPending at hs
  split at hs
  · rename_i as he
    cases hs
    refine { h with fate := ?_ }
    exact h.fate.trans ((filterMap_eraseIdx_perm he).append_left _)
  · cases hs

/-! ## The consumer -/

/-- The batch in hand goes to the sink. -/
theorem Ledger.callSink {d : DrainState} (h : Ledger config w d.batch received returning)
    (r : Bool) (hne : d.batch ≠ []) (hs : d.batch.length ≤ config.batchSize) :
    Ledger config (w.callSink d r) [] received returning := by
  refine { h with delivered := ?_, sized := ?_ }
  · have hd := h.delivered
    simpa [World.callSink] using hd
  · intro b hb
    rcases List.mem_append.mp hb with hb | hb
    · exact h.sized b hb
    · rw [List.mem_singleton.mp hb]
      exact ⟨hne, hs⟩

/-- What follows the loop. -/
theorem Books.leaveLoop {d : DrainState} (h : Ledger config w d.batch d.receivedEvents [])
    (hc : d.receivedEvents = d.drainedEvents + d.batch.length)
    (hs : d.batch.length < config.batchSize) : Books config (w.leaveLoop d) := by
  unfold World.leaveLoop
  split
  · rename_i hn
    rw [hn] at h
    exact ⟨{ h with }, hc, hn⟩
  · rename_i hne
    refine ⟨h.callSink true hne hs.le, hc, ?_⟩
    simp [World.callSink]

/-- The head of the queue comes into the hand. -/
theorem Ledger.take {event : AuditEvent} {qu : List AuditEvent}
    (h : Ledger config w hand received returning)
    (hq : w.shared.state.queue = event :: qu) :
    Ledger config
      { w with shared := { w.shared with state := { w.shared.state with queue := qu } } }
      (hand ++ [event]) (received + 1) returning := by
  have hd := h.delivered
  have hb := h.balance
  have hbo := h.bounded
  rw [hq] at hd hb hbo
  rw [List.length_cons] at hb hbo
  refine { h with delivered := ?_, balance := ?_, bounded := ?_ }
  · simpa using hd
  · simp only
    omega
  · simp only
    omega

/-- **One turn of the loop** keeps the books. -/
theorem Books.receive {d : DrainState} (h : Ledger config w d.batch d.receivedEvents [])
    (hc : d.receivedEvents = d.drainedEvents + d.batch.length)
    (hs : d.batch.length < config.batchSize) (hfe : w.emitted.length < 2 ^ 64) :
    Books config (w.receive config d) := by
  unfold World.receive
  split
  · exact Books.leaveLoop h hc hs
  · cases hq : w.shared.state.queue with
    | nil => exact Books.leaveLoop h hc hs
    | cons event qu =>
      have ht := h.take hq
      have ho : satAdd64 d.receivedEvents 1 = d.receivedEvents + 1 := by
        apply satAdd64_of_lt
        have hle := h.accepted_le
        have hb := ht.balance
        have hco := h.counted
        simp only at hb
        omega
      simp only [ho]
      have hc' : d.receivedEvents + 1 = d.drainedEvents + (d.batch ++ [event]).length := by
        rw [List.length_append, List.length_singleton]
        omega
      split
      · rename_i hf
        refine ⟨Ledger.callSink ht false (by simp) hf.le, hc', ?_⟩
        simp [World.callSink]
      · rename_i hp
        refine ⟨{ ht with }, hc', ?_⟩
        simp only [List.length_append, List.length_singleton] at hp ⊢
        omega

/-- **The sink returns**: the batch counts as drained, or it is returned. -/
theorem Books.sinkReturns {d : DrainState} (re : Bool) (r : Except S Unit)
    (h : Ledger config w [] d.receivedEvents [])
    (hc : d.receivedEvents = d.drainedEvents + d.batch.length)
    (hl : w.batches.getLast? = some d.batch) (hp : 0 < config.batchSize)
    (hf : w.emitted.length < 2 ^ 64) : Books config (w.sinkReturns d re r) := by
  unfold World.sinkReturns
  cases r with
  | error s =>
    refine ⟨{ h with returned := ?_ }, hc⟩
    have hr := h.returned
    rw [List.append_nil] at hr
    simp only [Consumer.returning, hr, hl]
    rfl
  | ok _ =>
    have ha : satAdd64 d.drainedEvents d.batch.length = d.drainedEvents + d.batch.length := by
      apply satAdd64_of_lt
      have hle := h.accepted_le
      have hb := h.balance
      have hco := h.counted
      omega
    have hc' : d.sunk.receivedEvents = d.sunk.drainedEvents + d.sunk.batch.length := by
      simp only [DrainState.sunk, ha, List.length_nil]
      exact hc
    simp only
    split
    · exact ⟨{ h with }, hc', rfl⟩
    · exact ⟨{ h with }, hc', hp⟩

/-- **The drain books what it took** and ends. -/
theorem Books.finish {d : DrainState} (f : Option S)
    (h : Ledger config w [] d.receivedEvents (Consumer.finishing d f).returning)
    (hs : (Consumer.finishing d f).Sound config w.batches)
    (hf : w.emitted.length < 2 ^ 64) : Books config (w.finish d f) := by
  have hle := h.accepted_le
  have hb := h.balance
  have hco := h.counted
  unfold World.finish AuditLaneShared.finishDrainReport
  cases f with
  | none =>
    obtain ⟨hc, hn⟩ := hs
    rw [hn, List.length_nil] at hc
    refine ⟨{ h with returned := ?_, balance := ?_ }, trivial⟩
    · simp only [filterMap_undelivered_ok]
      exact h.returned
    · simp only [Consumer.received]
      rw [wrappingAdd64_of_lt (by omega), wrappingAdd64_of_lt (by omega)]
      omega
  | some s =>
    refine ⟨{ h with returned := ?_, balance := ?_ }, trivial⟩
    · simp only [filterMap_undelivered_error, Consumer.returning, List.append_nil]
      exact h.returned
    · have hc : d.receivedEvents = d.drainedEvents + d.batch.length := hs
      simp only [Consumer.received]
      rw [wrappingAdd64_of_lt (by omega), wrappingAdd64_of_lt (by omega)]
      omega

/-- The events that an action emits. -/
def Action.emits : Action S D → List AuditEvent
  | .emit _ event => [event]
  | _ => []

theorem World.receive_frame (d : DrainState) : (w.receive config d).emitted = w.emitted ∧
      (w.receive config d).accepted = w.accepted ∧
      (w.receive config d).shared.closed = w.shared.closed := by
  unfold World.receive World.leaveLoop World.callSink
  split
  · split <;> exact ⟨rfl, rfl, rfl⟩
  · split
    · split <;> exact ⟨rfl, rfl, rfl⟩
    · simp only
      split <;> exact ⟨rfl, rfl, rfl⟩

theorem World.sinkReturns_frame (d : DrainState) (re : Bool) (r : Except S Unit) :
    (w.sinkReturns d re r).emitted = w.emitted ∧ (w.sinkReturns d re r).accepted = w.accepted ∧
      (w.sinkReturns d re r).shared.closed = w.shared.closed := by
  unfold World.sinkReturns
  split
  · exact ⟨rfl, rfl, rfl⟩
  · split <;> exact ⟨rfl, rfl, rfl⟩

theorem World.finish_frame (d : DrainState) (f : Option S) : (w.finish d f).emitted = w.emitted ∧
      (w.finish d f).accepted = w.accepted ∧
      (w.finish d f).shared.closed = w.shared.closed := by
  unfold World.finish
  cases f <;> exact ⟨rfl, rfl, rfl⟩

/-- What every step does to the emitted events and to a closed lane. -/
theorem World.step_frame {a : Action S D} (hs : w.step config a = some w') :
    w'.emitted = w.emitted ++ a.emits ∧
      (w.shared.closed = true → w'.shared.closed = true ∧ w'.accepted = w.accepted) := by
  cases a with
  | emit tl event =>
    cases hs
    rcases w.emit_cases config tl event with ⟨_, _, heq⟩ | ⟨ho, _, _, heq⟩
    · rw [heq]
      exact ⟨rfl, fun hc => ⟨hc, rfl⟩⟩
    · rw [heq]
      refine ⟨rfl, fun hc => ?_⟩
      rw [ho] at hc
      cases hc
  | directInsert index r =>
    obtain ⟨_, _, _, _, _, _, _, rfl⟩ := World.directInsert_cases hs
    exact ⟨(List.append_nil _).symm, fun hc => ⟨hc, rfl⟩⟩
  | readPending index =>
    simp only [World.step, World.readPending] at hs
    split at hs
    · cases hs
      exact ⟨(List.append_nil _).symm, fun hc => ⟨hc, rfl⟩⟩
    · cases hs
  | beginDrain =>
    simp only [World.step] at hs
    split at hs
    · cases hs
      exact ⟨(List.append_nil _).symm, fun hc => ⟨hc, rfl⟩⟩
    · cases hs
  | beginShutdown =>
    simp only [World.step] at hs
    split at hs
    · cases hs
      exact ⟨(List.append_nil _).symm, fun _ => ⟨rfl, rfl⟩⟩
    · cases hs
  | receive =>
    simp only [World.step] at hs
    split at hs
    · rename_i d _
      cases hs
      obtain ⟨he, ha, hc⟩ := @World.receive_frame S D config w d
      rw [he, ha, hc]
      exact ⟨(List.append_nil _).symm, fun h => ⟨h, rfl⟩⟩
    · cases hs
  | sinkReturns r =>
    simp only [World.step] at hs
    split at hs
    · rename_i d re _
      cases hs
      obtain ⟨he, ha, hc⟩ := w.sinkReturns_frame d re r
      rw [he, ha, hc]
      exact ⟨(List.append_nil _).symm, fun h => ⟨h, rfl⟩⟩
    · cases hs
  | finish =>
    simp only [World.step] at hs
    split at hs
    · rename_i d f _
      cases hs
      obtain ⟨he, ha, hc⟩ := w.finish_frame d f
      rw [he, ha, hc]
      exact ⟨(List.append_nil _).symm, fun h => ⟨h, rfl⟩⟩
    · cases hs

/-- **One step keeps the books.** -/
theorem Books.step {a : Action S D} (h : Books config w) (hp : 0 < config.batchSize)
    (hs : w.step config a = some w') (hf : w'.emitted.length < 2 ^ 64) :
    Books config w' := by
  obtain ⟨hl, hso⟩ := h
  have hf' : w.emitted.length < 2 ^ 64 := by
    rw [(World.step_frame hs).1, List.length_append] at hf
    omega
  cases a with
  | emit tl event =>
    cases hs
    have hn := hl.emit tl event hf
    rcases w.emit_cases config tl event with ⟨_, _, heq⟩ | ⟨_, _, _, heq⟩
    · rw [heq] at hn ⊢
      exact ⟨hn, hso⟩
    · rw [heq] at hn ⊢
      exact ⟨hn, hso⟩
  | directInsert index r =>
    have hn := hl.directInsert hs
    obtain ⟨_, _, _, _, _, _, _, rfl⟩ := World.directInsert_cases hs
    exact ⟨hn, hso⟩
  | readPending index =>
    have hn := hl.readPending hs
    simp only [World.step, World.readPending] at hs
    split at hs
    · cases hs
      exact ⟨hn, hso⟩
    · cases hs
  | beginDrain =>
    simp only [World.step] at hs
    split at hs
    · rename_i hi
      cases hs
      rw [hi] at hl
      exact ⟨{ hl with }, rfl, hp⟩
    · cases hs
  | beginShutdown =>
    simp only [World.step] at hs
    split at hs
    · rename_i hi
      cases hs
      rw [hi] at hl
      exact ⟨{ hl with }, rfl, hp⟩
    · cases hs
  | receive =>
    simp only [World.step] at hs
    split at hs
    · rename_i d hat
      cases hs
      rw [hat] at hl hso
      exact Books.receive hl hso.1 hso.2 hf'
    · cases hs
  | sinkReturns r =>
    simp only [World.step] at hs
    split at hs
    · rename_i d re hat
      cases hs
      rw [hat] at hl hso
      exact Books.sinkReturns re r hl hso.1 hso.2 hp hf'
    · cases hs
  | finish =>
    simp only [World.step] at hs
    split at hs
    · rename_i d f hat
      cases hs
      rw [hat] at hl hso
      exact Books.finish f hl hso hf'
    · cases hs

/-! ## Whole runs -/

/-- What every run does to the emitted events and to a closed lane. -/
theorem World.run_frame (as : List (Action S D)) : ∀ {w w' : World S D}, w.run config as = some w' →
      w.emitted.length ≤ w'.emitted.length ∧
        (w.shared.closed = true → w'.shared.closed = true ∧ w'.accepted = w.accepted) := by
  induction as with
  | nil =>
    intro w w' h
    cases h
    exact ⟨le_rfl, fun hc => ⟨hc, rfl⟩⟩
  | cons a as ih =>
    intro w w' h
    unfold World.run at h
    rw [List.foldlM_cons, Option.bind_eq_bind, Option.bind_eq_some_iff] at h
    obtain ⟨next, hs, hr⟩ := h
    obtain ⟨he, hc⟩ := World.step_frame hs
    obtain ⟨hle, hc'⟩ := ih hr
    rw [he, List.length_append] at hle
    refine ⟨by omega, fun h => ?_⟩
    obtain ⟨hn, ha⟩ := hc h
    obtain ⟨hl, ha'⟩ := hc' hn
    exact ⟨hl, ha'.trans ha⟩

/-- **A run keeps the books**. -/
theorem Books.run (hp : 0 < config.batchSize) (as : List (Action S D)) :
    ∀ {w w' : World S D}, Books config w → w.run config as = some w' →
      w'.emitted.length < 2 ^ 64 → Books config w' := by
  induction as with
  | nil =>
    intro w w' h hr _
    cases hr
    exact h
  | cons a as ih =>
    intro w w' h hr hf
    unfold World.run at hr
    rw [List.foldlM_cons, Option.bind_eq_bind, Option.bind_eq_some_iff] at hr
    obtain ⟨next, hs, hre⟩ := hr
    have hn := (World.run_frame as hre).1
    exact ih (h.step hp hs (by omega)) hre hf

end Steps

/-- **The audit lane loses and repeats nothing.**  After every interleaving of fewer than 2^64
emissions with drains and shutdown drains: every emitted event was accepted, was passed to a
direct insert once, or is about to be; the batches given to the sink are the accepted events in
their order and of the right sizes; a failing drain returned the batch that was refused; the
accepted events are the drained, failed, queued and taken ones, which is what counts as pending;
the queue keeps its capacity; and a closed lane accepts nothing more. -/
theorem lane_loses_and_repeats_nothing {config : AuditLaneConfig} {actions : List (Action S D)}
    {w : World S D} (hrun : (World.new : World S D).run config.normalized actions = some w)
    (hfew : w.emitted.length < 2 ^ 64) :
    w.emitted.Perm (w.accepted ++ w.direct ++ w.inFlight.filterMap Emission.awaiting) ∧
      w.batches.flatten ++ w.consumer.inHand ++ w.shared.state.queue = w.accepted ∧
      (∀ batch ∈ w.batches, batch ≠ [] ∧ batch.length ≤ config.normalized.batchSize) ∧
      w.drains.filterMap undelivered ++ w.consumer.returning = w.refused ∧
      w.shared.state.accepted = w.accepted.length ∧
      w.shared.state.accepted = w.shared.state.drained + w.shared.state.failed
        + w.shared.state.queue.length + w.consumer.received ∧
      w.shared.state.pending = w.shared.state.queue.length + w.consumer.received ∧
      w.shared.state.queue.length ≤ config.normalized.capacity ∧
      (w.shared.closed = true → ∀ later w', w.run config.normalized later = some w' →
        w'.accepted = w.accepted) := by
  have hp : 0 < config.normalized.batchSize := lt_of_lt_of_le Nat.one_pos (le_max_right _ 1)
  have h := (Books.run hp actions books_new hrun hfew).ledger
  refine ⟨h.fate, h.delivered, h.sized, h.returned, h.counted, h.balance, ?_, h.bounded, ?_⟩
  · have hb := h.balance
    unfold AuditLaneState.pending
    omega
  · intro hc later w' hl
    exact ((World.run_frame later hl).2 hc).2

/-- An event of the sample run. -/
def sampleEvent (auditSeq : ℕ) : AuditEvent :=
  ⟨"audit_sample", "wsp_sample", none, none, auditSeq, "memory.create", none, none, none⟩

/-- Two events fit, a third takes the direct way; the sink refuses the first batch; after a
shutdown a fourth event finds the lane closed. -/
def sampleActions : List (Action String String) :=
  [.emit true (sampleEvent 1), .emit true (sampleEvent 2), .emit true (sampleEvent 3), .beginDrain,
    .receive, .directInsert 0 (.ok ()), .sinkReturns (.error "busy"), .finish, .beginShutdown,
    .emit true (sampleEvent 4), .receive, .sinkReturns (.ok ()), .receive, .finish]

theorem sample_lane_run : ∃ w : World String String,
      (World.new : World String String).run (AuditLaneConfig.normalized ⟨2, 1, 8⟩) sampleActions
        = some w ∧
      w.emitted.length < 2 ^ 64 ∧ w.shared.closed = true ∧
      w.refused = [[sampleEvent 1]] ∧ w.direct = [sampleEvent 3] ∧
      w.batches.flatten ++ w.consumer.inHand ++ w.shared.state.queue = w.accepted ∧
      w.shared.state.pending = w.shared.state.queue.length + w.consumer.received := by
  have hru : ∃ w : World String String, (World.new : World String String).run
      (AuditLaneConfig.normalized ⟨2, 1, 8⟩) sampleActions = some w ∧
      w.emitted.length = 4 ∧ w.shared.closed = true ∧ w.refused = [[sampleEvent 1]] ∧
      w.direct = [sampleEvent 3] :=
    ⟨_, rfl, rfl, rfl, rfl, rfl⟩
  obtain ⟨w, hw, hle, hc, hr, hd⟩ := hru
  have hf : w.emitted.length < 2 ^ 64 := by
    rw [hle]
    decide
  have hl := lane_loses_and_repeats_nothing hw hf
  exact ⟨w, hw, hf, hc, hr, hd, hl.2.1, hl.2.2.2.2.2.2.1⟩

end AuditLane
