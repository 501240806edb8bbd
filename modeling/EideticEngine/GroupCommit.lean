/-
# Group commit in the write owner

The write owner receives requests from one channel, collects them into batches within
a row limit and a byte limit, hands each batch to a processor and answers every
request.  Requests that do not fit wait in a carry-over queue.

The channel is known to the owner only through `recv`, `try_recv` and `checkpoint`.
What happens on the other side between two such looks is a `Look`: the requests that
arrived, and whether the context reports a cancellation.  A schedule is a list of
looks; when it is used up the senders are gone.
-/
import EideticEngine.BoundedLoop
import EideticEngine.MachineInt
import EideticEngine.Serde

namespace GroupCommit

open RustText Serde

/-! ## Requests -/

/-- `WriteOperation`. -/
inductive WriteOperation where
  | memoryCreate (workspaceId content level kind : String) (tags : List String)
      (sourceId : Option String) (trustClass : String) (provenanceUri : Option String)
      (observedAtMs : UInt64)
  | linkCreate (workspaceId sourceId targetId relation : String)
  | outcomeRecord (workspaceId memoryId outcomeType : String) (details : Option String)
  | custom (operationType : String) (payload : Json)

/-- `String::len`. -/
def strLen (s : String) : ℕ := (asBytes s).length

/-- `map_or(0, String::len)`. -/
def optLen (s : Option String) : ℕ := (s.map strLen).getD 0

/-- `estimated_payload_bytes`; the text of a custom payload is that of `serde_json`. -/
def WriteOperation.estimatedPayloadBytes (serde : SerdeJson) : WriteOperation → ℕ
  | .memoryCreate workspaceId content level kind tags sourceId trustClass provenanceUri _ =>
    satAdd64 (satAdd64 (satAdd64 (satAdd64 (satAdd64 (satAdd64 (satAdd64 (strLen workspaceId)
      (strLen content)) (strLen level)) (strLen kind)) (tags.map strLen).sum)
      (optLen sourceId)) (strLen trustClass)) (optLen provenanceUri)
  | .linkCreate workspaceId sourceId targetId relation =>
    satAdd64 (satAdd64 (satAdd64 (strLen workspaceId) (strLen sourceId)) (strLen targetId))
      (strLen relation)
  | .outcomeRecord workspaceId memoryId outcomeType details =>
    satAdd64 (satAdd64 (satAdd64 (strLen workspaceId) (strLen memoryId)) (strLen outcomeType))
      (optLen details)
  | .custom operationType payload =>
    satAdd64 (strLen operationType)
      (match serde.toVec payload with
        | .ok bytes => bytes.length
        | .error _ => u64Max / 2)

/-- `WriteRequest`; the sender of the response is named by the number of its channel. -/
structure WriteRequest where
  operation : WriteOperation
  responseTx : ℕ
  arrivedAt : ℕ

/-- `DomainError`, with the variant that the write owner builds; the other variants only
pass through. -/
inductive DomainError (X : Type) where
  | storage (message : String) (repair : Option String)
  | other (error : X)

/-- `WriteResult`, over the report `M` of a committed memory. -/
inductive WriteResult (M X : Type) where
  | success (entityId : Option String)
  | memoryCommitted (memory : M)
  | failed (error : DomainError X)
  | shutdown

/-- `write_group_commit_cancelled_error`. -/
def writeGroupCommitCancelledError {X : Type} : DomainError X :=
  .storage "write group-commit intake cancelled before commit"
    (some "Retry the write after restarting the write owner actor.")

/-! ## The channel -/

/-- What happened since the channel was last looked at. -/
structure Look where
  arrived : List WriteRequest
  cancelled : Bool

/-- `mpsc::RecvError`. -/
inductive RecvError where
  | disconnected
  | cancelled
  | empty

/-- The receiving end: what was received so far, what has arrived and was not received
yet, and what is going to happen. -/
structure Channel where
  received : List WriteRequest
  queue : List WriteRequest
  upcoming : List Look

namespace Channel

/-- The requests that have not been received, in the order of their arrival. -/
def waiting (c : Channel) : List WriteRequest :=
  c.queue ++ c.upcoming.flatMap Look.arrived

/-- Let the next thing happen; says whether the context is then cancelled. -/
def look (c : Channel) : Bool × Channel :=
  match c.upcoming with
  | [] => (false, c)
  | l :: rest => (l.cancelled, { c with queue := c.queue ++ l.arrived, upcoming := rest })

/-- Hand out the oldest request, if there is one. -/
def take (c : Channel) : Option (WriteRequest × Channel) :=
  match c.queue with
  | [] => none
  | r :: queue => some (r, { c with received := c.received ++ [r], queue })

/-- `try_recv`. -/
def tryRecv (c : Channel) : Except RecvError WriteRequest × Channel :=
  match c.look with
  | (true, c) => (.error .cancelled, c)
  | (false, c) =>
    match c.take with
    | some (r, c) => (.ok r, c)
    | none => (.error .empty, c)

/-- `recv` with at most so many looks: wait until there is a request, the context is
cancelled or the senders are gone. -/
def recvWithin : ℕ → Channel → Except RecvError WriteRequest × Channel
  | 0, c =>
    match c.take with
    | some (r, c) => (.ok r, c)
    | none => (.error .disconnected, c)
  | n + 1, c =>
    match c.look with
    | (true, c) => (.error .cancelled, c)
    | (false, c) =>
      match c.take with
      | some (r, c) => (.ok r, c)
      | none => recvWithin n c

/-- `recv`. -/
def recv (c : Channel) : Except RecvError WriteRequest × Channel :=
  recvWithin c.upcoming.length c

end Channel

/-! ## The ordering queue -/

/-- `WriteHotPathQueueEntry`. -/
structure WriteHotPathQueueEntry (T : Type) where
  sequence : ℕ
  payload : T

/-- `WriteHotPathQueue`: a bounded queue and the next sequence number. -/
structure WriteHotPathQueue (T : Type) where
  capacity : ℕ
  queue : List (WriteHotPathQueueEntry T)
  nextSequence : ℕ

namespace WriteHotPathQueue

variable {T : Type}

/-- `WriteHotPathQueue::new`. -/
def new (capacity : ℕ) : WriteHotPathQueue T := ⟨max capacity 1, [], 1⟩

/-- `try_enqueue`: the queue with the payload, and whether it was accepted.  A sequence
number is used up also when the queue is full. -/
def tryEnqueue (q : WriteHotPathQueue T) (payload : T) : WriteHotPathQueue T × Bool :=
  if q.nextSequence + 1 ≤ u64Max then
    if q.queue.length < q.capacity then
      ({ q with
          queue := q.queue ++ [⟨q.nextSequence, payload⟩]
          nextSequence := q.nextSequence + 1 }, true)
    else ({ q with nextSequence := q.nextSequence + 1 }, false)
  else (q, false)

/-- `drain_group_commit`: the oldest rows, at most so many, in the order of their
sequence numbers. -/
def drainGroupCommit (q : WriteHotPathQueue T) (maxRows : ℕ) : List (WriteHotPathQueueEntry T) :=
  (q.queue.take (max maxRows 1)).insertionSort fun a b => a.sequence ≤ b.sequence

/-- Enqueue one after the other; stop at the first that is refused and say which it was. -/
def enqueueAll (q : WriteHotPathQueue T) : List T → WriteHotPathQueue T × Option T
  | [] => (q, none)
  | payload :: rest =>
    match q.tryEnqueue payload with
    | (q, true) => q.enqueueAll rest
    | (q, false) => (q, some payload)

end WriteHotPathQueue

/-- `order_group_commit_requests`. -/
def orderGroupCommitRequests (requests : List WriteRequest) (maxRows : ℕ) : List WriteRequest :=
  if requests.length ≤ 1 then requests
  else
    match (WriteHotPathQueue.new requests.length).enqueueAll requests with
    | (queue, some request) =>
      (queue.drainGroupCommit maxRows).map WriteHotPathQueueEntry.payload ++ [request]
    | (queue, none) => (queue.drainGroupCommit maxRows).map WriteHotPathQueueEntry.payload

/-! ## Configuration and accounting -/

/-- The fields of `WriteHotPathConfig` that the write owner reads; `usize` has 64 bits. -/
structure WriteHotPathConfig where
  enabled : Bool
  groupCommitMaxRows : UInt64
  groupCommitMaxUs : UInt64
  maxInflightBytes : UInt64

/-- The row limit in force. -/
def WriteHotPathConfig.maxBatchRows (config : WriteHotPathConfig) : ℕ :=
  max config.groupCommitMaxRows.toNat 1

/-- The byte limit in force. -/
def WriteHotPathConfig.maxBatchBytes (config : WriteHotPathConfig) : ℕ :=
  max config.maxInflightBytes.toNat 1

/-- `WriteGroupCommitFallbackReason`. -/
inductive FallbackReason where
  | disabled
  | degraded
  | oversized
  | singleWriter
  deriving DecidableEq

/-- `WriteGroupCommitFallbackReasons`. -/
structure FallbackReasons where
  disabled : ℕ
  degraded : ℕ
  oversized : ℕ
  singleWriter : ℕ

/-- `WriteGroupCommitAccumulator`. -/
structure Accumulator where
  enabled : Bool
  batches : ℕ
  batchWrites : ℕ
  writesCoalesced : ℕ
  fsyncCount : ℕ
  fsyncSaved : ℕ
  latenciesUs : List ℕ
  fallbackReasons : FallbackReasons
  generationAdvances : ℕ

/-- `WriteGroupCommitAccumulator::new`. -/
def Accumulator.new (enabled : Bool) : Accumulator :=
  ⟨enabled, 0, 0, 0, 0, 0, [], ⟨0, 0, 0, 0⟩, 0⟩

/-- `record_fallback`. -/
def Accumulator.recordFallback (a : Accumulator) (reason : FallbackReason) (count : ℕ) :
    Accumulator :=
  let reasons := a.fallbackReasons
  match reason with
  | .disabled =>
    { a with fallbackReasons := { reasons with disabled := satAdd64 reasons.disabled count } }
  | .degraded =>
    { a with fallbackReasons := { reasons with degraded := satAdd64 reasons.degraded count } }
  | .oversized =>
    { a with fallbackReasons := { reasons with oversized := satAdd64 reasons.oversized count } }
  | .singleWriter =>
    { a with
      fallbackReasons := { reasons with singleWriter := satAdd64 reasons.singleWriter count } }

/-- `record_commit`. -/
def Accumulator.recordCommit (a : Accumulator) (rowCount latencyUs : ℕ)
    (fallback : Option FallbackReason) (generationAdvanced : Bool) : Accumulator :=
  let a :=
    { a with
      fsyncCount := satAdd64 a.fsyncCount 1
      latenciesUs := a.latenciesUs ++ [latencyUs] }
  let a :=
    if a.enabled then
      let a :=
        { a with
          batches := satAdd64 a.batches 1
          batchWrites := satAdd64 a.batchWrites rowCount }
      if 1 < rowCount then
        { a with
          writesCoalesced := satAdd64 a.writesCoalesced rowCount
          fsyncSaved := satAdd64 a.fsyncSaved (rowCount - 1) }
      else a
    else a
  let a :=
    if generationAdvanced then
      { a with generationAdvances := satAdd64 a.generationAdvances 1 }
    else a
  match fallback with
  | some reason => a.recordFallback reason rowCount
  | none => a

/-! ## The owner -/

/-- A batch being collected, the carry-over queue and the channel. -/
structure Intake where
  channel : Channel
  batch : List WriteRequest
  pending : List WriteRequest
  batchBytes : ℕ

/-- What a processor did with a batch: its answer, the time it took and its own state. -/
structure BatchOutcome (σ M X : Type) where
  outcome : Except (DomainError X) (List (WriteResult M X))
  latencyUs : ℕ
  processor : σ

/-- The write owner at the head of its loop, with what it has done so far: the batches it
handed to the processor and the responses it sent. -/
structure Owner (σ M X : Type) where
  channel : Channel
  pending : List WriteRequest
  processor : σ
  accumulator : Accumulator
  batches : List (List WriteRequest)
  responses : List (WriteRequest × WriteResult M X)

/-- One round of the loop of `fail_available_requests`, on the channel and the requests
taken from it. -/
def availableRound (s : Channel × List WriteRequest) :
    (Channel × List WriteRequest) ⊕ (Channel × List WriteRequest) :=
  match s.1.tryRecv with
  | (.ok r, c) => .inl (c, s.2 ++ [r])
  | (.error _, c) => .inr (c, s.2)

section

variable {σ M X : Type} (serde : SerdeJson) (config : WriteHotPathConfig)
  (process : σ → List WriteOperation → BatchOutcome σ M X)

/-- The size of a request. -/
def WriteRequest.bytes (r : WriteRequest) : ℕ := r.operation.estimatedPayloadBytes serde

/-- The first loop of `drain_group_commit_candidates`, over the carry-over queue; says
whether the function goes on to the channel. -/
def drainPending (i : Intake) : List WriteRequest → Intake × Bool
  | [] => ({ i with pending := [] }, true)
  | r :: rest =>
    if i.batch.length < config.maxBatchRows then
      let batchBytes := satAdd64 i.batchBytes (r.bytes serde)
      if config.maxBatchBytes < batchBytes then ({ i with pending := r :: rest }, false)
      else drainPending { i with batch := i.batch ++ [r], batchBytes } rest
    else ({ i with pending := r :: rest }, true)

/-- The second loop, over the channel, while there are free rows. -/
def drainChannel : ℕ → Intake → Intake
  | 0, i => i
  | free + 1, i =>
    match i.channel.tryRecv with
    | (.error _, channel) => { i with channel }
    | (.ok r, channel) =>
      let batchBytes := satAdd64 i.batchBytes (r.bytes serde)
      if config.maxBatchBytes < batchBytes then { i with channel, pending := i.pending ++ [r] }
      else drainChannel free { i with channel, batch := i.batch ++ [r], batchBytes }

/-- `drain_group_commit_candidates`. -/
def drainGroupCommitCandidates (i : Intake) : Intake :=
  match drainPending serde config i i.pending with
  | (i, false) => i
  | (i, true) => drainChannel serde config (config.maxBatchRows - i.batch.length) i

/-- The fallback reason of a batch that was collected. -/
def singleWriter (i : Intake) : Option FallbackReason :=
  if i.batch.length = 1 then some .singleWriter else none

/-- Collect a batch around its first request; an error is a cancellation during the
dwell time. -/
def gather (i : Intake) : Except Intake (Intake × Option FallbackReason) :=
  if config.enabled = false then .ok (i, some .disabled)
  else if config.maxBatchBytes < i.batchBytes then .ok (i, some .oversized)
  else
    let i := drainGroupCommitCandidates serde config i
    if i.batch.length < config.maxBatchRows ∧ 0 < config.groupCommitMaxUs then
      match i.channel.look with
      | (true, channel) => .error { i with channel }
      | (false, channel) =>
        let i := drainGroupCommitCandidates serde config { i with channel }
        .ok (i, singleWriter i)
    else .ok (i, singleWriter i)

/-- The results of a batch of so many requests, and whether the generation advanced. -/
def batchResults (rows : ℕ) :
    Except (DomainError X) (List (WriteResult M X)) → List (WriteResult M X) × Bool
  | .ok results =>
    if results.length = rows then (results, true)
    else
      (List.replicate rows (.failed (.storage
        ("group-commit callback returned " ++ toString results.length ++ " result(s) for "
          ++ toString rows ++ " write(s)")
        (some "Retry the write through the per-write path."))), false)
  | .error error => (List.replicate rows (.failed error), false)

namespace Owner

/-- The first request of the next batch. -/
def takeFirst (s : Owner σ M X) : Except RecvError WriteRequest × Owner σ M X :=
  match s.pending with
  | first :: pending => (.ok first, { s with pending })
  | [] => (s.channel.recv.1, { s with channel := s.channel.recv.2 })

/-- `fail_request_group`, for requests that are then held no more. -/
def failRequestGroup (s : Owner σ M X) (requests : List WriteRequest) (error : DomainError X) :
    Owner σ M X :=
  { s with
    pending := []
    responses := s.responses ++ requests.map fun r => (r, .failed error) }

/-- `fail_available_requests`. -/
def failAvailableRequests (s : Owner σ M X) (error : DomainError X) : Owner σ M X :=
  match iterate availableRound (s.channel.waiting.length + 1) (s.channel, []) with
  | some (channel, requests) =>
    { s with
      channel
      responses := s.responses ++ requests.map fun r => (r, .failed error) }
  | none => s

/-- Hand the batch to the processor and answer its requests. -/
def commitBatch (s : Owner σ M X) (collected : List WriteRequest)
    (fallback : Option FallbackReason) : Owner σ M X :=
  let batch := orderGroupCommitRequests collected config.maxBatchRows
  let ran := process s.processor (batch.map WriteRequest.operation)
  let (results, generationAdvanced) := batchResults batch.length ran.outcome
  { s with
    processor := ran.processor
    accumulator :=
      s.accumulator.recordCommit batch.length ran.latencyUs fallback generationAdvanced
    batches := s.batches ++ [batch]
    responses := s.responses ++ batch.zip results }

/-- One round of `run_group_commit`. -/
def round (s : Owner σ M X) :
    Owner σ M X ⊕ (Owner σ M X × Except (DomainError X) Accumulator) :=
  match s.takeFirst with
  | (.error .disconnected, s) => .inr (s, .ok s.accumulator)
  | (.error _, s) =>
    .inr (s.failAvailableRequests writeGroupCommitCancelledError,
      .error writeGroupCommitCancelledError)
  | (.ok first, s) =>
    match s.channel.look with
    | (true, channel) =>
      .inr (({ s with channel }.failRequestGroup (first :: s.pending)
          writeGroupCommitCancelledError).failAvailableRequests writeGroupCommitCancelledError,
        .error writeGroupCommitCancelledError)
    | (false, channel) =>
      match gather serde config ⟨channel, [first], s.pending, first.bytes serde⟩ with
      | .error i =>
        .inr (({ s with channel := i.channel }.failRequestGroup (i.batch ++ i.pending)
            writeGroupCommitCancelledError).failAvailableRequests writeGroupCommitCancelledError,
          .error writeGroupCommitCancelledError)
      | .ok (i, fallback) =>
        .inl ({ s with channel := i.channel, pending := i.pending }.commitBatch config process
          i.batch fallback)

end Owner

/-- `run_group_commit` over a schedule of arrivals, with the processor in a given state;
every round takes a request, so the requests of the schedule bound the rounds. -/
def runGroupCommit (processor : σ) (schedule : List Look) :
    Option (Owner σ M X × Except (DomainError X) Accumulator) :=
  iterate (Owner.round serde config process) ((schedule.flatMap Look.arrived).length + 1)
    ⟨⟨[], [], schedule⟩, [], processor, .new config.enabled, [], []⟩

end

/-! ## Channel laws -/

namespace Channel

/-- Between two states of the channel only requests were received, and `rs` are they. -/
structure Received (c : Channel) (rs : List WriteRequest) (c' : Channel) : Prop where
  log : c'.received = c.received ++ rs
  order : c.waiting = rs ++ c'.waiting
  later : c'.upcoming <:+ c.upcoming

theorem Received.refl (c : Channel) : c.Received [] c := ⟨by simp, rfl, List.suffix_refl _⟩

/-- What two looks at the channel took. -/
theorem Received.trans {c c₁ c₂ : Channel} {rs rs' : List WriteRequest}
    (h : c.Received rs c₁) (h' : c₁.Received rs' c₂) : c.Received (rs ++ rs') c₂ where
  log := by rw [h'.log, h.log, List.append_assoc]
  order := by rw [h.order, h'.order, List.append_assoc]
  later := h'.later.trans h.later

theorem look_received (c : Channel) : c.Received [] c.look.2 := by
  obtain ⟨received, qu, u⟩ := c
  cases u with
  | nil => exact Received.refl _
  | cons l r => exact ⟨by simp [look], by simp [look, waiting], List.suffix_cons l r⟩

/-- The context is cancelled only by what happens. -/
theorem cancelled_of_look {c : Channel} (h : c.look.1 = true) :
    ∃ l ∈ c.upcoming, l.cancelled = true := by
  obtain ⟨received, qu, u⟩ := c
  cases u with
  | nil => cases h
  | cons l r => exact ⟨l, List.mem_cons_self, h⟩

theorem take_received {c c' : Channel} {r : WriteRequest} (h : c.take = some (r, c')) :
    c.Received [r] c' := by
  obtain ⟨received, qu, u⟩ := c
  cases qu with
  | nil => cases h
  | cons r' qu =>
    cases h
    exact ⟨rfl, rfl, List.suffix_refl _⟩

/-- What an attempt to receive hands out. -/
def handedOut : Except RecvError WriteRequest → List WriteRequest
  | .ok r => [r]
  | .error _ => []

theorem tryRecv_received (c : Channel) : c.Received (handedOut c.tryRecv.1) c.tryRecv.2 := by
  have hlo := c.look_received
  unfold tryRecv
  rcases hl : c.look with ⟨cancelled, c₁⟩
  rw [hl] at hlo
  cases cancelled with
  | true => exact hlo
  | false =>
    rcases ht : c₁.take with - | ⟨r, c₂⟩
    · simp only [ht]
      exact hlo
    · simp only [ht]
      exact hlo.trans (take_received ht)

theorem recvWithin_received : ∀ (n : ℕ) (c : Channel),
    c.Received (handedOut (recvWithin n c).1) (recvWithin n c).2 := by
  intro n
  induction n with
  | zero =>
    intro c
    rw [recvWithin]
    rcases ht : c.take with - | ⟨r, c'⟩
    · exact Received.refl c
    · exact take_received ht
  | succ n ih =>
    intro c
    have hlo := c.look_received
    rw [recvWithin]
    rcases hl : c.look with ⟨cancelled, c₁⟩
    rw [hl] at hlo
    cases cancelled with
    | true => exact hlo
    | false =>
      rcases ht : c₁.take with - | ⟨r, c₂⟩
      · simp only [ht]
        exact hlo.trans (ih c₁)
      · simp only [ht]
        exact hlo.trans (take_received ht)

theorem recv_received (c : Channel) : c.Received (handedOut c.recv.1) c.recv.2 :=
  recvWithin_received _ c

/-- A failed `recv` met either the end of the senders or a cancellation. -/
theorem recvWithin_error : ∀ (n : ℕ) (c : Channel) (e : RecvError),
    (recvWithin n c).1 = .error e → e ≠ .disconnected → ∃ l ∈ c.upcoming, l.cancelled = true := by
  intro n
  induction n with
  | zero =>
    intro c e h hne
    rw [recvWithin] at h
    rcases ht : c.take with - | ⟨r, c'⟩
    · simp only [ht] at h
      cases h
      exact absurd rfl hne
    · simp only [ht] at h
      cases h
  | succ n ih =>
    intro c e h hne
    have hla := c.look_received.later
    rw [recvWithin] at h
    rcases hl : c.look with ⟨cancelled, c₁⟩
    rw [hl] at hla
    cases cancelled with
    | true => exact cancelled_of_look (by rw [hl])
    | false =>
      simp only [hl] at h
      rcases ht : c₁.take with - | ⟨r, c₂⟩
      · simp only [ht] at h
        obtain ⟨l, hm, hc⟩ := ih c₁ e h hne
        exact ⟨l, hla.subset hm, hc⟩
      · simp only [ht] at h
        cases h

/-- A channel with nothing on the way whose oldest request is missing is empty. -/
theorem waiting_of_take_eq_none {c : Channel} (hup : c.upcoming = []) (ht : c.take = none) :
    c.waiting = [] := by
  obtain ⟨received, qu, u⟩ := c
  cases qu with
  | nil =>
    subst hup
    rfl
  | cons r qu => cases ht

/-- `recv` reports the senders gone only when every request was received. -/
theorem recvWithin_disconnected : ∀ (n : ℕ) (c : Channel), c.upcoming.length = n →
    (recvWithin n c).1 = .error .disconnected → (recvWithin n c).2.waiting = [] := by
  intro n
  induction n with
  | zero =>
    intro c hn h
    rw [recvWithin] at h ⊢
    rcases ht : c.take with - | ⟨r, c'⟩
    · exact waiting_of_take_eq_none (List.length_eq_zero_iff.mp hn) ht
    · simp only [ht] at h
      cases h
  | succ n ih =>
    intro c hn h
    rw [recvWithin] at h ⊢
    obtain ⟨received, qu, u⟩ := c
    cases u with
    | nil => cases hn
    | cons l re =>
      obtain ⟨a, cancelled⟩ := l
      cases cancelled with
      | true => simp [look] at h
      | false =>
        simp only [look] at h ⊢
        rcases ht : Channel.take ⟨received, qu ++ a, re⟩ with - | ⟨r, c'⟩
        · simp only [ht] at h ⊢
          exact ih _ (by simpa using hn) h
        · simp only [ht] at h
          cases h

theorem recv_disconnected {c : Channel} (h : c.recv.1 = .error .disconnected) :
    c.recv.2.waiting = [] :=
  recvWithin_disconnected _ c rfl h

end Channel

/-! ## The ordering queue keeps the batch -/

namespace WriteHotPathQueue

variable {T : Type}

/-- Payloads under consecutive sequence numbers. -/
def numbered : ℕ → List T → List (WriteHotPathQueueEntry T)
  | _, [] => []
  | n, t :: l => ⟨n, t⟩ :: numbered (n + 1) l

@[simp] theorem length_numbered (l : List T) : ∀ n, (numbered n l).length = l.length := by
  induction l with
  | nil => intro n; rfl
  | cons t l ih => intro n; simp [numbered, ih]

@[simp] theorem payload_numbered (l : List T) :
    ∀ n, (numbered n l).map WriteHotPathQueueEntry.payload = l := by
  induction l with
  | nil => intro n; rfl
  | cons t l ih => intro n; simp [numbered, ih]

theorem le_of_mem_numbered (l : List T) : ∀ n, ∀ en ∈ numbered n l, n ≤ en.sequence := by
  induction l with
  | nil => intro n en h; cases h
  | cons t l ih =>
    intro n en h
    rcases List.mem_cons.mp h with rfl | h
    · exact le_refl n
    · exact (Nat.le_succ n).trans (ih (n + 1) en h)

theorem pairwise_numbered (l : List T) :
    ∀ n, (numbered n l).Pairwise fun a b => a.sequence ≤ b.sequence := by
  induction l with
  | nil => intro n; exact .nil
  | cons t l ih =>
    intro n
    refine .cons ?_ (ih (n + 1))
    intro en h
    exact (Nat.le_succ n).trans (le_of_mem_numbered l (n + 1) en h)

/-- Payloads that find room and sequence numbers are all accepted. -/
theorem enqueueAll_of_room (l : List T) : ∀ q : WriteHotPathQueue T,
    q.queue.length + l.length ≤ q.capacity → q.nextSequence + l.length ≤ u64Max →
      q.enqueueAll l = (⟨q.capacity, q.queue ++ numbered q.nextSequence l,
        q.nextSequence + l.length⟩, none) := by
  induction l with
  | nil =>
    intro q _ _
    simp [enqueueAll, numbered]
  | cons t l ih =>
    intro q hr hs
    simp only [List.length_cons] at hr hs
    rw [enqueueAll, tryEnqueue, if_pos (by omega), if_pos (by omega)]
    simp only
    rw [ih _ (by simp; omega) (by simp; omega)]
    simp [numbered, Nat.add_comm, Nat.add_left_comm]

/-- When a first part is accepted the rest is enqueued after it. -/
theorem enqueueAll_append {l l' : List T} : ∀ {q q' : WriteHotPathQueue T},
    q.enqueueAll l = (q', none) → q.enqueueAll (l ++ l') = q'.enqueueAll l' := by
  induction l with
  | nil =>
    intro q q' h
    cases h
    rfl
  | cons t l ih =>
    intro q q' h
    rw [enqueueAll] at h
    rw [List.cons_append, enqueueAll]
    rcases ht : q.tryEnqueue t with ⟨q₁, a⟩
    rw [ht] at h
    cases a with
    | true => exact ih h
    | false => cases h

/-- A drain that takes everything gives the payloads in the order they came. -/
theorem payload_drainGroupCommit {l : List T} {mrs c n : ℕ} (h : l.length ≤ max mrs 1) :
    (drainGroupCommit ⟨c, numbered 1 l, n⟩ mrs).map WriteHotPathQueueEntry.payload = l := by
  unfold drainGroupCommit
  rw [List.take_of_length_le (by simpa using h),
    List.Pairwise.insertionSort_eq (pairwise_numbered l 1), payload_numbered]

end WriteHotPathQueue

/-- **The ordering queue gives back the batch**, for every batch that fits a `usize`. -/
theorem orderGroupCommitRequests_eq {rs : List WriteRequest} {mrs : ℕ}
    (hr : rs.length ≤ max mrs 1) (hsi : rs.length ≤ u64Max) :
    orderGroupCommitRequests rs mrs = rs := by
  unfold orderGroupCommitRequests
  split
  · rfl
  rename_i hl
  by_cases hs : 1 + rs.length ≤ u64Max
  · rw [WriteHotPathQueue.enqueueAll_of_room rs _
      (by simp [WriteHotPathQueue.new]) (by simpa [WriteHotPathQueue.new] using hs)]
    exact WriteHotPathQueue.payload_drainGroupCommit hr
  · -- the last request of a batch of `usize::MAX` gets no sequence number
    obtain ⟨f, l, rfl⟩ : ∃ f l, rs = f ++ [l] := by
      rcases List.eq_nil_or_concat rs with rfl | ⟨f, l, h⟩
      · simp at hl
      · exact ⟨f, l, by simpa using h⟩
    simp only [List.length_append, List.length_singleton] at hr hsi hs
    have hf := WriteHotPathQueue.enqueueAll_of_room f (WriteHotPathQueue.new (f ++ [l]).length)
      (by simp [WriteHotPathQueue.new]) (by simp only [WriteHotPathQueue.new]; omega)
    rw [WriteHotPathQueue.enqueueAll_append hf]
    rw [WriteHotPathQueue.enqueueAll, WriteHotPathQueue.tryEnqueue,
      if_neg (by simp only [WriteHotPathQueue.new]; omega)]
    simp only [WriteHotPathQueue.new, List.nil_append]
    rw [WriteHotPathQueue.payload_drainGroupCommit (by omega)]

/-- A batch within the row limit of a configuration is such a batch. -/
theorem orderGroupCommitRequests_maxBatchRows {config : WriteHotPathConfig}
    {rs : List WriteRequest} (hr : rs.length ≤ config.maxBatchRows) :
    orderGroupCommitRequests rs config.maxBatchRows = rs := by
  apply orderGroupCommitRequests_eq (by omega)
  have hm : config.groupCommitMaxRows.toNat < 2 ^ 64 := config.groupCommitMaxRows.toNat_lt
  unfold WriteHotPathConfig.maxBatchRows at hr
  unfold u64Max
  omega

/-! ## Collecting a batch -/

section

variable {serde : SerdeJson} {config : WriteHotPathConfig}

/-- The limits that a batch handed to the processor keeps.  Sizes are `usize` values: a
sum beyond the largest of them counts as the largest. -/
structure WithinLimits (serde : SerdeJson) (config : WriteHotPathConfig)
    (batch : List WriteRequest) : Prop where
  rows : batch.length ≤ config.maxBatchRows
  bytes : (∃ r, batch = [r] ∧ config.maxBatchBytes < r.bytes serde) ∨
    min (batch.map (WriteRequest.bytes serde)).sum u64Max ≤ config.maxBatchBytes

/-- A batch in the making: within the rows, its bytes counted and within the limit. -/
structure Intake.Fits (serde : SerdeJson) (config : WriteHotPathConfig) (i : Intake) : Prop where
  rows : i.batch.length ≤ config.maxBatchRows
  counted : i.batchBytes = min (i.batch.map (WriteRequest.bytes serde)).sum u64Max
  bytes : i.batchBytes ≤ config.maxBatchBytes

/-- The batch grew, and batch and carry-over are what they were followed by what was
received. -/
def Intake.Follows (i i' : Intake) : Prop :=
  ∃ rs, i.channel.Received rs i'.channel ∧
    i'.batch ++ i'.pending = i.batch ++ i.pending ++ rs ∧ i.batch <+: i'.batch

theorem Intake.Follows.refl (i : Intake) : i.Follows i :=
  ⟨[], Channel.Received.refl _, by simp, List.prefix_refl _⟩

theorem Intake.Follows.trans {i i₁ i₂ : Intake} (h : i.Follows i₁) (h' : i₁.Follows i₂) :
    i.Follows i₂ := by
  obtain ⟨rs, hr, ho, hb⟩ := h
  obtain ⟨rs', hr', ho', hb'⟩ := h'
  refine ⟨rs ++ rs', hr.trans hr', ?_, hb.trans hb'⟩
  rw [ho', ho, List.append_assoc]

theorem Intake.Follows.look (i : Intake) : i.Follows { i with channel := i.channel.look.2 } :=
  ⟨[], i.channel.look_received, by simp, List.prefix_refl _⟩

/-- A request that leaves the bytes within the limit keeps the batch in the making. -/
theorem Intake.Fits.push {i : Intake} (h : i.Fits serde config) (r : WriteRequest)
    (c : Channel) (pending : List WriteRequest)
    (hr : i.batch.length < config.maxBatchRows)
    (hb : ¬ config.maxBatchBytes < satAdd64 i.batchBytes (r.bytes serde)) :
    Intake.Fits serde config
      ⟨c, i.batch ++ [r], pending, satAdd64 i.batchBytes (r.bytes serde)⟩ where
  rows := by
    rw [List.length_append, List.length_singleton]
    omega
  counted := by
    have hc := h.counted
    simp only [satAdd64, List.map_append, List.sum_append, List.map_cons, List.map_nil,
      List.sum_singleton]
    omega
  bytes := Nat.not_lt.mp hb

/-- What the loop over the carry-over queue does. -/
theorem drainPending_spec : ∀ (pending : List WriteRequest) (i : Intake), i.Fits serde config →
      (drainPending serde config i pending).1.Fits serde config ∧
      { i with pending }.Follows (drainPending serde config i pending).1 ∧
      ((drainPending serde config i pending).2 = true →
        (drainPending serde config i pending).1.pending = [] ∨
          config.maxBatchRows ≤ (drainPending serde config i pending).1.batch.length) := by
  intro pending
  induction pending with
  | nil =>
    intro i h
    exact ⟨⟨h.rows, h.counted, h.bytes⟩, .refl _, fun _ => .inl rfl⟩
  | cons r re ih =>
    intro i h
    rw [drainPending]
    split
    · rename_i hr
      simp only
      split
      · exact ⟨⟨h.rows, h.counted, h.bytes⟩, .refl _, fun hgo => by cases hgo⟩
      · rename_i hb
        obtain ⟨hfi, hf, hgo⟩ := ih _ (h.push r i.channel i.pending hr hb)
        have hp : Intake.Follows { i with pending := r :: re }
            ⟨i.channel, i.batch ++ [r], re, satAdd64 i.batchBytes (r.bytes serde)⟩ :=
          ⟨[], Channel.Received.refl _, by simp, List.prefix_append _ _⟩
        exact ⟨hfi, hp.trans hf, hgo⟩
    · rename_i hr
      exact ⟨⟨h.rows, h.counted, h.bytes⟩, .refl _, fun _ => .inr (Nat.not_lt.mp hr)⟩

/-- What the loop over the channel does once the carry-over queue is empty. -/
theorem drainChannel_spec : ∀ (f : ℕ) (i : Intake), i.Fits serde config →
    i.pending = [] → i.batch.length + f ≤ config.maxBatchRows →
      (drainChannel serde config f i).Fits serde config ∧
      i.Follows (drainChannel serde config f i) := by
  intro f
  induction f with
  | zero => intro i h _ _; exact ⟨h, .refl i⟩
  | succ f ih =>
    intro i h hp hfr
    have hr := i.channel.tryRecv_received
    rw [drainChannel]
    rcases ht : i.channel.tryRecv with ⟨attempt, c⟩
    rw [ht] at hr
    cases attempt with
    | error e =>
      exact ⟨⟨h.rows, h.counted, h.bytes⟩, ⟨[], hr, by simp, List.prefix_refl _⟩⟩
    | ok r =>
      simp only
      split
      · exact ⟨⟨h.rows, h.counted, h.bytes⟩, ⟨[r], hr, by simp, List.prefix_refl _⟩⟩
      · rename_i hb
        obtain ⟨hfi, hf⟩ := ih _ (h.push r c i.pending (by omega) hb) hp
          (by simp only [List.length_append, List.length_singleton]; omega)
        have hpu : i.Follows
            ⟨c, i.batch ++ [r], i.pending, satAdd64 i.batchBytes (r.bytes serde)⟩ :=
          ⟨[r], hr, by simp [hp], List.prefix_append _ _⟩
        exact ⟨hfi, hpu.trans hf⟩

/-- **One spec for `drain_group_commit_candidates`.** -/
theorem drainGroupCommitCandidates_spec {i : Intake} (h : i.Fits serde config) :
    (drainGroupCommitCandidates serde config i).Fits serde config ∧
      i.Follows (drainGroupCommitCandidates serde config i) := by
  obtain ⟨hfi, hf, hgo⟩ := drainPending_spec i.pending i h
  unfold drainGroupCommitCandidates
  rcases hd : drainPending serde config i i.pending with ⟨i₁, gon⟩
  rw [hd] at hfi hf hgo
  cases gon with
  | false => exact ⟨hfi, hf⟩
  | true =>
    replace hgo := hgo rfl
    simp only at hgo hfi hf ⊢
    have hr := hfi.rows
    rcases hgo with hp | hfu
    · obtain ⟨hfi₂, hf₂⟩ := drainChannel_spec (config.maxBatchRows - i₁.batch.length) i₁
        hfi hp (by omega)
      exact ⟨hfi₂, hf.trans hf₂⟩
    · rw [show config.maxBatchRows - i₁.batch.length = 0 from by omega]
      exact ⟨hfi, hf⟩

theorem Intake.Fits.withinLimits {i : Intake} (h : i.Fits serde config) :
    WithinLimits serde config i.batch :=
  ⟨h.rows, .inr (h.counted ▸ h.bytes)⟩

theorem maxBatchRows_pos : 0 < config.maxBatchRows := by
  unfold WriteHotPathConfig.maxBatchRows
  omega

/-- A batch of one request is within the limits. -/
theorem withinLimits_single (r : WriteRequest) : WithinLimits serde config [r] := by
  refine ⟨maxBatchRows_pos, ?_⟩
  by_cases h : config.maxBatchBytes < r.bytes serde
  · exact .inl ⟨r, rfl, h⟩
  · right
    simp only [List.map_cons, List.map_nil, List.sum_singleton]
    omega

theorem satAdd64_le (a b : ℕ) : satAdd64 a b ≤ u64Max := Nat.min_le_right _ _

/-- A size is a `usize` value. -/
theorem bytes_le (serde : SerdeJson) (r : WriteRequest) : r.bytes serde ≤ u64Max := by
  unfold WriteRequest.bytes WriteOperation.estimatedPayloadBytes
  split <;> exact satAdd64_le _ _

/-- A first request within the byte limit starts a batch. -/
theorem fits_first (c : Channel) (first : WriteRequest) (pending : List WriteRequest)
    (h : ¬ config.maxBatchBytes < first.bytes serde) :
    Intake.Fits serde config ⟨c, [first], pending, first.bytes serde⟩ := by
  refine ⟨maxBatchRows_pos, ?_, Nat.not_lt.mp h⟩
  have hle := bytes_le serde first
  simp only [List.map_cons, List.map_nil, List.sum_singleton]
  omega

/-- What the collection of a batch around a first request may end with: batch and
carry-over are what was held and received, and a batch that is ready is within the limits. -/
def Intake.Gathered (serde : SerdeJson) (config : WriteHotPathConfig) (i : Intake) :
    Except Intake (Intake × Option FallbackReason) → Prop
  | .error i' => i.Follows i' ∧ ∃ l ∈ i.channel.upcoming, l.cancelled = true
  | .ok (i', _) => i.Follows i' ∧ WithinLimits serde config i'.batch

/-- **One spec for the collection of a batch.** -/
theorem gather_spec (serde : SerdeJson) (config : WriteHotPathConfig) (ch : Channel)
    (first : WriteRequest) (pending : List WriteRequest) :
    Intake.Gathered serde config ⟨ch, [first], pending, first.bytes serde⟩
      (gather serde config ⟨ch, [first], pending, first.bytes serde⟩) := by
  unfold gather
  split
  · exact ⟨.refl _, withinLimits_single first⟩
  split
  · exact ⟨.refl _, withinLimits_single first⟩
  rename_i hb
  obtain ⟨hfi, hf⟩ := drainGroupCommitCandidates_spec (fits_first ch first pending hb)
  simp only
  generalize drainGroupCommitCandidates serde config _ = i at hfi hf
  split
  · have hlo := Intake.Follows.look i
    rcases hl : i.channel.look with ⟨cancelled, c'⟩
    rw [hl] at hlo
    cases cancelled with
    | true =>
      obtain ⟨l, hm, hc⟩ := Channel.cancelled_of_look (c := i.channel) (by rw [hl])
      have he := hf.trans hlo
      obtain ⟨rs, hr, -, -⟩ := hf
      exact ⟨he, l, hr.later.subset hm, hc⟩
    | false =>
      obtain ⟨hfi₂, hf₂⟩ := drainGroupCommitCandidates_spec
        (i := { i with channel := c' }) ⟨hfi.rows, hfi.counted, hfi.bytes⟩
      exact ⟨(hf.trans hlo).trans hf₂, hfi₂.withinLimits⟩
  · exact ⟨hf, hfi.withinLimits⟩

end

/-! ## The run -/

theorem availableRound_inl {c : Channel} {rs : List WriteRequest}
    {s' : Channel × List WriteRequest} (h : availableRound (c, rs) = .inl s') :
    ∃ r, s'.2 = rs ++ [r] ∧ c.Received [r] s'.1 := by
  have hr := c.tryRecv_received
  unfold availableRound at h
  rcases ht : c.tryRecv with ⟨attempt, c₁⟩
  rw [ht] at hr
  simp only [ht] at h
  cases attempt with
  | ok r =>
    cases h
    exact ⟨r, rfl, hr⟩
  | error e => cases h

theorem availableRound_inr {c : Channel} {rs : List WriteRequest}
    {s' : Channel × List WriteRequest} (h : availableRound (c, rs) = .inr s') :
    s'.2 = rs ∧ c.Received [] s'.1 := by
  have hr := c.tryRecv_received
  unfold availableRound at h
  rcases ht : c.tryRecv with ⟨attempt, c₁⟩
  rw [ht] at hr
  simp only [ht] at h
  cases attempt with
  | ok r => cases h
  | error e =>
    cases h
    exact ⟨rfl, hr⟩

/-- The loop of `fail_available_requests`. -/
def availableLoop : Loop (Channel × List WriteRequest) (Channel × List WriteRequest) where
  step := availableRound
  Inv _ := True
  measure s := s.1.waiting.length
  inv_step _ _ _ _ := trivial
  measure_step := by
    rintro ⟨c, rs⟩ s' - h
    obtain ⟨r, -, hrec⟩ := availableRound_inl h
    rw [hrec.order]
    simp

section

variable {σ M X : Type} {serde : SerdeJson} {config : WriteHotPathConfig}
  {process : σ → List WriteOperation → BatchOutcome σ M X} {schedule : List Look}

/-- What `fail_available_requests` does: it receives some more and refuses them. -/
theorem Owner.failAvailableRequests_spec (s : Owner σ M X) (error : DomainError X) :
    ∃ rs, s.channel.Received rs (s.failAvailableRequests error).channel ∧
      (s.failAvailableRequests error).responses
        = s.responses ++ rs.map (fun r => (r, WriteResult.failed error)) ∧
      (s.failAvailableRequests error).batches = s.batches := by
  have hru := availableLoop.iterate_eq_run (s := (s.channel, [])) trivial
  have hre : s.channel.Received (availableLoop.run (s.channel, []) trivial).2
      (availableLoop.run (s.channel, []) trivial).1 := by
    refine availableLoop.run_induction
      (P := fun t => s.channel.Received t.2 t.1) (Q := fun t => s.channel.Received t.2 t.1)
      ?_ ?_ (s.channel, []) trivial (Channel.Received.refl _)
    · rintro ⟨c, rs⟩ s' - hP hs
      obtain ⟨r, hrs, hr⟩ := availableRound_inl hs
      rw [hrs]
      exact hP.trans hr
    · rintro ⟨c, rs⟩ s' - hP hs
      obtain ⟨hrs, hr⟩ := availableRound_inr hs
      rw [hrs]
      simpa using hP.trans hr
  replace hru : iterate availableRound (s.channel.waiting.length + 1) (s.channel, [])
      = some (availableLoop.run (s.channel, []) trivial) := hru
  have hf : s.failAvailableRequests error = { s with
      channel := (availableLoop.run (s.channel, []) trivial).1
      responses := s.responses
        ++ (availableLoop.run (s.channel, []) trivial).2.map fun r => (r, .failed error) } := by
    unfold failAvailableRequests
    rw [hru]
  rw [hf]
  exact ⟨_, hre, rfl, rfl⟩

/-- **The owner holding some requests.**  What was received is what went to the
processor, followed by the requests held; what went to the processor is answered.  At the
head of the loop the requests held are the carry-over queue. -/
structure Owner.Holding (serde : SerdeJson) (config : WriteHotPathConfig) (schedule : List Look)
    (held : List WriteRequest) (s : Owner σ M X) : Prop where
  received : s.channel.received = s.batches.flatten ++ held
  arrivals : s.channel.received ++ s.channel.waiting = schedule.flatMap Look.arrived
  later : s.channel.upcoming <:+ schedule
  answered : s.responses.map Prod.fst = s.batches.flatten
  limits : ∀ batch ∈ s.batches, WithinLimits serde config batch

/-- The owner when the loop has ended.  Everything received is answered, and all of it
went to the processor unless the context was cancelled. -/
structure Owner.Done (serde : SerdeJson) (config : WriteHotPathConfig) (schedule : List Look)
    (s : Owner σ M X) (outcome : Except (DomainError X) Accumulator) : Prop where
  answered : s.responses.map Prod.fst = s.channel.received
  arrivals : s.channel.received ++ s.channel.waiting = schedule.flatMap Look.arrived
  limits : ∀ batch ∈ s.batches, WithinLimits serde config batch
  order : (outcome = .ok s.accumulator ∧ s.batches.flatten = s.channel.received ∧
      s.channel.waiting = []) ∨
    (outcome = .error writeGroupCommitCancelledError ∧
      s.batches.flatten <+: s.channel.received ∧ ∃ l ∈ schedule, l.cancelled = true)

/-- What is received from the channel is held after what was held before. -/
theorem Owner.Holding.receive {s : Owner σ M X} {held rs : List WriteRequest}
    {channel : Channel} (pending : List WriteRequest)
    (h : s.Holding serde config schedule held) (hrec : s.channel.Received rs channel) :
    Owner.Holding serde config schedule (held ++ rs) { s with channel, pending } where
  received := by
    show channel.received = s.batches.flatten ++ (held ++ rs)
    rw [hrec.log, h.received, List.append_assoc]
  arrivals := by
    show channel.received ++ channel.waiting = _
    rw [hrec.log, List.append_assoc, ← hrec.order, h.arrivals]
  later := hrec.later.trans h.later
  answered := h.answered
  limits := h.limits

/-- Refusing everything that is held and everything that is there ends the run. -/
theorem Owner.Holding.refuse {s : Owner σ M X} {held : List WriteRequest}
    (h : s.Holding serde config schedule held) (hc : ∃ l ∈ schedule, l.cancelled = true) :
    Owner.Done serde config schedule
      ((s.failRequestGroup held writeGroupCommitCancelledError).failAvailableRequests
        writeGroupCommitCancelledError) (.error writeGroupCommitCancelledError) := by
  obtain ⟨rs, hre, hr, hb⟩ :=
    (s.failRequestGroup held writeGroupCommitCancelledError).failAvailableRequests_spec
      writeGroupCommitCancelledError
  generalize (s.failRequestGroup held writeGroupCommitCancelledError).failAvailableRequests
    writeGroupCommitCancelledError = t at hre hr hb ⊢
  have hl := hre.log
  simp only [failRequestGroup] at hl hr hb
  refine ⟨?_, ?_, ?_, .inr ⟨rfl, ?_, hc⟩⟩
  · rw [hr, hl, h.received]
    simp [h.answered, Function.comp_def]
  · rw [hl, List.append_assoc, ← hre.order]
    exact h.arrivals
  · intro b hm
    exact h.limits b (hb ▸ hm)
  · rw [hb, hl, h.received, List.append_assoc]
    exact List.prefix_append _ _

theorem length_batchResults (r : ℕ) (outcome : Except (DomainError X) (List (WriteResult M X))) :
    (batchResults r outcome).1.length = r := by
  cases outcome with
  | error e => exact List.length_replicate
  | ok rs =>
    unfold batchResults
    simp only
    split
    · assumption
    · exact List.length_replicate

/-- Committing a batch within the limits answers it and moves it to the processor. -/
theorem Owner.Holding.commitBatch {s : Owner σ M X} {ba held : List WriteRequest}
    (process : σ → List WriteOperation → BatchOutcome σ M X)
    (h : s.Holding serde config schedule (ba ++ held))
    (hl : WithinLimits serde config ba) (f : Option FallbackReason) :
    (s.commitBatch config process ba f).Holding serde config schedule held ∧
      (s.commitBatch config process ba f).batches = s.batches ++ [ba] := by
  have ho := orderGroupCommitRequests_maxBatchRows hl.rows
  have hb : (s.commitBatch config process ba f).batches = s.batches ++ [ba] := by
    simp only [Owner.commitBatch, ho]
  refine ⟨⟨?_, h.arrivals, h.later, ?_, ?_⟩, hb⟩
  · rw [hb]
    show s.channel.received = _
    rw [h.received]
    simp
  · rw [hb]
    simp only [Owner.commitBatch, ho, List.map_append, h.answered, List.flatten_append,
      List.flatten_singleton]
    rw [List.map_fst_zip (le_of_eq (length_batchResults _ _).symm)]
  · intro b hm
    rw [hb] at hm
    rcases List.mem_append.mp hm with hm | hm
    · exact h.limits b hm
    · rw [List.mem_singleton.mp hm]
      exact hl

/-- What the owner has in hand after it asked for a first request. -/
def Owner.FirstTaken (serde : SerdeJson) (config : WriteHotPathConfig) (schedule : List Look)
    (s : Owner σ M X) : Except RecvError WriteRequest × Owner σ M X → Prop
  | (.ok first, s') => s'.Holding serde config schedule (first :: s'.pending) ∧
      s'.batches = s.batches
  | (.error e, s') => s'.Holding serde config schedule [] ∧ s'.pending = [] ∧
      (e = .disconnected → s'.channel.waiting = []) ∧
      (e ≠ .disconnected → ∃ l ∈ schedule, l.cancelled = true)

theorem Owner.takeFirst_spec {s : Owner σ M X} (h : s.Holding serde config schedule s.pending) :
    s.FirstTaken serde config schedule s.takeFirst := by
  unfold takeFirst
  rcases hp : s.pending with - | ⟨first, pending⟩
  · rw [hp] at h
    have hholding := h.receive [] s.channel.recv_received
    simp only
    rcases hr : s.channel.recv.1 with e | first
    · rw [hr] at hholding
      refine ⟨⟨hholding.received, hholding.arrivals, hholding.later, hholding.answered,
        hholding.limits⟩, rfl, ?_, ?_⟩
      · rintro rfl
        exact Channel.recv_disconnected hr
      · intro hne
        obtain ⟨l, hmem, hc⟩ := Channel.recvWithin_error _ s.channel e hr hne
        exact ⟨l, h.later.subset hmem, hc⟩
    · rw [hr] at hholding
      exact ⟨⟨hholding.received, hholding.arrivals, hholding.later, hholding.answered,
        hholding.limits⟩, rfl⟩
  · rw [hp] at h
    exact ⟨⟨h.received, h.arrivals, h.later, h.answered, h.limits⟩, rfl⟩

/-- What a round ends with: one more batch, or the end of the run. -/
def Owner.RoundDone (serde : SerdeJson) (config : WriteHotPathConfig) (schedule : List Look)
    (s : Owner σ M X) :
    Owner σ M X ⊕ (Owner σ M X × Except (DomainError X) Accumulator) → Prop
  | .inl s' => s'.Holding serde config schedule s'.pending ∧
      s.batches.flatten.length < s'.batches.flatten.length
  | .inr (s', outcome) => s'.Done serde config schedule outcome

/-- A batch that was collected around a first request is not empty. -/
theorem length_pos_of_follows {i i' : Intake} {first : WriteRequest} (hi : i.batch = [first])
    (h : i.Follows i') : 0 < i'.batch.length := by
  obtain ⟨-, -, -, hb⟩ := h
  have hle := hb.length_le
  rw [hi] at hle
  exact hle

/-- A batch that was collected is held like its first request was. -/
theorem Owner.Holding.follows {s : Owner σ M X} {i i' : Intake}
    (h : s.Holding serde config schedule (i.batch ++ i.pending))
    (hchannel : s.channel.Received [] i.channel) (hfollows : i.Follows i')
    (pending : List WriteRequest) :
    Owner.Holding serde config schedule (i'.batch ++ i'.pending)
      { s with channel := i'.channel, pending } := by
  obtain ⟨rs, hrec, horder, -⟩ := hfollows
  rw [horder]
  exact h.receive pending (hchannel.trans hrec)

/-- **One round of `run_group_commit`.** -/
theorem Owner.round_spec {s : Owner σ M X}
    (process : σ → List WriteOperation → BatchOutcome σ M X)
    (h : s.Holding serde config schedule s.pending) :
    s.RoundDone serde config schedule (s.round serde config process) := by
  have hfirst := Owner.takeFirst_spec h
  unfold round
  generalize s.takeFirst = taken at hfirst
  rcases taken with ⟨e | first, s₁⟩
  · obtain ⟨hholding, hpending, hend, hcancel⟩ := hfirst
    have hsame : s₁.failRequestGroup [] writeGroupCommitCancelledError = s₁ := by
      obtain ⟨channel, pending, processor, accumulator, batches, responses⟩ := s₁
      cases hpending
      simp [failRequestGroup]
    have hrefuse := fun hc => hholding.refuse hc
    rw [hsame] at hrefuse
    cases e with
    | disconnected =>
      have hreceived := hholding.received
      rw [List.append_nil] at hreceived
      exact ⟨by rw [hholding.answered, hreceived], hholding.arrivals, hholding.limits,
        .inl ⟨rfl, hreceived.symm, hend rfl⟩⟩
    | cancelled => exact hrefuse (hcancel (by simp))
    | empty => exact hrefuse (hcancel (by simp))
  · obtain ⟨hholding, hbatches⟩ := hfirst
    have hlook := s₁.channel.look_received
    have hcancel := s₁.channel.cancelled_of_look
    simp only
    rcases hl : s₁.channel.look with ⟨cancelled, channel⟩
    rw [hl] at hlook hcancel
    cases cancelled with
    | true =>
      obtain ⟨l, hmem, hc⟩ := hcancel rfl
      have hheld := hholding.receive s₁.pending hlook
      rw [List.append_nil] at hheld
      exact hheld.refuse ⟨l, hholding.later.subset hmem, hc⟩
    | false =>
      have hgather := gather_spec serde config channel first s₁.pending
      simp only
      generalize gather serde config ⟨channel, [first], s₁.pending, first.bytes serde⟩
        = gathered at hgather
      rcases gathered with i | ⟨i, fallback⟩
      · obtain ⟨hfollows, l, hmem, hc⟩ := hgather
        refine (Owner.Holding.follows hholding hlook hfollows s₁.pending).refuse ⟨l, ?_, hc⟩
        exact hholding.later.subset (hlook.later.subset hmem)
      · obtain ⟨hfollows, hlimits⟩ := hgather
        obtain ⟨hnext, hmore⟩ := (Owner.Holding.follows hholding hlook hfollows
          i.pending).commitBatch process hlimits fallback
        refine ⟨hnext, ?_⟩
        have hpos := length_pos_of_follows rfl hfollows
        rw [hmore]
        simp only [hbatches, List.flatten_append, List.flatten_singleton, List.length_append]
        omega

variable (serde config process schedule) in
/-- The loop of `run_group_commit`: every round moves requests to the processor. -/
def ownerLoop : Loop (Owner σ M X) (Owner σ M X × Except (DomainError X) Accumulator) where
  step := Owner.round serde config process
  Inv s := s.Holding serde config schedule s.pending
  measure s := (schedule.flatMap Look.arrived).length - s.batches.flatten.length
  inv_step s s' h hstep := by
    have hround := Owner.round_spec process h
    rw [hstep] at hround
    exact hround.1
  measure_step s s' h hstep := by
    have hround := Owner.round_spec process h
    rw [hstep] at hround
    obtain ⟨hnext, hmore⟩ := hround
    have harrivals := congrArg List.length hnext.arrivals
    rw [hnext.received] at harrivals
    simp only [List.length_append] at harrivals
    omega

theorem Owner.holding_start (p : σ) : Owner.Holding serde config schedule []
      (⟨⟨[], [], schedule⟩, [], p, .new config.enabled, [], []⟩ : Owner σ M X) :=
  ⟨rfl, rfl, List.suffix_refl _, rfl, fun _ h => by cases h⟩

/-- The run ends, in a state where everything received is answered. -/
theorem runGroupCommit_done (serde : SerdeJson) (config : WriteHotPathConfig)
    (process : σ → List WriteOperation → BatchOutcome σ M X) (p : σ)
    (schedule : List Look) :
    ∃ s outcome, runGroupCommit serde config process p schedule = some (s, outcome) ∧
      s.Done serde config schedule outcome := by
  have hst : (ownerLoop serde config process schedule).Inv
      ⟨⟨[], [], schedule⟩, [], p, .new config.enabled, [], []⟩ :=
    Owner.holding_start p
  refine ⟨_, _, (ownerLoop serde config process schedule).iterate_eq_run hst, ?_⟩
  refine (ownerLoop serde config process schedule).run_induction (P := fun _ => True)
    (Q := fun r => r.1.Done serde config schedule r.2) (fun _ _ _ _ _ => trivial) ?_ _ hst
    trivial
  intro s r hs _ hste
  have hr := Owner.round_spec process hs
  rw [show s.round serde config process = .inr r from hste] at hr
  exact hr

/-- **Group commit answers everyone once, in order, within limits.**  For every schedule,
configuration and processor the run ends; the requests answered are those received, each
once and in order; what is received is received in the order of arrival; every batch keeps
the limits; the batches, one after the other, are what was received, up to what a
cancellation refuses; and the ordering queue only permutes a batch. -/
theorem everyone_answered_once (serde : SerdeJson) (config : WriteHotPathConfig)
    (process : σ → List WriteOperation → BatchOutcome σ M X) (processor : σ)
    (schedule : List Look) :
    ∃ s outcome, runGroupCommit serde config process processor schedule = some (s, outcome) ∧
      s.responses.map Prod.fst = s.channel.received ∧
      s.channel.received <+: schedule.flatMap Look.arrived ∧
      (∀ batch ∈ s.batches, WithinLimits serde config batch) ∧
      s.batches.flatten <+: s.channel.received ∧
      ((∀ l ∈ schedule, l.cancelled = false) → s.batches.flatten = s.channel.received ∧
          s.channel.received = schedule.flatMap Look.arrived) ∧
      ∀ requests : List WriteRequest, requests.length ≤ config.maxBatchRows →
        (orderGroupCommitRequests requests config.maxBatchRows).Perm requests := by
  obtain ⟨s, outcome, hru, hd⟩ := runGroupCommit_done serde config process processor schedule
  refine ⟨s, outcome, hru, hd.answered, ?_, hd.limits, ?_, ?_, ?_⟩
  · rw [← hd.arrivals]
    exact List.prefix_append _ _
  · rcases hd.order with ⟨-, ha, -⟩ | ⟨-, hp, -⟩
    · rw [ha]
    · exact hp
  · intro hn
    rcases hd.order with ⟨-, ha, he⟩ | ⟨-, -, l, hm, hc⟩
    · refine ⟨ha, ?_⟩
      rw [← hd.arrivals, he, List.append_nil]
    · rw [hn l hm] at hc
      cases hc
  · intro requests hr
    rw [orderGroupCommitRequests_maxBatchRows hr]

end

/-- A link to be created, of one byte. -/
def sampleRequest (responseTx : ℕ) : WriteRequest :=
  ⟨.linkCreate "" "" "" "a", responseTx, 0⟩

-- three requests come while the owner waits and one while it dwells; two fit a batch
example :
    (runGroupCommit ⟨fun _ => .error "", fun _ => .error ""⟩ ⟨true, 3, 50, 2⟩
      (fun (_ : Unit) operations =>
        (⟨.ok (operations.map fun _ => .success none), 0, ()⟩ : BatchOutcome Unit Unit Empty)) ()
      [⟨[sampleRequest 1, sampleRequest 2, sampleRequest 3], false⟩, ⟨[], false⟩,
        ⟨[sampleRequest 4], false⟩]).map
      (fun r => r.1.batches.map (fun batch => batch.map WriteRequest.responseTx))
      = some [[1, 2], [3, 4]] := by
  decide +kernel

end GroupCommit
