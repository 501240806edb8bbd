/-
# The batched write spool

The spool accepts write intents, queues them, drains them into batches for the write
owner and remembers every write in a record.  After a crash it is rebuilt from its
recovery records.  `pendingBytes` is the byte counter that guards the queue; it is
adjusted when a write is enqueued, drained, cancelled and recovered.
-/
import EideticEngine.MachineInt
import EideticEngine.RustText

namespace Spool

/-! ## Data -/

/-- `WriteSpoolConfig`. -/
structure WriteSpoolConfig where
  maxPending : ℕ
  maxBatchSize : ℕ
  maxPendingBytes : ℕ
  maxQueueAgeMs : ℕ

/-- `effective_batch_size`. -/
def WriteSpoolConfig.effectiveBatchSize (config : WriteSpoolConfig) : ℕ :=
  max config.maxBatchSize 1

/-- `WriteSpoolIntentKind`. -/
inductive WriteSpoolIntentKind where
  | remember
  | outcome
  | importRows
  | recorder
  deriving DecidableEq

/-- `WriteSpoolDurability`. -/
inductive WriteSpoolDurability where
  | batched
  | immediate
  deriving DecidableEq

/-- `WriteSpoolIntent`. -/
structure WriteSpoolIntent where
  idempotencyKey : String
  workspaceId : String
  kind : WriteSpoolIntentKind
  durability : WriteSpoolDurability
  payloadBytes : ℕ
  auditSubject : String

/-- `WriteSpoolBatchKey`. -/
structure WriteSpoolBatchKey where
  workspaceId : String
  kind : WriteSpoolIntentKind
  durability : WriteSpoolDurability
  deriving DecidableEq

/-- `WriteSpoolRecordStatus`. -/
inductive WriteSpoolRecordStatus where
  | pending
  | committed
  | cancelled
  | failed
  deriving DecidableEq

/-- `is_terminal`. -/
def WriteSpoolRecordStatus.isTerminal (status : WriteSpoolRecordStatus) : Bool :=
  status = .committed ∨ status = .cancelled ∨ status = .failed

/-- `WriteSpoolRecord`. -/
structure WriteSpoolRecord where
  requestId : ℕ
  idempotencyKey : String
  workspaceId : String
  kind : WriteSpoolIntentKind
  durability : WriteSpoolDurability
  status : WriteSpoolRecordStatus
  batchId : Option ℕ
  enqueuedAtMs : ℕ
  terminalAtMs : Option ℕ
  payloadBytes : ℕ
  auditSubject : String
  failure : Option String

/-- `from_intent`. -/
def WriteSpoolRecord.fromIntent (requestId : ℕ) (intent : WriteSpoolIntent)
    (enqueuedAtMs : ℕ) : WriteSpoolRecord :=
  { requestId
    idempotencyKey := intent.idempotencyKey
    workspaceId := intent.workspaceId
    kind := intent.kind
    durability := intent.durability
    status := .pending
    batchId := none
    enqueuedAtMs
    terminalAtMs := none
    payloadBytes := intent.payloadBytes
    auditSubject := intent.auditSubject
    failure := none }

/-- `batch_key`. -/
def WriteSpoolRecord.batchKey (r : WriteSpoolRecord) : WriteSpoolBatchKey :=
  ⟨r.workspaceId, r.kind, r.durability⟩

/-- `WriteSpoolTicket`. -/
structure WriteSpoolTicket where
  requestId : ℕ
  idempotencyKey : String
  duplicate : Bool
  status : WriteSpoolRecordStatus

/-- `WriteSpoolBatch`. -/
structure WriteSpoolBatch where
  batchId : ℕ
  workspaceId : String
  kind : WriteSpoolIntentKind
  durability : WriteSpoolDurability
  requestIds : List ℕ
  auditSubjects : List String
  auditRowId : String
  jobRowId : String

/-- `WriteSpoolFailure`. -/
structure WriteSpoolFailure where
  requestId : ℕ
  idempotencyKey : String
  message : String
  failedAtMs : ℕ

/-- `WriteSpoolStats`. -/
structure WriteSpoolStats where
  totalEnqueued : ℕ
  totalCommitted : ℕ
  totalCancelled : ℕ
  totalFailed : ℕ
  totalBatches : ℕ
  lastBatchSize : ℕ
  maxBatchSizeObserved : ℕ
  lastFailure : Option WriteSpoolFailure

/-- `WriteSpoolStats::default`. -/
def WriteSpoolStats.new : WriteSpoolStats := ⟨0, 0, 0, 0, 0, 0, 0, none⟩

/-- `WriteSpool`; the idempotency table is a map from keys to request ids. -/
structure WriteSpool where
  config : WriteSpoolConfig
  nextRequestId : ℕ
  nextBatchId : ℕ
  startedAtMs : ℕ
  pendingOrder : List ℕ
  records : List WriteSpoolRecord
  idempotency : String → Option ℕ
  pendingBytes : ℕ
  stats : WriteSpoolStats

/-! ## Backpressure -/

/-- `WriteSpoolBackpressureReason`. -/
inductive WriteSpoolBackpressureReason where
  | queueDepth
  | pendingBytes
  | queueTimeout
  | identifierExhausted
  deriving DecidableEq

/-- `WriteSpoolBackpressureError`. -/
structure WriteSpoolBackpressureError where
  schema : String
  code : String
  reason : WriteSpoolBackpressureReason
  message : String
  queueDepth : ℕ
  maxPending : ℕ
  pendingBytes : ℕ
  maxPendingBytes : ℕ
  oldestQueuedAgeMs : Option ℕ
  repair : String
  next : String

namespace WriteSpool

/-- `WriteSpool::new`. -/
def new (config : WriteSpoolConfig) (startedAtMs : ℕ) : WriteSpool :=
  ⟨config, 1, 1, startedAtMs, [], [], fun _ => none, 0, .new⟩

/-- `record`. -/
def record (s : WriteSpool) (requestId : ℕ) : Option WriteSpoolRecord :=
  s.records.find? fun r => r.requestId = requestId

/-- `oldest_queued_age_ms`. -/
def oldestQueuedAgeMs (s : WriteSpool) (nowMs : ℕ) : Option ℕ :=
  (s.pendingOrder.head?.bind s.record).map fun r => nowMs - r.enqueuedAtMs

/-- `WriteSpoolBackpressureError::new`, on the status at a time. -/
def backpressure (s : WriteSpool) (reason : WriteSpoolBackpressureReason) (nowMs : ℕ) :
    WriteSpoolBackpressureError :=
  let message :=
    match reason with
    | .queueDepth =>
      "Write spool queue depth " ++ toString s.pendingOrder.length
        ++ " exceeded the configured limit " ++ toString s.config.maxPending ++ "."
    | .pendingBytes =>
      "Write spool has " ++ toString s.pendingBytes
        ++ " pending bytes, exceeding the configured limit " ++ toString s.config.maxPendingBytes
        ++ "."
    | .queueTimeout =>
      "Write spool oldest queued write is " ++ toString ((s.oldestQueuedAgeMs nowMs).getD 0)
        ++ " ms old, exceeding the configured limit " ++ toString s.config.maxQueueAgeMs ++ " ms."
    | .identifierExhausted =>
      "Write spool exhausted its monotonic identifier space; refusing writes before IDs can be "
        ++ "reused."
  { schema := "ee.write_spool.backpressure.v1"
    code := "write_spool_backpressure"
    reason
    message
    queueDepth := s.pendingOrder.length
    maxPending := s.config.maxPending
    pendingBytes := s.pendingBytes
    maxPendingBytes := s.config.maxPendingBytes
    oldestQueuedAgeMs := s.oldestQueuedAgeMs nowMs
    repair := "ee daemon status --json"
    next := "ee support bundle --workspace . --redacted --out <dir> --json" }

/-- `ensure_accepting`. -/
def ensureAccepting (s : WriteSpool) (additionalBytes nowMs : ℕ) :
    Except WriteSpoolBackpressureError Unit :=
  if s.config.maxPending ≤ s.pendingOrder.length then .error (s.backpressure .queueDepth nowMs)
  else if u64Max < s.pendingBytes + additionalBytes then
    .error (s.backpressure .pendingBytes nowMs)
  else if s.config.maxPendingBytes < s.pendingBytes + additionalBytes then
    .error (s.backpressure .pendingBytes nowMs)
  else if (s.oldestQueuedAgeMs nowMs).any fun age => s.config.maxQueueAgeMs < age then
    .error (s.backpressure .queueTimeout nowMs)
  else .ok ()

/-! ## Operations -/

/-- The ticket of a key that was enqueued before, if its record is there. -/
def duplicateTicket (s : WriteSpool) (key : String) : Option WriteSpoolTicket :=
  (s.idempotency key).bind fun requestId =>
    (s.record requestId).map fun r => ⟨requestId, r.idempotencyKey, true, r.status⟩

/-- The part of `enqueue` after the search for a duplicate. -/
def enqueueNew (s : WriteSpool) (intent : WriteSpoolIntent) (nowMs : ℕ) :
    Except WriteSpoolBackpressureError WriteSpoolTicket × WriteSpool :=
  match s.ensureAccepting intent.payloadBytes nowMs with
  | .error e => (.error e, s)
  | .ok () =>
    if u64Max < s.nextRequestId + 1 then (.error (s.backpressure .identifierExhausted nowMs), s)
    else
      let record := WriteSpoolRecord.fromIntent s.nextRequestId intent nowMs
      (.ok ⟨record.requestId, record.idempotencyKey, false, record.status⟩,
        { s with
          nextRequestId := s.nextRequestId + 1
          pendingBytes := satAdd64 s.pendingBytes record.payloadBytes
          pendingOrder := s.pendingOrder ++ [record.requestId]
          idempotency :=
            Function.update s.idempotency record.idempotencyKey (some record.requestId)
          stats := { s.stats with totalEnqueued := satAdd64 s.stats.totalEnqueued 1 }
          records := s.records ++ [record] })

/-- `enqueue`. -/
def enqueue (s : WriteSpool) (intent : WriteSpoolIntent) (nowMs : ℕ) :
    Except WriteSpoolBackpressureError WriteSpoolTicket × WriteSpool :=
  match s.duplicateTicket intent.idempotencyKey with
  | some ticket => (.ok ticket, s)
  | none =>
    -- a key whose record is gone is forgotten, also when the spool then refuses
    enqueueNew { s with idempotency := Function.update s.idempotency intent.idempotencyKey none }
      intent nowMs

/-- The loop at the start of `next_batch`: the first queued id with a record, its record and
the rest of the queue. -/
def popFirst (s : WriteSpool) : List ℕ → Option (ℕ × WriteSpoolRecord × List ℕ)
  | [] => none
  | id :: rest =>
    match s.record id with
    | some r => some (id, r, rest)
    | none => s.popFirst rest

/-- The loop that splits the queue into what joins the batch and what stays. -/
def selectBatch (joins : ℕ → Bool) (limit : ℕ) : List ℕ → List ℕ → List ℕ × List ℕ
  | selected, [] => (selected, [])
  | selected, id :: rest =>
    if selected.length < limit ∧ joins id then selectBatch joins limit (selected ++ [id]) rest
    else
      let (selected, retained) := selectBatch joins limit selected rest
      (selected, id :: retained)

/-- Change the first record with an id, `record_mut`. -/
def updateRecord (requestId : ℕ) (f : WriteSpoolRecord → WriteSpoolRecord) :
    List WriteSpoolRecord → List WriteSpoolRecord
  | [] => []
  | r :: rest =>
    if r.requestId = requestId then f r :: rest else r :: updateRecord requestId f rest

/-- One round of the loop that stamps the records of a batch; beside the spool it collects
the request ids and the audit subjects. -/
def stampRecord (batchId : ℕ) (t : WriteSpool × List ℕ × List String) (requestId : ℕ) :
    WriteSpool × List ℕ × List String :=
  match t.1.record requestId with
  | none => t
  | some r =>
    ({ t.1 with
        records :=
          updateRecord requestId (fun r => { r with batchId := some batchId }) t.1.records
        pendingBytes := t.1.pendingBytes - r.payloadBytes },
      t.2.1 ++ [requestId], t.2.2 ++ [r.auditSubject])

/-- A number with leading zeros up to sixteen digits. -/
def pad16 (n : ℕ) : String :=
  let digits := toString n
  String.ofList (List.replicate (16 - digits.length) '0') ++ digits

/-- `next_batch`. -/
def nextBatch (s : WriteSpool) :
    Except WriteSpoolBackpressureError (Option WriteSpoolBatch) × WriteSpool :=
  if s.nextBatchId = u64Max then
    (.error (s.backpressure .identifierExhausted s.startedAtMs), s)
  else
    match s.popFirst s.pendingOrder with
    | none => (.ok none, { s with pendingOrder := [] })
    | some (firstId, first, rest) =>
      let key := first.batchKey
      let (selected, retained) :=
        if key.durability = .batched then
          selectBatch (fun id => (s.record id).any fun r => r.batchKey = key)
            s.config.effectiveBatchSize [firstId] rest
        else ([firstId], rest)
      let batchId := s.nextBatchId
      let s := { s with pendingOrder := retained, nextBatchId := s.nextBatchId + 1 }
      let (s, requestIds, auditSubjects) :=
        selected.foldl (stampRecord batchId) (s, [], [])
      if requestIds = [] then (.ok none, s)
      else
        (.ok (some
            { batchId
              workspaceId := key.workspaceId
              kind := key.kind
              durability := key.durability
              requestIds
              auditSubjects
              auditRowId := "audit_batch_" ++ pad16 batchId
              jobRowId := "job_batch_" ++ pad16 batchId }),
          { s with
            stats :=
              { s.stats with
                totalBatches := satAdd64 s.stats.totalBatches 1
                lastBatchSize := requestIds.length
                maxBatchSizeObserved := max s.stats.maxBatchSizeObserved requestIds.length } })

/-- The records that a mark of a batch changes. -/
def inBatch (batchId : ℕ) (r : WriteSpoolRecord) : Bool :=
  r.batchId = some batchId ∧ r.status = .pending

/-- `mark_batch_committed`. -/
def markBatchCommitted (s : WriteSpool) (batchId nowMs : ℕ) : ℕ × WriteSpool :=
  let committed := s.records.countP (inBatch batchId)
  (committed,
    { s with
      records := s.records.map fun r =>
        if inBatch batchId r then
          { r with status := .committed, terminalAtMs := some nowMs }
        else r
      stats := { s.stats with totalCommitted := satAdd64 s.stats.totalCommitted committed } })

/-- `mark_batch_failed`. -/
def markBatchFailed (s : WriteSpool) (batchId nowMs : ℕ) (message : String) : ℕ × WriteSpool :=
  let failed := s.records.countP (inBatch batchId)
  let lastFailure := ((s.records.filter (inBatch batchId)).getLast?).map fun r =>
    (⟨r.requestId, r.idempotencyKey, message, nowMs⟩ : WriteSpoolFailure)
  (failed,
    { s with
      records := s.records.map fun r =>
        if inBatch batchId r then
          { r with status := .failed, terminalAtMs := some nowMs, failure := some message }
        else r
      stats :=
        { s.stats with
          totalFailed := satAdd64 s.stats.totalFailed failed
          lastFailure := lastFailure.or s.stats.lastFailure } })

/-- `cancel_pending`. -/
def cancelPending (s : WriteSpool) (requestId nowMs : ℕ) : Bool × WriteSpool :=
  match s.record requestId with
  | none => (false, s)
  | some r =>
    if r.status.isTerminal then (false, s)
    else
      (true,
        { s with
          pendingOrder := s.pendingOrder.filter fun queuedId => queuedId ≠ requestId
          pendingBytes :=
            if r.batchId.isNone then s.pendingBytes - r.payloadBytes else s.pendingBytes
          records := updateRecord requestId
            (fun r => { r with status := .cancelled, terminalAtMs := some nowMs }) s.records
          stats := { s.stats with totalCancelled := satAdd64 s.stats.totalCancelled 1 } })

/-- `recovery_records`. -/
def recoveryRecords (s : WriteSpool) : List WriteSpoolRecord :=
  s.records.insertionSort fun a b => a.requestId ≤ b.requestId

/-- One round of the loop of `from_recovery_records`. -/
def recoverRecord (s : WriteSpool) (r : WriteSpoolRecord) : WriteSpool :=
  let s :=
    { s with
      nextRequestId := max s.nextRequestId (min (r.requestId + 1) u64Max)
      nextBatchId :=
        match r.batchId with
        | some batchId => max s.nextBatchId (min (batchId + 1) u64Max)
        | none => s.nextBatchId
      idempotency := Function.update s.idempotency r.idempotencyKey (some r.requestId)
      stats := { s.stats with totalEnqueued := satAdd64 s.stats.totalEnqueued 1 } }
  match r.status with
  | .pending =>
    { s with
      pendingOrder := s.pendingOrder ++ [r.requestId]
      pendingBytes := satAdd64 s.pendingBytes r.payloadBytes }
  | .committed =>
    { s with stats := { s.stats with totalCommitted := satAdd64 s.stats.totalCommitted 1 } }
  | .cancelled =>
    { s with stats := { s.stats with totalCancelled := satAdd64 s.stats.totalCancelled 1 } }
  | .failed =>
    { s with
      stats :=
        { s.stats with
          totalFailed := satAdd64 s.stats.totalFailed 1
          lastFailure :=
            match r.failure, r.terminalAtMs with
            | some message, some failedAtMs =>
              some ⟨r.requestId, r.idempotencyKey, message, failedAtMs⟩
            | _, _ => s.stats.lastFailure } }

/-- `from_recovery_records`. -/
def fromRecoveryRecords (config : WriteSpoolConfig) (startedAtMs : ℕ)
    (records : List WriteSpoolRecord) : WriteSpool :=
  { records.foldl recoverRecord (new config startedAtMs) with records }

end WriteSpool

/-! ## Runs -/

/-- The spool with the batches that were issued since the last restart, and those of them
that were marked. -/
structure World where
  spool : WriteSpool
  issued : List ℕ
  marked : List ℕ

/-- What happens to a spool. -/
inductive Op where
  | enqueue (intent : WriteSpoolIntent) (nowMs : ℕ)
  | nextBatch
  | markBatchCommitted (batchId nowMs : ℕ)
  | markBatchFailed (batchId nowMs : ℕ) (message : String)
  | cancelPending (requestId nowMs : ℕ)
  | restart (config : WriteSpoolConfig) (startedAtMs : ℕ)

namespace World

/-- One operation; a restart loses everything but the recovery records. -/
def step (w : World) : Op → World
  | .enqueue intent nowMs => { w with spool := (w.spool.enqueue intent nowMs).2 }
  | .nextBatch =>
    match w.spool.nextBatch with
    | (.ok (some batch), spool) => { w with spool, issued := w.issued ++ [batch.batchId] }
    | (_, spool) => { w with spool }
  | .markBatchCommitted batchId nowMs =>
    { w with
      spool := (w.spool.markBatchCommitted batchId nowMs).2
      marked := w.marked ++ [batchId] }
  | .markBatchFailed batchId nowMs message =>
    { w with
      spool := (w.spool.markBatchFailed batchId nowMs message).2
      marked := w.marked ++ [batchId] }
  | .cancelPending requestId nowMs =>
    { w with spool := (w.spool.cancelPending requestId nowMs).2 }
  | .restart config startedAtMs =>
    ⟨.fromRecoveryRecords config startedAtMs w.spool.recoveryRecords, [], []⟩

/-- A world with an empty spool. -/
def new (config : WriteSpoolConfig) (startedAtMs : ℕ) : World :=
  ⟨.new config startedAtMs, [], []⟩

/-- The world after some operations. -/
def run (w : World) (ops : List Op) : World := ops.foldl step w

/-- Only batches issued since the last restart are marked. -/
def Allowed (w : World) : Op → Prop
  | .markBatchCommitted batchId _ => batchId ∈ w.issued
  | .markBatchFailed batchId _ _ => batchId ∈ w.issued
  | _ => True

/-- A record that waits for the mark of its batch. -/
def Outstanding (w : World) (r : WriteSpoolRecord) : Prop :=
  ∃ batchId ∈ w.issued, batchId ∉ w.marked ∧ r.batchId = some batchId

/-- The bytes of a queued id. -/
def payloadOf (records : List WriteSpoolRecord) (requestId : ℕ) : ℕ :=
  ((records.find? fun r => r.requestId = requestId).map WriteSpoolRecord.payloadBytes).getD 0

/-- The bytes of the queue. -/
def queuedBytes (w : World) : ℕ :=
  (w.spool.pendingOrder.map (payloadOf w.spool.records)).sum

/-- **The accounting law of the spool**: the counter is the bytes of the queue, the queue
names distinct records that are pending, and a pending record is missing from it only
while its batch is outstanding. -/
structure Accounted (w : World) : Prop where
  bytes : w.spool.pendingBytes = w.queuedBytes
  distinct : w.spool.pendingOrder.Nodup
  queued : ∀ id ∈ w.spool.pendingOrder, ∃ r ∈ w.spool.records, r.requestId = id ∧
    r.status = .pending
  complete : ∀ r ∈ w.spool.records, r.status = .pending → ¬ w.Outstanding r →
    r.requestId ∈ w.spool.pendingOrder

/-- The bytes of all pending records. -/
def unfinishedBytes (w : World) : ℕ :=
  ((w.spool.records.filter fun r => r.status = .pending).map WriteSpoolRecord.payloadBytes).sum

/-- **When an operation keeps the accounts.**  A cancellation must not hit a queued record
that has bytes and remembers a batch from before a restart, and at a restart the bytes of
the pending records must fit the counter. -/
def Sound (w : World) : Op → Prop
  | .cancelPending requestId _ =>
    ∀ r ∈ w.spool.records, r.requestId = requestId → requestId ∈ w.spool.pendingOrder →
      r.batchId = none ∨ r.payloadBytes = 0
  | .restart _ _ => w.unfinishedBytes ≤ u64Max
  | _ => True

/-- Every operation of a run meets a condition on the world before it. -/
def Meets (C : World → Op → Prop) : World → List Op → Prop
  | _, [] => True
  | w, op :: ops => C w op ∧ Meets C (w.step op) ops

end World

/-! ## Records under their ids -/

section Records

variable {records : List WriteSpoolRecord}

/-- With distinct ids a record is found under its own. -/
theorem find?_requestId (hi : (records.map WriteSpoolRecord.requestId).Nodup)
    {r : WriteSpoolRecord} (hr : r ∈ records) :
    records.find? (fun x => x.requestId = r.requestId) = some r := by
  induction records with
  | nil => cases hr
  | cons x re ih =>
    rw [List.map_cons, List.nodup_cons] at hi
    rw [List.find?_cons]
    rcases List.mem_cons.mp hr with rfl | hr
    · simp
    · have hne : x.requestId ≠ r.requestId := by
        intro h
        exact hi.1 (h ▸ List.mem_map_of_mem hr)
      simp only [hne, decide_false]
      exact ih hi.2 hr

theorem payloadOf_requestId (hi : (records.map WriteSpoolRecord.requestId).Nodup)
    {r : WriteSpoolRecord} (hr : r ∈ records) :
    World.payloadOf records r.requestId = r.payloadBytes := by
  rw [World.payloadOf, find?_requestId hi hr]
  rfl

/-- Two records with one id are one record. -/
theorem eq_of_requestId (hi : (records.map WriteSpoolRecord.requestId).Nodup)
    {r r' : WriteSpoolRecord} (hr : r ∈ records) (hr' : r' ∈ records)
    (h : r.requestId = r'.requestId) : r = r' := by
  have hf := find?_requestId hi hr
  rw [h, find?_requestId hi hr'] at hf
  exact (Option.some.inj hf).symm

/-- A change of the records that keeps what the accounts read. -/
structure KeepsAccounts (g : WriteSpoolRecord → WriteSpoolRecord) : Prop where
  requestId : ∀ r, (g r).requestId = r.requestId
  payloadBytes : ∀ r, (g r).payloadBytes = r.payloadBytes

theorem KeepsAccounts.map_requestId {g : WriteSpoolRecord → WriteSpoolRecord}
    (hg : KeepsAccounts g) (records : List WriteSpoolRecord) :
    (records.map g).map WriteSpoolRecord.requestId
      = records.map WriteSpoolRecord.requestId := by
  rw [List.map_map]
  exact List.map_congr_left fun r _ => hg.requestId r

theorem KeepsAccounts.payloadOf_map {g : WriteSpoolRecord → WriteSpoolRecord}
    (hg : KeepsAccounts g) (records : List WriteSpoolRecord) :
    World.payloadOf (records.map g) = World.payloadOf records := by
  funext id
  simp only [World.payloadOf, List.find?_map, Function.comp_def, hg.requestId, Option.map_map,
    hg.payloadBytes]

/-- With distinct ids a change of the first record with an id is a change of every such
record. -/
theorem updateRecord_eq_map (hi : (records.map WriteSpoolRecord.requestId).Nodup) (id : ℕ)
    (f : WriteSpoolRecord → WriteSpoolRecord) :
    WriteSpool.updateRecord id f records
      = records.map fun r => if r.requestId = id then f r else r := by
  induction records with
  | nil => rfl
  | cons x re ih =>
    rw [List.map_cons, List.nodup_cons] at hi
    rw [WriteSpool.updateRecord, List.map_cons]
    split
    · rename_i hx
      have hre : re.map (fun r => if r.requestId = id then f r else r) = re.map fun r => r := by
        refine List.map_congr_left fun r hr => if_neg fun h => hi.1 ?_
        rw [hx, ← h]
        exact List.mem_map_of_mem hr
      rw [hre, List.map_id']
    · rw [ih hi.2]

end Records

/-! ## What the tests and the loop of the spool do -/

/-- The limits that an accepted payload respects. -/
theorem limits_of_ensureAccepting {s : WriteSpool} {bytes nowMs : ℕ}
    (h : s.ensureAccepting bytes nowMs = .ok ()) :
    s.pendingOrder.length < s.config.maxPending ∧ s.pendingBytes + bytes ≤ u64Max ∧
      s.pendingBytes + bytes ≤ s.config.maxPendingBytes := by
  unfold WriteSpool.ensureAccepting at h
  split at h
  · cases h
  · split at h
    · cases h
    · split at h
      · cases h
      · omega

/-- A batch that is full takes nothing more. -/
theorem selectBatch_of_full {joins : ℕ → Bool} {li : ℕ} {se : List ℕ}
    (hf : li ≤ se.length) (r : List ℕ) :
    WriteSpool.selectBatch joins li se r = (se, r) := by
  induction r with
  | nil => rfl
  | cons id r ih =>
    rw [WriteSpool.selectBatch, if_neg (by omega), ih]

/-- How a queue is split between a batch and the rest: the batch takes the first ids that join,
as many as it may. -/
structure Split (joins : ℕ → Bool) (queue taken retained : List ℕ) : Prop where
  perm : (taken ++ retained).Perm queue
  sublist : retained.Sublist queue
  joined : ∀ id ∈ taken, joins id = true
  first : taken ++ retained.filter joins = queue.filter joins
  others : ∀ p : ℕ → Bool, (∀ id, p id = true → joins id = false) →
    retained.filter p = queue.filter p

/-- The next record joins the batch. -/
theorem Split.take {joins : ℕ → Bool} {qu t retained : List ℕ} {id : ℕ}
    (h : Split joins qu t retained) (hid : joins id = true) :
    Split joins (id :: qu) (id :: t) retained where
  perm := h.perm.cons id
  sublist := h.sublist.cons id
  joined := by
    intro x hx
    rcases List.mem_cons.mp hx with rfl | hx
    · exact hid
    · exact h.joined x hx
  first := by rw [List.filter_cons_of_pos hid, ← h.first, List.cons_append]
  others p hp := by
    have hn : ¬ p id = true := by
      intro hpi
      rw [hp id hpi] at hid
      cases hid
    rw [List.filter_cons_of_neg hn]
    exact h.others p hp

/-- The next record stays in the queue. -/
theorem Split.keep {joins : ℕ → Bool} {qu t retained : List ℕ} {id : ℕ}
    (h : Split joins qu t retained) (hid : joins id = false) :
    Split joins (id :: qu) t (id :: retained) where
  perm := List.perm_middle.trans (h.perm.cons id)
  sublist := h.sublist.cons_cons id
  joined := h.joined
  first := by
    have hn : ¬ joins id = true := by simp [hid]
    rw [List.filter_cons_of_neg hn, List.filter_cons_of_neg hn, h.first]
  others p hp := by rw [List.filter_cons, List.filter_cons, h.others p hp]

theorem Split.refl (joins : ℕ → Bool) (qu : List ℕ) : Split joins qu [] qu :=
  ⟨List.Perm.refl _, List.Sublist.refl _, List.forall_mem_nil _, rfl, fun _ _ => rfl⟩

/-- The loop of `next_batch` splits the queue. -/
theorem selectBatch_split (joins : ℕ → Bool) (li : ℕ) (r : List ℕ) : ∀ se, ∃ t retained,
      WriteSpool.selectBatch joins li se r = (se ++ t, retained) ∧ Split joins r t retained ∧
        (se ++ t).length ≤ max se.length li := by
  induction r with
  | nil =>
    intro se
    exact ⟨[], [], by simp [WriteSpool.selectBatch], .refl _ _, by simp⟩
  | cons id r ih =>
    intro se
    by_cases hr : se.length < li
    · cases hid : joins id with
      | true =>
        obtain ⟨t, retained, heq, hs, hl⟩ := ih (se ++ [id])
        refine ⟨id :: t, retained, ?_, hs.take hid, ?_⟩
        · rw [WriteSpool.selectBatch, if_pos ⟨hr, hid⟩, heq, List.append_assoc]
          rfl
        · simp only [List.length_append, List.length_cons, List.length_nil] at hl ⊢
          omega
      | false =>
        obtain ⟨t, retained, heq, hs, hl⟩ := ih se
        refine ⟨t, id :: retained, ?_, hs.keep hid, hl⟩
        rw [WriteSpool.selectBatch, if_neg (by simp [hid]), heq]
    · refine ⟨[], id :: r, ?_, .refl _ _, by simp⟩
      rw [selectBatch_of_full (by omega), List.append_nil]

/-! ## The invariant -/

namespace World

/-- What every world of a run of sound operations satisfies: the accounts hold, ids are
distinct and below the counters, and a queued record is in no batch issued since the last
restart. -/
structure Inv (w : World) : Prop where
  accounted : w.Accounted
  ids : (w.spool.records.map WriteSpoolRecord.requestId).Nodup
  idBound : ∀ r ∈ w.spool.records, r.requestId < w.spool.nextRequestId
  idMax : w.spool.nextRequestId ≤ u64Max
  batchBound : ∀ r ∈ w.spool.records, ∀ b, r.batchId = some b → b < w.spool.nextBatchId
  issuedBound : ∀ b ∈ w.issued, b < w.spool.nextBatchId
  markedIssued : ∀ b ∈ w.marked, b ∈ w.issued
  batchMax : w.spool.nextBatchId ≤ u64Max
  fresh : ∀ r ∈ w.spool.records, r.requestId ∈ w.spool.pendingOrder →
    ∀ b, r.batchId = some b → b ∉ w.issued

theorem inv_new (c : WriteSpoolConfig) (sams : ℕ) : (new c sams).Inv where
  accounted := ⟨rfl, List.nodup_nil, List.forall_mem_nil _, List.forall_mem_nil _⟩
  ids := List.nodup_nil
  idBound _ h := by cases h
  idMax := show 1 ≤ u64Max by decide
  batchBound _ h := by cases h
  issuedBound _ h := by cases h
  markedIssued _ h := by cases h
  batchMax := show 1 ≤ u64Max by decide
  fresh _ h := by cases h

/-- A queued id is the id of one pending record. -/
theorem Inv.record_of_queued {w : World} (h : w.Inv) {id : ℕ} (hid : id ∈ w.spool.pendingOrder) :
    ∃ r ∈ w.spool.records, r.requestId = id ∧ r.status = .pending ∧
      w.spool.record id = some r ∧ payloadOf w.spool.records id = r.payloadBytes := by
  obtain ⟨r, hr, rfl, hp⟩ := h.accounted.queued id hid
  exact ⟨r, hr, rfl, hp, find?_requestId h.ids hr, payloadOf_requestId h.ids hr⟩

/-- What the invariant reads of a spool is unchanged. -/
theorem Inv.congr {w : World} {spool : WriteSpool} (h : w.Inv)
    (hnext : spool.nextRequestId = w.spool.nextRequestId)
    (hbatch : spool.nextBatchId = w.spool.nextBatchId)
    (hqueue : spool.pendingOrder = w.spool.pendingOrder)
    (hrecords : spool.records = w.spool.records)
    (hbytes : spool.pendingBytes = w.spool.pendingBytes) : Inv { w with spool } := by
  obtain ⟨⟨hb, hd, hq, hc⟩, hids, hib, him, hbb, hisb, hmi, hbm, hf⟩ := h
  refine ⟨⟨?_, ?_, ?_, ?_⟩, ?_, ?_, ?_, ?_, ?_, hmi, ?_, ?_⟩ <;>
    simp only [queuedBytes, Outstanding, hnext, hbatch, hqueue, hrecords, hbytes] at * <;>
    assumption

/-! ### Enqueue -/

/-- A new record at the end keeps the bytes of the older ids. -/
theorem payloadOf_concat {records : List WriteSpoolRecord} {r : WriteSpoolRecord} {id : ℕ}
    (hid : id ≠ r.requestId) : payloadOf (records ++ [r]) id = payloadOf records id := by
  have hl : [r].find? (fun x => x.requestId = id) = none := by
    simp [hid.symm]
  simp only [payloadOf, List.find?_append, hl, Option.or_none]

/-- An intent that is not a duplicate is refused or becomes the last of the queue. -/
theorem Inv.enqueueNew {w : World} (h : w.Inv) (intent : WriteSpoolIntent) (nowMs : ℕ) :
    Inv { w with spool := (w.spool.enqueueNew intent nowMs).2 } := by
  unfold WriteSpool.enqueueNew
  rcases ha : w.spool.ensureAccepting intent.payloadBytes nowMs with e | ⟨⟩
  · exact h
  simp only
  split
  · exact h
  rename_i hne
  obtain ⟨-, hf, -⟩ := limits_of_ensureAccepting ha
  have hn : ∀ r ∈ w.spool.records, r.requestId ≠ w.spool.nextRequestId :=
    fun r hr => (h.idBound r hr).ne
  have hq : ∀ id ∈ w.spool.pendingOrder, id ≠ w.spool.nextRequestId := by
    intro id hid
    obtain ⟨r, hr, rfl, -⟩ := h.record_of_queued hid
    exact hn r hr
  have hi : ((w.spool.records ++ [WriteSpoolRecord.fromIntent w.spool.nextRequestId intent
      nowMs]).map WriteSpoolRecord.requestId).Nodup := by
    rw [List.map_append, List.nodup_append]
    refine ⟨h.ids, List.nodup_singleton _, ?_⟩
    rintro _ hid _ hl
    obtain ⟨r, hr, rfl⟩ := List.mem_map.mp hid
    rw [List.mem_singleton.mp hl]
    exact hn r hr
  refine ⟨⟨?_, ?_, ?_, ?_⟩, hi, ?_, ?_, ?_, h.issuedBound, h.markedIssued, h.batchMax, ?_⟩
  · have hl := payloadOf_requestId hi (List.mem_append_right _ (List.mem_singleton_self _))
    have hre : w.spool.pendingOrder.map (payloadOf (w.spool.records
        ++ [WriteSpoolRecord.fromIntent w.spool.nextRequestId intent nowMs]))
        = w.spool.pendingOrder.map (payloadOf w.spool.records) :=
      List.map_congr_left fun id hid => payloadOf_concat (hq id hid)
    have hby := h.accounted.bytes
    simp only [queuedBytes] at hby ⊢
    rw [List.map_append, List.sum_append, hre, ← hby, List.map_singleton, List.sum_singleton, hl]
    exact Nat.min_eq_left hf
  · rw [List.nodup_append]
    refine ⟨h.accounted.distinct, List.nodup_singleton _, ?_⟩
    rintro id hid _ hl
    rw [List.mem_singleton.mp hl]
    exact hq id hid
  · intro id hid
    rcases List.mem_append.mp hid with hid | hid
    · obtain ⟨r, hr, hri, hp⟩ := h.accounted.queued id hid
      exact ⟨r, List.mem_append_left _ hr, hri, hp⟩
    · rw [List.mem_singleton.mp hid]
      exact ⟨_, List.mem_append_right _ (List.mem_singleton_self _), rfl, rfl⟩
  · intro r hr hp ho
    rcases List.mem_append.mp hr with hr | hr
    · exact List.mem_append_left _ (h.accounted.complete r hr hp ho)
    · rw [List.mem_singleton.mp hr]
      exact List.mem_append_right _ (List.mem_singleton_self _)
  · intro r hr
    rcases List.mem_append.mp hr with hr | hr
    · exact (h.idBound r hr).trans (Nat.lt_succ_self _)
    · rw [List.mem_singleton.mp hr]
      exact Nat.lt_succ_self _
  · exact Nat.not_lt.mp hne
  · intro r hr b hb
    rcases List.mem_append.mp hr with hr | hr
    · exact h.batchBound r hr b hb
    · rw [List.mem_singleton.mp hr] at hb
      cases hb
  · intro r hr hid b hb
    rcases List.mem_append.mp hr with hr | hr
    · rcases List.mem_append.mp hid with hid | hid
      · exact h.fresh r hr hid b hb
      · exact absurd (List.mem_singleton.mp hid) (hn r hr)
    · rw [List.mem_singleton.mp hr] at hb
      cases hb

/-- Enqueueing keeps the invariant. -/
theorem Inv.enqueue {w : World} (h : w.Inv) (intent : WriteSpoolIntent) (nowMs : ℕ) :
    (w.step (.enqueue intent nowMs)).Inv := by
  unfold step WriteSpool.enqueue
  simp only
  split
  · exact h
  · have hforget : Inv { w with
        spool := { w.spool with
          idempotency := Function.update w.spool.idempotency intent.idempotencyKey none } } :=
      h.congr rfl rfl rfl rfl rfl
    exact hforget.enqueueNew intent nowMs

/-! ### Marks -/

/-- How a mark changes a record of the batch. -/
structure Finishes (f : WriteSpoolRecord → WriteSpoolRecord) : Prop extends KeepsAccounts f where
  batchId : ∀ r, (f r).batchId = r.batchId
  status : ∀ r, (f r).status ≠ .pending

theorem Finishes.keepsAccounts {f : WriteSpoolRecord → WriteSpoolRecord} (hf : Finishes f)
    (p : WriteSpoolRecord → Bool) : KeepsAccounts fun r => if p r then f r else r where
  requestId r := by
    split
    · exact hf.requestId r
    · rfl
  payloadBytes r := by
    split
    · exact hf.payloadBytes r
    · rfl

/-- Marking an issued batch finishes its records and leaves the accounts alone. -/
theorem Inv.mark {w : World} (h : w.Inv) {batchId : ℕ} (hissued : batchId ∈ w.issued)
    {f : WriteSpoolRecord → WriteSpoolRecord} (hf : Finishes f) (stats : WriteSpoolStats) :
    Inv { w with
      spool := { w.spool with
        records := w.spool.records.map fun r =>
          if WriteSpool.inBatch batchId r then f r else r
        stats }
      marked := w.marked ++ [batchId] } := by
  have hkeeps := hf.keepsAccounts (WriteSpool.inBatch batchId)
  -- a queued record is in no issued batch, so the mark does not reach it
  have hqueued : ∀ r ∈ w.spool.records, r.requestId ∈ w.spool.pendingOrder →
      WriteSpool.inBatch batchId r = false := by
    intro r hr hid
    by_contra hin
    simp only [WriteSpool.inBatch, Bool.not_eq_false, decide_eq_true_eq] at hin
    exact h.fresh r hr hid batchId hin.1 hissued
  have hbatchId : ∀ r, (if WriteSpool.inBatch batchId r then f r else r).batchId = r.batchId := by
    intro r
    split
    · exact hf.batchId r
    · rfl
  refine ⟨⟨?_, h.accounted.distinct, ?_, ?_⟩, ?_, ?_, h.idMax, ?_, h.issuedBound, ?_,
    h.batchMax, ?_⟩
  · simp only [queuedBytes, hkeeps.payloadOf_map]
    exact h.accounted.bytes
  · intro id hid
    obtain ⟨r, hr, rfl, hpending, -⟩ := h.record_of_queued hid
    refine ⟨r, List.mem_map.mpr ⟨r, hr, ?_⟩, rfl, hpending⟩
    rw [hqueued r hr hid]
    rfl
  · intro r' hr' hpending hout
    obtain ⟨r, hr, rfl⟩ := List.mem_map.mp hr'
    cases hin : WriteSpool.inBatch batchId r with
    | true =>
      simp only [hin] at hpending
      exact absurd hpending (hf.status r)
    | false =>
      simp only [hin, Bool.false_eq_true, if_false] at hpending hout ⊢
      refine h.accounted.complete r hr hpending ?_
      rintro ⟨b, hb, hmark, hrb⟩
      refine hout ⟨b, hb, ?_, hrb⟩
      intro hmem
      rcases List.mem_append.mp hmem with hmem | hmem
      · exact hmark hmem
      · rw [List.mem_singleton] at hmem
        simp [WriteSpool.inBatch, hrb, hmem, hpending] at hin
  · rw [show (_ : WriteSpool).records = _ from rfl, hkeeps.map_requestId]
    exact h.ids
  · intro r' hr'
    obtain ⟨r, hr, rfl⟩ := List.mem_map.mp hr'
    rw [hkeeps.requestId r]
    exact h.idBound r hr
  · intro r' hr' b hb
    obtain ⟨r, hr, rfl⟩ := List.mem_map.mp hr'
    rw [hbatchId] at hb
    exact h.batchBound r hr b hb
  · intro b hb
    rcases List.mem_append.mp hb with hb | hb
    · exact h.markedIssued b hb
    · rw [List.mem_singleton.mp hb]
      exact hissued
  · intro r' hr' hid b hb
    obtain ⟨r, hr, rfl⟩ := List.mem_map.mp hr'
    rw [hbatchId] at hb
    rw [hkeeps.requestId r] at hid
    exact h.fresh r hr hid b hb

/-! ### Cancellation -/

/-- The bytes of the queue without an id. -/
theorem sum_filter_ne {qu : List ℕ} (hn : qu.Nodup) (f : ℕ → ℕ) {id : ℕ} (hid : id ∈ qu) :
    f id + ((qu.filter fun x => x ≠ id).map f).sum = (qu.map f).sum := by
  have he : qu.erase id = qu.filter fun x => x ≠ id := by
    rw [hn.erase_eq_filter]
    congr 1
    funext x
    simp [bne, beq_eq_decide]
  rw [← he]
  exact List.sum_map_erase f hid

/-- The record that `record` finds. -/
theorem record_eq_some {s : WriteSpool} {id : ℕ} {r : WriteSpoolRecord}
    (h : s.record id = some r) : r ∈ s.records ∧ r.requestId = id :=
  ⟨List.mem_of_find?_eq_some h, by simpa using List.find?_some h⟩

theorem status_of_not_isTerminal {status : WriteSpoolRecordStatus}
    (h : ¬ status.isTerminal = true) : status = .pending := by
  cases status <;> simp_all [WriteSpoolRecordStatus.isTerminal]

/-- The counter after a cancellation is the bytes of the remaining queue exactly when the
cancellation is sound. -/
theorem Inv.cancel_bytes {w : World} (h : w.Inv) {id : ℕ} (nowMs : ℕ) {r : WriteSpoolRecord}
    (hr : r ∈ w.spool.records) (hid : r.requestId = id) (hpe : r.status = .pending) :
    (if r.batchId.isNone then w.spool.pendingBytes - r.payloadBytes else w.spool.pendingBytes)
        = ((w.spool.pendingOrder.filter fun x => x ≠ id).map (payloadOf w.spool.records)).sum ↔
      w.Sound (.cancelPending id nowMs) := by
  have hby := h.accounted.bytes
  unfold queuedBytes at hby
  have hp : payloadOf w.spool.records id = r.payloadBytes := hid ▸ payloadOf_requestId h.ids hr
  have hso : w.Sound (.cancelPending id nowMs) ↔
      (id ∈ w.spool.pendingOrder → r.batchId = none ∨ r.payloadBytes = 0) := by
    constructor
    · intro hs
      exact hs r hr hid
    · intro hs r' hr' h' hq
      rw [eq_of_requestId h.ids hr' hr (h'.trans hid.symm)]
      exact hs hq
  rw [hso]
  by_cases hq : id ∈ w.spool.pendingOrder
  · have hsu := sum_filter_ne h.accounted.distinct (payloadOf w.spool.records) hq
    rw [hp] at hsu
    cases hb : r.batchId with
    | none =>
      simp only [Option.isNone_none, if_true, true_or, implies_true, iff_true]
      omega
    | some b =>
      simp only [Option.isNone_some, Bool.false_eq_true, if_false, reduceCtorEq, false_or]
      constructor
      · intro heq _
        omega
      · intro hz
        have := hz hq
        omega
  · -- a pending record outside the queue is in an outstanding batch
    have ho : w.Outstanding r := by
      by_contra ho
      exact hq (hid ▸ h.accounted.complete r hr hpe ho)
    obtain ⟨b, -, -, hb⟩ := ho
    have hse : (w.spool.pendingOrder.filter fun x => x ≠ id) = w.spool.pendingOrder := by
      rw [List.filter_eq_self]
      intro x hx
      have hne : x ≠ id := fun heq => hq (heq ▸ hx)
      simpa using hne
    rw [hse, hb]
    simp only [Option.isNone_some, Bool.false_eq_true, if_false, hq, false_implies, iff_true]
    exact hby

/-- A cancelled record. -/
def cancelled (nowMs : ℕ) (r : WriteSpoolRecord) : WriteSpoolRecord :=
  { r with status := .cancelled, terminalAtMs := some nowMs }

theorem finishes_cancelled (nowMs : ℕ) : Finishes (cancelled nowMs) :=
  ⟨⟨fun _ => rfl, fun _ => rfl⟩, fun _ => rfl, fun _ => by simp [cancelled]⟩

/-- The spool after the cancellation of a record, with a given counter. -/
def cancelRecord (s : WriteSpool) (id nowMs bytes : ℕ) : WriteSpool :=
  { s with
    pendingOrder := s.pendingOrder.filter fun queuedId => queuedId ≠ id
    pendingBytes := bytes
    records := s.records.map fun r => if decide (r.requestId = id) then cancelled nowMs r else r
    stats := { s.stats with totalCancelled := satAdd64 s.stats.totalCancelled 1 } }

/-- A cancellation does nothing, or it hits the pending record with the id. -/
theorem Inv.cancelPending_cases {w : World} (h : w.Inv) (id nowMs : ℕ) :
    (w.step (.cancelPending id nowMs) = w ∧
        ∀ r ∈ w.spool.records, r.requestId = id → r.status ≠ .pending) ∨
      ∃ r ∈ w.spool.records, r.requestId = id ∧ r.status = .pending ∧
        w.step (.cancelPending id nowMs) = { w with
          spool := cancelRecord w.spool id nowMs
            (if r.batchId.isNone then w.spool.pendingBytes - r.payloadBytes
              else w.spool.pendingBytes) } := by
  simp only [step, WriteSpool.cancelPending]
  rcases hre : w.spool.record id with - | r
  · left
    refine ⟨rfl, ?_⟩
    intro r hr hid
    rw [WriteSpool.record, ← hid, find?_requestId h.ids hr] at hre
    cases hre
  obtain ⟨hr, hid⟩ := record_eq_some hre
  by_cases ht : r.status.isTerminal = true
  · left
    refine ⟨by simp only [if_pos ht], ?_⟩
    intro r' hr' h' hp
    rw [eq_of_requestId h.ids hr' hr (h'.trans hid.symm)] at hp
    rw [hp] at ht
    cases ht
  · right
    refine ⟨r, hr, hid, status_of_not_isTerminal ht, ?_⟩
    simp only [if_neg ht, updateRecord_eq_map h.ids, cancelRecord, decide_eq_true_eq]
    rfl

/-- Taking a record out of the queue keeps the invariant when the counter follows. -/
theorem Inv.cancelRecord {w : World} (h : w.Inv) {id nowMs bytes : ℕ} (hby : bytes
      = ((w.spool.pendingOrder.filter fun x => x ≠ id).map (payloadOf w.spool.records)).sum) :
    Inv { w with spool := cancelRecord w.spool id nowMs bytes } := by
  have hf := finishes_cancelled nowMs
  have hk := hf.keepsAccounts fun r => r.requestId = id
  have ho : ∀ r : WriteSpoolRecord, r.requestId ≠ id →
      (if decide (r.requestId = id) then cancelled nowMs r else r) = r :=
    fun r hne => if_neg (by simpa using hne)
  have hba : ∀ r : WriteSpoolRecord,
      (if decide (r.requestId = id) then cancelled nowMs r else r).batchId = r.batchId := by
    intro r
    split
    · exact hf.batchId r
    · rfl
  refine ⟨⟨?_, h.accounted.distinct.filter _, ?_, ?_⟩, ?_, ?_, h.idMax, ?_, h.issuedBound,
    h.markedIssued, h.batchMax, ?_⟩
  · simp only [queuedBytes, World.cancelRecord, hk.payloadOf_map]
    exact hby
  · intro x hx
    obtain ⟨hx, hne⟩ := List.mem_filter.mp hx
    obtain ⟨r, hr, rfl, hp, -⟩ := h.record_of_queued hx
    refine ⟨r, List.mem_map.mpr ⟨r, hr, ho r ?_⟩, rfl, hp⟩
    simpa using hne
  · intro r' hr' hp hou
    obtain ⟨r, hr, rfl⟩ := List.mem_map.mp hr'
    by_cases hid : r.requestId = id
    · simp only [hid, decide_true, if_true] at hp
      exact absurd hp (hf.status r)
    · rw [ho r hid] at hp hou ⊢
      exact List.mem_filter.mpr ⟨h.accounted.complete r hr hp hou, by simpa using hid⟩
  · simp only [World.cancelRecord, hk.map_requestId]
    exact h.ids
  · intro r' hr'
    obtain ⟨r, hr, rfl⟩ := List.mem_map.mp hr'
    rw [hk.requestId r]
    exact h.idBound r hr
  · intro r' hr' b hb
    obtain ⟨r, hr, rfl⟩ := List.mem_map.mp hr'
    rw [hba] at hb
    exact h.batchBound r hr b hb
  · intro r' hr' hid b hb
    obtain ⟨r, hr, rfl⟩ := List.mem_map.mp hr'
    rw [hba] at hb
    rw [hk.requestId r] at hid
    exact h.fresh r hr (List.mem_filter.mp hid).1 b hb

/-- **A cancellation keeps the accounts exactly when it is sound**, and then it keeps the
invariant. -/
theorem Inv.cancel {w : World} (h : w.Inv) (id nowMs : ℕ) :
    ((w.step (.cancelPending id nowMs)).Accounted ↔ w.Sound (.cancelPending id nowMs)) ∧
      (w.Sound (.cancelPending id nowMs) → (w.step (.cancelPending id nowMs)).Inv) := by
  rcases h.cancelPending_cases id nowMs with ⟨hst, hn⟩ | ⟨r, hr, hid, hp, hst⟩
  · rw [hst]
    have hs : w.Sound (.cancelPending id nowMs) := by
      intro r hr hri hq
      obtain ⟨r', hr', hri', hp, -⟩ := h.record_of_queued hq
      exact absurd hp (hn r' hr' hri')
    exact ⟨iff_of_true h.accounted hs, fun _ => h⟩
  · rw [hst]
    have hb := h.cancel_bytes nowMs hr hid hp
    refine ⟨⟨?_, ?_⟩, ?_⟩
    · intro ha
      rw [← hb]
      have hc := ha.bytes
      simpa only [queuedBytes, World.cancelRecord,
        ((finishes_cancelled nowMs).keepsAccounts _).payloadOf_map] using hc
    · intro hs
      exact (h.cancelRecord (hb.mpr hs)).accounted
    · intro hs
      exact h.cancelRecord (hb.mpr hs)

/-! ### Batches -/

/-- A record stamped with a batch. -/
def stamped (batchId : ℕ) (r : WriteSpoolRecord) : WriteSpoolRecord :=
  { r with batchId := some batchId }

/-- The records after the ids of a batch were stamped. -/
def stampAll (batchId : ℕ) (selected : List ℕ) (records : List WriteSpoolRecord) :
    List WriteSpoolRecord :=
  records.map fun r => if r.requestId ∈ selected then stamped batchId r else r

theorem keepsAccounts_stampAll (batchId : ℕ) (s : List ℕ) :
    KeepsAccounts fun r => if r.requestId ∈ s then stamped batchId r else r where
  requestId r := by split <;> rfl
  payloadBytes r := by split <;> rfl

theorem stampAll_cons (batchId id : ℕ) (s : List ℕ) (records : List WriteSpoolRecord) :
    stampAll batchId s
        (records.map fun r => if r.requestId = id then stamped batchId r else r)
      = stampAll batchId (id :: s) records := by
  unfold stampAll
  rw [List.map_map]
  refine List.map_congr_left fun r _ => ?_
  simp only [Function.comp_apply, List.mem_cons]
  by_cases hid : r.requestId = id
  · simp only [hid, true_or, if_true]
    split <;> rfl
  · simp only [hid, if_false, false_or]

/-- What the stamping loop does when every id has a record. -/
theorem foldl_stampRecord (bi : ℕ) (se : List ℕ) :
    ∀ (s : WriteSpool) (ids : List ℕ) (ss : List String),
      (s.records.map WriteSpoolRecord.requestId).Nodup →
      (∀ id ∈ se, id ∈ s.records.map WriteSpoolRecord.requestId) →
        ∃ ss', se.foldl (WriteSpool.stampRecord bi) (s, ids, ss) = ({ s with
                records := stampAll bi se s.records
                pendingBytes := s.pendingBytes - (se.map (payloadOf s.records)).sum },
              ids ++ se, ss') := by
  induction se with
  | nil =>
    intro s ids ss _ _
    exact ⟨ss, by simp [stampAll]⟩
  | cons id se ih =>
    intro s ids ss hi hre
    obtain ⟨r, hr, rfl⟩ := List.mem_map.mp (hre id List.mem_cons_self)
    have hrec : s.record r.requestId = some r := find?_requestId hi hr
    have hk : KeepsAccounts fun x => if x.requestId = r.requestId then stamped bi x else x :=
      ⟨fun x => by split <;> rfl, fun x => by split <;> rfl⟩
    have hu : WriteSpool.updateRecord r.requestId (fun r => { r with batchId := some bi })
        s.records = s.records.map fun x => if x.requestId = r.requestId then stamped bi x else x :=
      updateRecord_eq_map hi _ _
    rw [List.foldl_cons, WriteSpool.stampRecord]
    simp only [hrec, hu]
    obtain ⟨ss', heq⟩ := ih { s with
        records := s.records.map fun x => if x.requestId = r.requestId then stamped bi x else x
        pendingBytes := s.pendingBytes - r.payloadBytes }
      (ids ++ [r.requestId]) (ss ++ [r.auditSubject])
      (by simpa only [hk.map_requestId] using hi)
      (fun id hid => by
        simpa only [hk.map_requestId] using hre id (List.mem_cons_of_mem _ hid))
    refine ⟨ss', ?_⟩
    rw [heq]
    simp only [hk.payloadOf_map, stampAll_cons, List.map_cons, List.sum_cons,
      payloadOf_requestId hi hr, Nat.sub_sub, List.append_assoc, List.singleton_append]

/-- A queue whose first id has a record is popped there. -/
theorem Inv.popFirst {w : World} (h : w.Inv) {id : ℕ} {re : List ℕ}
    (hq : w.spool.pendingOrder = id :: re) :
    ∃ r, w.spool.popFirst w.spool.pendingOrder = some (id, r, re) := by
  have hid : id ∈ w.spool.pendingOrder := by
    rw [hq]
    exact List.mem_cons_self
  obtain ⟨r, -, -, -, hr, -⟩ := h.record_of_queued hid
  refine ⟨r, ?_⟩
  rw [hq, WriteSpool.popFirst, hr]

/-- The spool after a batch was issued. -/
def issueBatch (s : WriteSpool) (selected retained : List ℕ) (stats : WriteSpoolStats) :
    WriteSpool :=
  { s with
    pendingOrder := retained
    nextBatchId := s.nextBatchId + 1
    records := stampAll s.nextBatchId selected s.records
    pendingBytes := s.pendingBytes - (selected.map (payloadOf s.records)).sum
    stats }

/-- A draw of a batch does nothing, or it issues one. -/
theorem Inv.nextBatch_cases {w : World} (h : w.Inv) : w.step .nextBatch = w ∨
      ∃ s re ss, (s ++ re).Perm w.spool.pendingOrder ∧ w.spool.nextBatchId < u64Max ∧
        w.step .nextBatch = { w with
          spool := issueBatch w.spool s re ss
          issued := w.issued ++ [w.spool.nextBatchId] } := by
  have hb := h.batchMax
  simp only [step, WriteSpool.nextBatch]
  by_cases hm : w.spool.nextBatchId = u64Max
  · left
    rw [if_pos hm]
  rw [if_neg hm]
  rcases hq : w.spool.pendingOrder with - | ⟨id, res⟩
  · left
    simp only [WriteSpool.popFirst, ← hq]
  · right
    obtain ⟨r, hpo⟩ := h.popFirst hq
    obtain ⟨s, re, hs, hp, hne⟩ : ∃ s re, (if r.batchKey.durability = .batched then
          WriteSpool.selectBatch
            (fun id => (w.spool.record id).any fun x => x.batchKey = r.batchKey)
            w.spool.config.effectiveBatchSize [id] res
        else ([id], res)) = (s, re) ∧ (s ++ re).Perm (id :: res) ∧ s ≠ [] := by
      split
      · obtain ⟨t, re, heq, hp, -⟩ := selectBatch_split
          (fun id => (w.spool.record id).any fun x => x.batchKey = r.batchKey)
          w.spool.config.effectiveBatchSize res [id]
        exact ⟨[id] ++ t, re, heq, hp.perm.cons id, by simp⟩
      · exact ⟨[id], res, rfl, .refl _, by simp⟩
    have hr : ∀ x ∈ s, x ∈ w.spool.records.map WriteSpoolRecord.requestId := by
      intro x hx
      have hxq : x ∈ w.spool.pendingOrder := by
        rw [hq]
        exact hp.subset (List.mem_append_left _ hx)
      obtain ⟨r', hr', rfl, -⟩ := h.record_of_queued hxq
      exact List.mem_map_of_mem hr'
    obtain ⟨sus, hf⟩ := foldl_stampRecord w.spool.nextBatchId s
      { w.spool with pendingOrder := re, nextBatchId := w.spool.nextBatchId + 1 } [] []
      h.ids hr
    rw [hq] at hpo
    simp only [hpo, hs]
    simp only at hf
    simp only [hf, List.nil_append, if_neg hne]
    exact ⟨s, re, _, hp, by omega, rfl⟩

/-- Issuing a batch of queued ids keeps the invariant. -/
theorem Inv.issueBatch {w : World} (h : w.Inv) {s re : List ℕ}
    (hpe : (s ++ re).Perm w.spool.pendingOrder)
    (hmax : w.spool.nextBatchId < u64Max) (ss : WriteSpoolStats) :
    Inv { w with
      spool := issueBatch w.spool s re ss
      issued := w.issued ++ [w.spool.nextBatchId] } := by
  have hk := keepsAccounts_stampAll w.spool.nextBatchId s
  have hn := hpe.nodup_iff.mpr h.accounted.distinct
  rw [List.nodup_append] at hn
  obtain ⟨-, hre, hd⟩ := hn
  have hqu : ∀ id ∈ re, id ∈ w.spool.pendingOrder :=
    fun id hid => hpe.subset (List.mem_append_right _ hid)
  have hno : ∀ id ∈ re, id ∉ s := fun id hid hs => hd id hs id hid rfl
  have hu : w.spool.nextBatchId ∉ w.marked :=
    fun hm => Nat.lt_irrefl _ (h.issuedBound _ (h.markedIssued _ hm))
  refine ⟨⟨?_, hre, ?_, ?_⟩, ?_, ?_, h.idMax, ?_, ?_, ?_, hmax, ?_⟩
  · have hsu := (hpe.map (payloadOf w.spool.records)).sum_eq
    have hby := h.accounted.bytes
    simp only [List.map_append, List.sum_append] at hsu
    simp only [queuedBytes] at hby
    simp only [queuedBytes, World.issueBatch, stampAll, hk.payloadOf_map]
    omega
  · intro id hid
    obtain ⟨r, hr, rfl, hp, -⟩ := h.record_of_queued (hqu id hid)
    refine ⟨r, List.mem_map.mpr ⟨r, hr, if_neg (hno _ hid)⟩, rfl, hp⟩
  · intro r' hr' hp ho
    obtain ⟨r, hr, rfl⟩ := List.mem_map.mp hr'
    by_cases hs : r.requestId ∈ s
    · rw [if_pos hs] at ho
      refine absurd ⟨w.spool.nextBatchId, ?_, hu, rfl⟩ ho
      exact List.mem_append_right _ (List.mem_singleton_self _)
    · rw [if_neg hs] at hp ho ⊢
      have hq : r.requestId ∈ w.spool.pendingOrder := by
        refine h.accounted.complete r hr hp ?_
        rintro ⟨b, hb, hma, hrb⟩
        exact ho ⟨b, List.mem_append_left _ hb, hma, hrb⟩
      rcases List.mem_append.mp (hpe.symm.subset hq) with hq | hq
      · exact absurd hq hs
      · exact hq
  · simp only [World.issueBatch, stampAll, hk.map_requestId]
    exact h.ids
  · intro r' hr'
    obtain ⟨r, hr, rfl⟩ := List.mem_map.mp hr'
    rw [hk.requestId r]
    exact h.idBound r hr
  · intro r' hr' b hb
    obtain ⟨r, hr, rfl⟩ := List.mem_map.mp hr'
    by_cases hs : r.requestId ∈ s
    · rw [if_pos hs] at hb
      cases hb
      exact Nat.lt_succ_self _
    · rw [if_neg hs] at hb
      exact (h.batchBound r hr b hb).trans (Nat.lt_succ_self _)
  · intro b hb
    rcases List.mem_append.mp hb with hb | hb
    · exact (h.issuedBound b hb).trans (Nat.lt_succ_self _)
    · rw [List.mem_singleton.mp hb]
      exact Nat.lt_succ_self _
  · intro b hb
    exact List.mem_append_left _ (h.markedIssued b hb)
  · intro r' hr' hid b hb
    obtain ⟨r, hr, rfl⟩ := List.mem_map.mp hr'
    rw [hk.requestId r] at hid
    rw [if_neg (hno _ hid)] at hb
    intro hm
    rcases List.mem_append.mp hm with hm | hm
    · exact h.fresh r hr (hqu _ hid) b hb hm
    · rw [List.mem_singleton.mp hm] at hb
      exact Nat.lt_irrefl _ (h.batchBound r hr _ hb)

/-- The next batch keeps the invariant. -/
theorem Inv.nextBatch {w : World} (h : w.Inv) : (w.step .nextBatch).Inv := by
  rcases h.nextBatch_cases with hs | ⟨s, r, ss, hp, hm, hs⟩
  · rw [hs]
    exact h
  · rw [hs]
    exact h.issueBatch hp hm ss

/-! ### Restarts -/

/-- The queue and the counters after the recovery loop. -/
structure Recovered (s : WriteSpool) (records : List WriteSpoolRecord) (t : WriteSpool) : Prop where
  queue : t.pendingOrder = s.pendingOrder
    ++ (records.filter fun r => r.status = .pending).map WriteSpoolRecord.requestId
  bytes : s.pendingBytes ≤ u64Max → t.pendingBytes = min (s.pendingBytes
    + ((records.filter fun r => r.status = .pending).map WriteSpoolRecord.payloadBytes).sum) u64Max
  nextRequestId_le : s.nextRequestId ≤ u64Max → t.nextRequestId ≤ u64Max
  nextBatchId_le : s.nextBatchId ≤ u64Max → t.nextBatchId ≤ u64Max
  le_nextRequestId : s.nextRequestId ≤ t.nextRequestId
  le_nextBatchId : s.nextBatchId ≤ t.nextBatchId
  lt_nextRequestId : ∀ r ∈ records, r.requestId < u64Max → r.requestId < t.nextRequestId
  lt_nextBatchId : ∀ r ∈ records, ∀ b, r.batchId = some b → b < u64Max → b < t.nextBatchId

/-- Two recoveries in a row. -/
theorem Recovered.trans {s t u : WriteSpool} {l l' : List WriteSpoolRecord}
    (h : Recovered s l t) (h' : Recovered t l' u) : Recovered s (l ++ l') u where
  queue := by rw [h'.queue, h.queue, List.filter_append, List.map_append, List.append_assoc]
  bytes hle := by
    have ht := h.bytes hle
    rw [h'.bytes (by omega), ht, List.filter_append, List.map_append, List.sum_append]
    omega
  nextRequestId_le hle := h'.nextRequestId_le (h.nextRequestId_le hle)
  nextBatchId_le hle := h'.nextBatchId_le (h.nextBatchId_le hle)
  le_nextRequestId := h.le_nextRequestId.trans h'.le_nextRequestId
  le_nextBatchId := h.le_nextBatchId.trans h'.le_nextBatchId
  lt_nextRequestId r hr hlt := by
    rcases List.mem_append.mp hr with hr | hr
    · exact (h.lt_nextRequestId r hr hlt).trans_le h'.le_nextRequestId
    · exact h'.lt_nextRequestId r hr hlt
  lt_nextBatchId r hr b hb hlt := by
    rcases List.mem_append.mp hr with hr | hr
    · exact (h.lt_nextBatchId r hr b hb hlt).trans_le h'.le_nextBatchId
    · exact h'.lt_nextBatchId r hr b hb hlt

theorem nextRequestId_recoverRecord (s : WriteSpool) (r : WriteSpoolRecord) :
    (s.recoverRecord r).nextRequestId = max s.nextRequestId (min (r.requestId + 1) u64Max) := by
  unfold WriteSpool.recoverRecord
  cases r.status <;> rfl

theorem nextBatchId_recoverRecord (s : WriteSpool) (r : WriteSpoolRecord) :
    (s.recoverRecord r).nextBatchId = match r.batchId with
      | some b => max s.nextBatchId (min (b + 1) u64Max)
      | none => s.nextBatchId := by
  unfold WriteSpool.recoverRecord
  cases r.status <;> rfl

theorem recovered_recoverRecord (s : WriteSpool) (r : WriteSpoolRecord) :
    Recovered s [r] (s.recoverRecord r) := by
  have hn := nextRequestId_recoverRecord s r
  have hba := nextBatchId_recoverRecord s r
  refine ⟨?_, ?_, ?_, ?_, ?_, ?_, ?_, ?_⟩
  · unfold WriteSpool.recoverRecord
    cases hs : r.status <;> simp [hs]
  · intro hle
    unfold WriteSpool.recoverRecord
    cases hs : r.status <;> simp [hs, satAdd64, hle]
  · intro hle
    omega
  · intro hle
    rw [hba]
    split <;> omega
  · omega
  · rw [hba]
    split <;> omega
  · intro r' hr' hlt
    rw [List.mem_singleton.mp hr'] at hlt ⊢
    omega
  · intro r' hr' b hb hlt
    rw [List.mem_singleton.mp hr'] at hb
    rw [hba, hb]
    simp only
    omega

theorem recovered_foldl (records : List WriteSpoolRecord) :
    ∀ s : WriteSpool, Recovered s records (records.foldl WriteSpool.recoverRecord s) := by
  induction records with
  | nil =>
    intro s
    refine ⟨by simp, ?_, id, id, le_refl _, le_refl _, List.forall_mem_nil _,
      List.forall_mem_nil _⟩
    intro hle
    simpa using hle
  | cons r records ih =>
    intro s
    exact (recovered_recoverRecord s r).trans (ih _)

/-- **A restart keeps the accounts exactly when it is sound**, and then it keeps the
invariant. -/
theorem Inv.restart {w : World} (h : w.Inv) (c : WriteSpoolConfig) (sams : ℕ) :
    ((w.step (.restart c sams)).Accounted ↔ w.Sound (.restart c sams)) ∧
      (w.Sound (.restart c sams) → (w.step (.restart c sams)).Inv) := by
  have hpe : w.spool.recoveryRecords.Perm w.spool.records := List.perm_insertionSort _ _
  have hi := ((hpe.map WriteSpoolRecord.requestId).nodup_iff).mpr h.ids
  have hre := recovered_foldl w.spool.recoveryRecords (.new c sams)
  have hby := hre.bytes (Nat.zero_le _)
  have hq := hre.queue
  simp only [WriteSpool.new, List.nil_append, Nat.zero_add] at hq hby
  have hsu : ((w.spool.recoveryRecords.filter fun r => r.status = .pending).map
      WriteSpoolRecord.payloadBytes).sum = w.unfinishedBytes :=
    ((hpe.filter _).map _).sum_eq
  have hqu : (w.step (.restart c sams)).queuedBytes = w.unfinishedBytes := by
    rw [← hsu]
    unfold queuedBytes
    simp only [step, WriteSpool.fromRecoveryRecords, WriteSpool.new, hq, List.map_map]
    congr 1
    refine List.map_congr_left fun r hr => ?_
    exact payloadOf_requestId hi (List.mem_filter.mp hr).1
  have hc : (w.step (.restart c sams)).spool.pendingBytes = min w.unfinishedBytes u64Max := by
    rw [← hsu, ← hby]
    rfl
  have hif : (w.step (.restart c sams)).spool.pendingBytes
      = (w.step (.restart c sams)).queuedBytes ↔ w.Sound (.restart c sams) := by
    rw [hc, hqu]
    show min _ _ = _ ↔ w.unfinishedBytes ≤ u64Max
    omega
  have hm : ∀ id, id ∈ (w.step (.restart c sams)).spool.pendingOrder ↔
      ∃ r ∈ w.spool.recoveryRecords, r.status = .pending ∧ r.requestId = id := by
    intro id
    simp only [step, WriteSpool.fromRecoveryRecords, WriteSpool.new, hq, List.mem_map,
      List.mem_filter, decide_eq_true_eq, and_assoc]
  have hin : w.Sound (.restart c sams) → (w.step (.restart c sams)).Inv := by
    intro hs
    have ho : 1 ≤ u64Max := by decide
    refine ⟨⟨hif.mpr hs, ?_, ?_, ?_⟩, hi, ?_, hre.nextRequestId_le ho, ?_,
      List.forall_mem_nil _, List.forall_mem_nil _, hre.nextBatchId_le ho, ?_⟩
    · simp only [step, WriteSpool.fromRecoveryRecords, WriteSpool.new, hq]
      exact hi.sublist (List.filter_sublist.map _)
    · intro id hid
      obtain ⟨r, hr, hp, hri⟩ := (hm id).mp hid
      exact ⟨r, hr, hri, hp⟩
    · intro r hr hp _
      exact (hm _).mpr ⟨r, hr, hp, rfl⟩
    · intro r hr
      have hlt := h.idBound r (hpe.subset hr)
      exact hre.lt_nextRequestId r hr (hlt.trans_le h.idMax)
    · intro r hr b hb
      have hlt := h.batchBound r (hpe.subset hr) b hb
      exact hre.lt_nextBatchId r hr b hb (hlt.trans_le h.batchMax)
    · intro r _ _ b _ hm
      cases hm
  exact ⟨⟨fun ha => hif.mp ha.bytes, fun hs => (hin hs).accounted⟩, hin⟩

/-! ### Whole runs -/

/-- **One operation**: an allowed one keeps the accounts exactly when it is sound, and a
sound one keeps the invariant. -/
theorem Inv.step {w : World} (h : w.Inv) {op : Op} (hallowed : w.Allowed op) :
    ((w.step op).Accounted ↔ w.Sound op) ∧ (w.Sound op → (w.step op).Inv) := by
  have hkeeps : (w.step op).Inv → w.Sound op →
      ((w.step op).Accounted ↔ w.Sound op) ∧ (w.Sound op → (w.step op).Inv) :=
    fun hinv hsound => ⟨iff_of_true hinv.accounted hsound, fun _ => hinv⟩
  cases op with
  | enqueue intent nowMs => exact hkeeps (h.enqueue intent nowMs) trivial
  | nextBatch => exact hkeeps h.nextBatch trivial
  | markBatchCommitted batchId nowMs =>
    have hfinish : Finishes fun r =>
        { r with status := .committed, terminalAtMs := some nowMs } :=
      ⟨⟨fun _ => rfl, fun _ => rfl⟩, fun _ => rfl, fun _ => by simp⟩
    exact hkeeps (h.mark hallowed hfinish _) trivial
  | markBatchFailed batchId nowMs message =>
    have hfinish : Finishes fun r =>
        { r with status := .failed, terminalAtMs := some nowMs, failure := some message } :=
      ⟨⟨fun _ => rfl, fun _ => rfl⟩, fun _ => rfl, fun _ => by simp⟩
    exact hkeeps (h.mark hallowed hfinish _) trivial
  | cancelPending requestId nowMs => exact h.cancel requestId nowMs
  | restart config startedAtMs => exact h.restart config startedAtMs

/-- A run of allowed and sound operations keeps the invariant. -/
theorem Inv.run {ops : List Op} : ∀ {w : World}, w.Inv → Meets Allowed w ops →
    Meets Sound w ops → (w.run ops).Inv := by
  induction ops with
  | nil => intro w h _ _; exact h
  | cons op ops ih =>
    rintro w h ⟨ha, ha'⟩ ⟨hs, hs'⟩
    exact ih ((h.step ha).2 hs) ha' hs'

theorem meets_concat {C : World → Op → Prop} {op : Op} {ops : List Op} : ∀ {w : World},
    Meets C w (ops ++ [op]) ↔ Meets C w ops ∧ C (w.run ops) op := by
  induction ops with
  | nil =>
    intro w
    show C w op ∧ True ↔ True ∧ C w op
    rw [and_true, true_and]
  | cons o ops ih =>
    intro w
    show C w o ∧ Meets C (w.step o) (ops ++ [op]) ↔ _
    rw [ih, ← and_assoc]
    rfl

/-- **The spool keeps its accounts in every run of sound operations**, restarts included,
and no further: the next allowed operation keeps them exactly when it is sound. -/
theorem accounts_kept_iff_sound (config : WriteSpoolConfig) (startedAtMs : ℕ) (ops : List Op)
    (op : Op) (hallowed : Meets Allowed (new config startedAtMs) (ops ++ [op]))
    (hsound : Meets Sound (new config startedAtMs) ops) :
    ((new config startedAtMs).run ops).Accounted ∧
      (((new config startedAtMs).run (ops ++ [op])).Accounted ↔
        ((new config startedAtMs).run ops).Sound op) := by
  obtain ⟨hallowed, hl⟩ := meets_concat.mp hallowed
  have hi := (inv_new config startedAtMs).run hallowed hsound
  refine ⟨hi.accounted, ?_⟩
  rw [show (new config startedAtMs).run (ops ++ [op])
    = ((new config startedAtMs).run ops).step op from List.foldl_concat _ _ _ _]
  exact (hi.step hl).1

/-- A spool for a few writes. -/
def sampleConfig : WriteSpoolConfig := ⟨10, 10, 1000, 1000⟩

/-- A write of ten bytes. -/
def sampleIntent : WriteSpoolIntent := ⟨"k", "w", .remember, .batched, 10, "remember:k"⟩

/-- A write that is drained, recovered after a crash and drained again. -/
theorem accounts_kept_iff_sound_restart :
    ((new sampleConfig 0).run
        [.enqueue sampleIntent 1, .nextBatch, .restart sampleConfig 2]).Accounted ∧
      (((new sampleConfig 0).run ([Op.enqueue sampleIntent 1, .nextBatch, .restart sampleConfig 2]
          ++ [Op.nextBatch])).Accounted ↔
        ((new sampleConfig 0).run
          [.enqueue sampleIntent 1, .nextBatch, .restart sampleConfig 2]).Sound .nextBatch) :=
  accounts_kept_iff_sound sampleConfig 0
    [.enqueue sampleIntent 1, .nextBatch, .restart sampleConfig 2] .nextBatch
    ⟨trivial, trivial, trivial, trivial, trivial⟩
    ⟨trivial, trivial, by unfold Sound; decide +kernel, trivial⟩

/-- **A cancellation after a restart breaks the accounts**: the recovered write is queued
and remembers its old batch, so its ten bytes stay in the counter of an empty queue. -/
theorem cancel_after_restart_leaks : Meets Allowed (new sampleConfig 0)
        [.enqueue sampleIntent 1, .nextBatch, .restart sampleConfig 2, .cancelPending 1 3] ∧
      ¬ ((new sampleConfig 0).run [.enqueue sampleIntent 1, .nextBatch, .restart sampleConfig 2,
          .cancelPending 1 3]).Accounted := by
  refine ⟨⟨trivial, trivial, trivial, trivial, trivial⟩, ?_⟩
  intro h
  have hb := h.bytes
  revert hb
  decide +kernel

end World

end Spool
