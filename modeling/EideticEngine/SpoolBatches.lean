/-
# Batches of the write spool

Between two restarts the spool hands every accepted write to at most one batch.  A batch takes
the oldest queued write and, if that is not to be written alone, the next queued writes of its
class, whatever stands between them in the queue.  The invariant links the queue, the table of
records, the table of idempotency keys and the batches issued so far.
-/
import EideticEngine.WriteSpool

namespace Spool

/-! ## Runs between two restarts -/

/-- A call of the spool. -/
inductive Call where
  | enqueue (intent : WriteSpoolIntent) (nowMs : ℕ)
  | nextBatch
  | markBatchCommitted (batchId nowMs : ℕ)
  | markBatchFailed (batchId nowMs : ℕ) (message : String)
  | cancelPending (requestId nowMs : ℕ)

/-- The spool with the batches that it has issued, the first one first. -/
structure Ledger where
  spool : WriteSpool
  batches : List WriteSpoolBatch

namespace Ledger

/-- One call; the batch that it returns is noted. -/
def step (l : Ledger) : Call → Ledger
  | .enqueue intent nowMs => { l with spool := (l.spool.enqueue intent nowMs).2 }
  | .nextBatch =>
    match l.spool.nextBatch with
    | (.ok (some batch), spool) => ⟨spool, l.batches ++ [batch]⟩
    | (_, spool) => { l with spool }
  | .markBatchCommitted batchId nowMs =>
    { l with spool := (l.spool.markBatchCommitted batchId nowMs).2 }
  | .markBatchFailed batchId nowMs message =>
    { l with spool := (l.spool.markBatchFailed batchId nowMs message).2 }
  | .cancelPending requestId nowMs =>
    { l with spool := (l.spool.cancelPending requestId nowMs).2 }

/-- An empty spool that has issued nothing. -/
def new (config : WriteSpoolConfig) (startedAtMs : ℕ) : Ledger := ⟨.new config startedAtMs, []⟩

/-- The ledger after some calls. -/
def run (l : Ledger) (calls : List Call) : Ledger := calls.foldl step l

end Ledger

/-- The class of the records of a batch. -/
def WriteSpoolBatch.batchKey (b : WriteSpoolBatch) : WriteSpoolBatchKey :=
  ⟨b.workspaceId, b.kind, b.durability⟩

/-- The class of the record with an id. -/
def classOf (records : List WriteSpoolRecord) (id : ℕ) : Option WriteSpoolBatchKey :=
  (records.find? fun r => r.requestId = id).map WriteSpoolRecord.batchKey

/-- The ids of a class, in their order. -/
def ofClass (records : List WriteSpoolRecord) (key : WriteSpoolBatchKey) (ids : List ℕ) : List ℕ :=
  ids.filter fun id => classOf records id = some key

/-- The ids that batches of a class took, the first batch first. -/
def takenOfClass (batches : List WriteSpoolBatch) (key : WriteSpoolBatchKey) : List ℕ :=
  (batches.filter fun b => b.batchKey = key).flatMap WriteSpoolBatch.requestIds

/-- The number of records with a status. -/
def countStatus (records : List WriteSpoolRecord) (status : WriteSpoolRecordStatus) : ℕ :=
  records.countP fun r => r.status = status

/-! ## The invariant -/

/-- The record table: ids count up from one, and every key belongs to one record. -/
structure Registered (s : WriteSpool) : Prop where
  next : s.nextRequestId = s.records.length + 1
  idMax : s.nextRequestId ≤ u64Max
  ids : (s.records.map WriteSpoolRecord.requestId).Pairwise (· < ·)
  idBound : ∀ r ∈ s.records, r.requestId < s.nextRequestId
  keys : (s.records.map WriteSpoolRecord.idempotencyKey).Nodup
  table : ∀ key id, s.idempotency key = some id ↔
    ∃ r ∈ s.records, r.idempotencyKey = key ∧ r.requestId = id

/-- The queue: the pending records that are in no batch, the oldest first, within the limits. -/
structure Queued (s : WriteSpool) : Prop where
  sorted : s.pendingOrder.Pairwise (· < ·)
  registered : ∀ id ∈ s.pendingOrder, ∃ r ∈ s.records, r.requestId = id
  mem_iff : ∀ r ∈ s.records,
    r.requestId ∈ s.pendingOrder ↔ r.batchId = none ∧ r.status = .pending
  bytes : s.pendingBytes = (s.pendingOrder.map (World.payloadOf s.records)).sum
  depth : s.pendingOrder.length ≤ s.config.maxPending
  bytesLimit : s.pendingBytes ≤ s.config.maxPendingBytes

/-- The counters: one for every way in which a record ends. -/
structure Counted (s : WriteSpool) : Prop where
  enqueued : s.stats.totalEnqueued = s.records.length
  committed : s.stats.totalCommitted = countStatus s.records .committed
  cancelled : s.stats.totalCancelled = countStatus s.records .cancelled
  failed : s.stats.totalFailed = countStatus s.records .failed

/-- The batches: they took different records, of one class each, and of every class the oldest
first. -/
structure Batched (s : WriteSpool) (batches : List WriteSpoolBatch) : Prop where
  members : ∀ b ∈ batches, ∀ id ∈ b.requestIds, ∃ r ∈ s.records,
    r.requestId = id ∧ r.batchKey = b.batchKey ∧ r.batchId ≠ none
  distinct : (batches.flatMap WriteSpoolBatch.requestIds).Nodup
  size : ∀ b ∈ batches, b.requestIds.length ≤ max 1 s.config.maxBatchSize
  alone : ∀ b ∈ batches, b.durability = .immediate → ∃ id, b.requestIds = [id]
  order : ∀ key, (takenOfClass batches key
    ++ ofClass s.records key s.pendingOrder).Pairwise (· < ·)

/-- The invariant of a run without a restart. -/
structure Ledger.Inv (config : WriteSpoolConfig) (l : Ledger) : Prop where
  config_eq : l.spool.config = config
  registered : Registered l.spool
  queued : Queued l.spool
  counted : Counted l.spool
  batched : Batched l.spool l.batches

theorem Ledger.inv_new (config : WriteSpoolConfig) (sams : ℕ) :
    (Ledger.new config sams).Inv config where
  config_eq := rfl
  registered := by
    refine ⟨rfl, show 1 ≤ u64Max by decide, List.Pairwise.nil, List.forall_mem_nil _,
      List.nodup_nil, ?_⟩
    intro key id
    simp [Ledger.new, WriteSpool.new]
  queued := ⟨List.Pairwise.nil, List.forall_mem_nil _, List.forall_mem_nil _, rfl,
    Nat.zero_le _, Nat.zero_le _⟩
  counted := ⟨rfl, rfl, rfl, rfl⟩
  batched := ⟨List.forall_mem_nil _, List.nodup_nil, List.forall_mem_nil _,
    List.forall_mem_nil _, fun _ => List.Pairwise.nil⟩

/-! ## Records under their ids -/

section Tables

variable {s s' : WriteSpool} {batches : List WriteSpoolBatch} {records : List WriteSpoolRecord}

theorem Registered.nodup (h : Registered s) : (s.records.map WriteSpoolRecord.requestId).Nodup :=
  h.ids.imp fun hlt => hlt.ne

theorem Registered.record_eq (h : Registered s) {r : WriteSpoolRecord} (hr : r ∈ s.records) :
    s.record r.requestId = some r :=
  find?_requestId h.nodup hr

theorem classOf_requestId (hi : (records.map WriteSpoolRecord.requestId).Nodup)
    {r : WriteSpoolRecord} (hr : r ∈ records) : classOf records r.requestId = some r.batchKey := by
  rw [classOf, find?_requestId hi hr]
  rfl

/-- A change of a record that keeps who it is and what it asks for. -/
structure KeepsIdentity (g : WriteSpoolRecord → WriteSpoolRecord) : Prop
    extends KeepsAccounts g where
  idempotencyKey : ∀ r, (g r).idempotencyKey = r.idempotencyKey
  batchKey : ∀ r, (g r).batchKey = r.batchKey

theorem KeepsIdentity.classOf_map {g : WriteSpoolRecord → WriteSpoolRecord}
    (hg : KeepsIdentity g) (records : List WriteSpoolRecord) (id : ℕ) :
    classOf (records.map g) id = classOf records id := by
  simp only [classOf, List.find?_map, Function.comp_def, hg.requestId, Option.map_map,
    hg.batchKey]

theorem KeepsIdentity.map_idempotencyKey {g : WriteSpoolRecord → WriteSpoolRecord}
    (hg : KeepsIdentity g) (records : List WriteSpoolRecord) :
    (records.map g).map WriteSpoolRecord.idempotencyKey
      = records.map WriteSpoolRecord.idempotencyKey := by
  rw [List.map_map]
  exact List.map_congr_left fun r _ => hg.idempotencyKey r

/-- The table does not see a change that keeps identities. -/
theorem Registered.map (h : Registered s) {g : WriteSpoolRecord → WriteSpoolRecord}
    (hg : KeepsIdentity g) (hn : s'.nextRequestId = s.nextRequestId)
    (ht : s'.idempotency = s.idempotency) (hre : s'.records = s.records.map g) :
    Registered s' where
  next := by rw [hn, hre, List.length_map, h.next]
  idMax := by
    rw [hn]
    exact h.idMax
  ids := by
    rw [hre, hg.map_requestId]
    exact h.ids
  idBound r' hr' := by
    rw [hre] at hr'
    obtain ⟨r, hr, rfl⟩ := List.mem_map.mp hr'
    rw [hg.requestId, hn]
    exact h.idBound r hr
  keys := by
    rw [hre, hg.map_idempotencyKey]
    exact h.keys
  table key id := by
    rw [ht, hre, h.table]
    constructor
    · rintro ⟨r, hr, hk, hid⟩
      exact ⟨g r, List.mem_map_of_mem hr, by rw [hg.idempotencyKey, hk], by rw [hg.requestId, hid]⟩
    · rintro ⟨r', hr', hk, hid⟩
      obtain ⟨r, hr, rfl⟩ := List.mem_map.mp hr'
      exact ⟨r, hr, by rw [← hk, hg.idempotencyKey], by rw [← hid, hg.requestId]⟩

/-- The batches do not see a change that keeps identities and memberships, nor a queue that
loses ids. -/
theorem Batched.map (h : Batched s batches) {g : WriteSpoolRecord → WriteSpoolRecord}
    (hg : KeepsIdentity g) (hba : ∀ r, r.batchId ≠ none → (g r).batchId ≠ none)
    (hc : s'.config = s.config) (hre : s'.records = s.records.map g)
    (hq : s'.pendingOrder.Sublist s.pendingOrder) : Batched s' batches where
  members b hb id hid := by
    obtain ⟨r, hr, hri, hk, hbat⟩ := h.members b hb id hid
    refine ⟨g r, by rw [hre]; exact List.mem_map_of_mem hr, ?_, ?_, hba r hbat⟩
    · rw [hg.requestId, hri]
    · rw [hg.batchKey, hk]
  distinct := h.distinct
  size b hb := by
    rw [hc]
    exact h.size b hb
  alone := h.alone
  order key := by
    refine List.Pairwise.sublist (List.Sublist.append_left ?_ _) (h.order key)
    rw [hre]
    unfold ofClass
    simp only [hg.classOf_map]
    exact hq.filter _

/-- The queue does not see a change that keeps who is pending and in no batch. -/
theorem Queued.map (h : Queued s) {g : WriteSpoolRecord → WriteSpoolRecord} (hg : KeepsIdentity g)
    (hm : ∀ r ∈ s.records, ((g r).batchId = none ∧ (g r).status = .pending) ↔
      (r.batchId = none ∧ r.status = .pending))
    (hq : s'.pendingOrder = s.pendingOrder) (hb : s'.pendingBytes = s.pendingBytes)
    (hc : s'.config = s.config) (hre : s'.records = s.records.map g) : Queued s' where
  sorted := by
    rw [hq]
    exact h.sorted
  registered id hid := by
    rw [hq] at hid
    obtain ⟨r, hr, hri⟩ := h.registered id hid
    exact ⟨g r, by rw [hre]; exact List.mem_map_of_mem hr, by rw [hg.requestId, hri]⟩
  mem_iff r' hr' := by
    rw [hre] at hr'
    obtain ⟨r, hr, rfl⟩ := List.mem_map.mp hr'
    rw [hq, hg.requestId, h.mem_iff r hr, hm r hr]
  bytes := by rw [hq, hb, hre, hg.payloadOf_map, h.bytes]
  depth := by
    rw [hq, hc]
    exact h.depth
  bytesLimit := by
    rw [hb, hc]
    exact h.bytesLimit

/-! ## Marks -/

/-- A change of a pending record to a final status. -/
structure Ends (status : WriteSpoolRecordStatus) (f : WriteSpoolRecord → WriteSpoolRecord) : Prop
    extends KeepsIdentity f where
  batchId : ∀ r, (f r).batchId = r.batchId
  status_eq : ∀ r, (f r).status = status

/-- The change where a condition holds. -/
def changeIf (p : WriteSpoolRecord → Bool) (f : WriteSpoolRecord → WriteSpoolRecord)
    (r : WriteSpoolRecord) : WriteSpoolRecord :=
  if p r then f r else r

theorem KeepsIdentity.changeIf {f : WriteSpoolRecord → WriteSpoolRecord} (hf : KeepsIdentity f)
    (p : WriteSpoolRecord → Bool) : KeepsIdentity (changeIf p f) where
  requestId r := by
    unfold Spool.changeIf
    split
    · exact hf.requestId r
    · rfl
  payloadBytes r := by
    unfold Spool.changeIf
    split
    · exact hf.payloadBytes r
    · rfl
  idempotencyKey r := by
    unfold Spool.changeIf
    split
    · exact hf.idempotencyKey r
    · rfl
  batchKey r := by
    unfold Spool.changeIf
    split
    · exact hf.batchKey r
    · rfl

theorem Ends.batchId_changeIf {status : WriteSpoolRecordStatus}
    {f : WriteSpoolRecord → WriteSpoolRecord} (hf : Ends status f)
    (p : WriteSpoolRecord → Bool) (r : WriteSpoolRecord) :
    (changeIf p f r).batchId = r.batchId := by
  unfold changeIf
  split
  · exact hf.batchId r
  · rfl

/-- Ending pending records moves them to the count of the final status. -/
theorem countStatus_changeIf {status : WriteSpoolRecordStatus}
    {f : WriteSpoolRecord → WriteSpoolRecord} (hf : Ends status f)
    {p : WriteSpoolRecord → Bool} (other : WriteSpoolRecordStatus) (ho : other ≠ .pending)
    (hp : ∀ r ∈ records, p r = true → r.status = .pending) :
    countStatus (records.map (changeIf p f)) other
      = countStatus records other + if other = status then records.countP p else 0 := by
  induction records with
  | nil => simp [countStatus]
  | cons r re ih =>
    have hre := ih fun r hr => hp r (List.mem_cons_of_mem _ hr)
    have hh := hp r List.mem_cons_self
    unfold countStatus at hre ⊢
    rw [List.map_cons, List.countP_cons, List.countP_cons, List.countP_cons, hre]
    unfold changeIf
    cases hpr : p r with
    | true =>
      have hpe := hh hpr
      rw [if_pos rfl, hf.status_eq, hpe]
      by_cases heq : other = status
      · simp only [heq, if_true, decide_true]
        rw [← heq]
        simp only [decide_eq_true_eq, ho.symm, if_false]
        omega
      · simp [Ne.symm heq, heq, ho.symm]
    | false =>
      simp only [Bool.false_eq_true, if_false, Nat.add_zero]
      omega

theorem countStatus_le_length (records : List WriteSpoolRecord) (status : WriteSpoolRecordStatus) :
    countStatus records status ≤ records.length := List.countP_le_length

/-- A counter of records does not saturate. -/
theorem Registered.satAdd64_eq (h : Registered s) {n m k : ℕ} (hk : n + m = k)
    (hle : k ≤ s.records.length) : satAdd64 n m = k := by
  rw [satAdd64, hk]
  have hn := h.next
  have hm := h.idMax
  exact Nat.min_eq_left (by omega)

/-- The records that a mark ends are in a batch and pending. -/
theorem inBatch_iff {batchId : ℕ} {r : WriteSpoolRecord} :
    WriteSpool.inBatch batchId r = true ↔ r.batchId = some batchId ∧ r.status = .pending := by
  simp [WriteSpool.inBatch]

end Tables

namespace Ledger

variable {config : WriteSpoolConfig} {l : Ledger}

/-- A mark of any batch keeps the invariant, when the counters follow. -/
theorem Inv.mark (h : l.Inv config) {status : WriteSpoolRecordStatus}
    {f : WriteSpoolRecord → WriteSpoolRecord} (hf : Ends status f) (batchId : ℕ)
    {spool : WriteSpool} (hconfig : spool.config = l.spool.config)
    (hnext : spool.nextRequestId = l.spool.nextRequestId)
    (htable : spool.idempotency = l.spool.idempotency)
    (hqueue : spool.pendingOrder = l.spool.pendingOrder)
    (hbytes : spool.pendingBytes = l.spool.pendingBytes)
    (hrecords : spool.records = l.spool.records.map (changeIf (WriteSpool.inBatch batchId) f))
    (hcounted : Counted spool) : Inv config { l with spool } where
  config_eq := hconfig.trans h.config_eq
  registered := h.registered.map (hf.toKeepsIdentity.changeIf _) hnext htable hrecords
  queued := by
    refine h.queued.map (hf.toKeepsIdentity.changeIf _) ?_ hqueue hbytes hconfig hrecords
    intro r _
    rw [hf.batchId_changeIf]
    refine and_congr_right fun hnone => ?_
    -- the mark reaches only records of a batch
    have hout : WriteSpool.inBatch batchId r = false := by
      rw [Bool.eq_false_iff, ne_eq, inBatch_iff, hnone]
      simp
    rw [changeIf, hout]
    rfl
  counted := hcounted
  batched := by
    refine h.batched.map (hf.toKeepsIdentity.changeIf _) ?_ hconfig hrecords
      (hqueue ▸ List.Sublist.refl _)
    intro r hr
    rw [hf.batchId_changeIf]
    exact hr

/-- The counters after a mark. -/
theorem countStatus_mark {status : WriteSpoolRecordStatus}
    {f : WriteSpoolRecord → WriteSpoolRecord} (hf : Ends status f)
    (records : List WriteSpoolRecord) (batchId : ℕ) (other : WriteSpoolRecordStatus)
    (ho : other ≠ .pending) :
    countStatus (records.map (changeIf (WriteSpool.inBatch batchId) f)) other
      = countStatus records other
        + if other = status then records.countP (WriteSpool.inBatch batchId) else 0 :=
  countStatus_changeIf hf other ho fun _ _ hin => (inBatch_iff.mp hin).2

/-- A record that is committed. -/
def committedAt (nowMs : ℕ) (r : WriteSpoolRecord) : WriteSpoolRecord :=
  { r with status := .committed, terminalAtMs := some nowMs }

/-- A record that failed. -/
def failedAt (nowMs : ℕ) (message : String) (r : WriteSpoolRecord) : WriteSpoolRecord :=
  { r with status := .failed, terminalAtMs := some nowMs, failure := some message }

theorem ends_committedAt (nowMs : ℕ) : Ends .committed (committedAt nowMs) :=
  ⟨⟨⟨fun _ => rfl, fun _ => rfl⟩, fun _ => rfl, fun _ => rfl⟩, fun _ => rfl, fun _ => rfl⟩

theorem ends_failedAt (nowMs : ℕ) (message : String) : Ends .failed (failedAt nowMs message) :=
  ⟨⟨⟨fun _ => rfl, fun _ => rfl⟩, fun _ => rfl, fun _ => rfl⟩, fun _ => rfl, fun _ => rfl⟩

theorem ends_cancelled (nowMs : ℕ) : Ends .cancelled (World.cancelled nowMs) :=
  ⟨⟨⟨fun _ => rfl, fun _ => rfl⟩, fun _ => rfl, fun _ => rfl⟩, fun _ => rfl, fun _ => rfl⟩

/-- A commit keeps the books of the spool. -/
theorem Inv.markBatchCommitted (h : l.Inv config) (batchId nowMs : ℕ) :
    (l.step (.markBatchCommitted batchId nowMs)).Inv config := by
  have hf := ends_committedAt nowMs
  have hcount := countStatus_mark hf l.spool.records batchId
  refine h.mark hf batchId rfl rfl rfl rfl rfl rfl ⟨?_, ?_, ?_, ?_⟩
  · show l.spool.stats.totalEnqueued = (l.spool.records.map _).length
    rw [List.length_map]
    exact h.counted.enqueued
  · have hsum := hcount .committed (by decide)
    rw [if_pos rfl] at hsum
    refine h.registered.satAdd64_eq ?_ ?_
    · rw [h.counted.committed]
      exact hsum.symm
    · refine (countStatus_le_length _ _).trans ?_
      exact (List.length_map _).le
  · exact h.counted.cancelled.trans (hcount .cancelled (by decide)).symm
  · exact h.counted.failed.trans (hcount .failed (by decide)).symm

/-- A failure keeps the books of the spool. -/
theorem Inv.markBatchFailed (h : l.Inv config) (batchId nowMs : ℕ) (message : String) :
    (l.step (.markBatchFailed batchId nowMs message)).Inv config := by
  have hf := ends_failedAt nowMs message
  have hcount := countStatus_mark hf l.spool.records batchId
  refine h.mark hf batchId rfl rfl rfl rfl rfl rfl ⟨?_, ?_, ?_, ?_⟩
  · show l.spool.stats.totalEnqueued = (l.spool.records.map _).length
    rw [List.length_map]
    exact h.counted.enqueued
  · exact h.counted.committed.trans (hcount .committed (by decide)).symm
  · exact h.counted.cancelled.trans (hcount .cancelled (by decide)).symm
  · have hsum := hcount .failed (by decide)
    rw [if_pos rfl] at hsum
    refine h.registered.satAdd64_eq ?_ ?_
    · rw [h.counted.failed]
      exact hsum.symm
    · refine (countStatus_le_length _ _).trans ?_
      exact (List.length_map _).le

/-! ### Cancellation -/

/-- One record has an id. -/
theorem countP_requestId {records : List WriteSpoolRecord}
    (hi : (records.map WriteSpoolRecord.requestId).Nodup) {r : WriteSpoolRecord}
    (hr : r ∈ records) : records.countP (fun x => decide (x.requestId = r.requestId)) = 1 := by
  have ho := List.count_eq_one_of_mem hi (List.mem_map_of_mem hr)
  rw [List.count, List.countP_map] at ho
  rw [← ho]
  congr 1

/-- A queue without an id. -/
theorem Inv.queued_cancel (h : l.Inv config) {r : WriteSpoolRecord} (hr : r ∈ l.spool.records)
    (hp : r.status = .pending) (nowMs : ℕ) {spool : WriteSpool}
    (hc : spool.config = l.spool.config)
    (hq : spool.pendingOrder = l.spool.pendingOrder.filter fun id => id ≠ r.requestId)
    (hby : spool.pendingBytes = if r.batchId.isNone then
      l.spool.pendingBytes - r.payloadBytes else l.spool.pendingBytes)
    (hre : spool.records = l.spool.records.map
      (changeIf (fun x => x.requestId = r.requestId) (World.cancelled nowMs))) :
    Queued spool := by
  have hk := (ends_cancelled nowMs).toKeepsIdentity.changeIf
    fun x => decide (x.requestId = r.requestId)
  have hpa : World.payloadOf l.spool.records r.requestId = r.payloadBytes :=
    payloadOf_requestId h.registered.nodup hr
  have hsu : spool.pendingBytes = (spool.pendingOrder.map
    (World.payloadOf l.spool.records)).sum := by
    have ho := h.queued.bytes
    rw [hq, hby]
    cases hb : r.batchId with
    | none =>
      have hid : r.requestId ∈ l.spool.pendingOrder := (h.queued.mem_iff r hr).mpr ⟨hb, hp⟩
      have hsp := World.sum_filter_ne (h.queued.sorted.imp fun hlt => hlt.ne)
        (World.payloadOf l.spool.records) hid
      rw [Option.isNone_none, if_pos rfl]
      omega
    | some b =>
      have hid : r.requestId ∉ l.spool.pendingOrder := by
        rw [h.queued.mem_iff r hr, hb]
        simp
      have hse : (l.spool.pendingOrder.filter fun id => id ≠ r.requestId)
          = l.spool.pendingOrder := by
        rw [List.filter_eq_self]
        intro x hx
        have hne : x ≠ r.requestId := fun heq => hid (heq ▸ hx)
        simpa using hne
      rw [hse, Option.isNone_some]
      exact ho
  refine ⟨?_, ?_, ?_, ?_, ?_, ?_⟩
  · rw [hq]
    exact h.queued.sorted.filter _
  · intro id hid
    rw [hq] at hid
    obtain ⟨x, hx, hxi⟩ := h.queued.registered id (List.mem_filter.mp hid).1
    exact ⟨_, by rw [hre]; exact List.mem_map_of_mem hx, by rw [hk.requestId, hxi]⟩
  · intro x' hx'
    rw [hre] at hx'
    obtain ⟨x, hx, rfl⟩ := List.mem_map.mp hx'
    rw [hk.requestId, hq, List.mem_filter]
    by_cases hxi : x.requestId = r.requestId
    · have hch : changeIf (fun x => decide (x.requestId = r.requestId))
          (World.cancelled nowMs) x = World.cancelled nowMs x := if_pos (by simpa using hxi)
      rw [hch]
      simp [hxi, World.cancelled]
    · have hs : changeIf (fun x => decide (x.requestId = r.requestId))
          (World.cancelled nowMs) x = x := if_neg (by simpa using hxi)
      rw [hs, h.queued.mem_iff x hx]
      simp [hxi]
  · rw [hre, hk.payloadOf_map, hsu]
  · rw [hq, hc]
    exact (List.length_filter_le _ _).trans h.queued.depth
  · have hle : spool.pendingBytes ≤ l.spool.pendingBytes := by
      rw [hby]
      split <;> omega
    rw [hc]
    exact hle.trans h.queued.bytesLimit

/-- A cancellation keeps the books of the spool. -/
theorem Inv.cancelPending (h : l.Inv config) (requestId nowMs : ℕ) :
    (l.step (.cancelPending requestId nowMs)).Inv config := by
  simp only [step, WriteSpool.cancelPending]
  cases hrec : l.spool.record requestId with
  | none => exact h
  | some r =>
    obtain ⟨hr, rfl⟩ := World.record_eq_some hrec
    by_cases ht : r.status.isTerminal = true
    · simp only [if_pos ht]
      exact h
    · have hp := World.status_of_not_isTerminal ht
      have hf := ends_cancelled nowMs
      have hre : WriteSpool.updateRecord r.requestId
          (fun r => { r with status := .cancelled, terminalAtMs := some nowMs }) l.spool.records
          = l.spool.records.map
            (changeIf (fun x => x.requestId = r.requestId) (World.cancelled nowMs)) := by
        rw [updateRecord_eq_map h.registered.nodup]
        refine List.map_congr_left fun x _ => ?_
        simp only [changeIf, decide_eq_true_eq]
        rfl
      have hco : ∀ other, other ≠ .pending → countStatus (l.spool.records.map
            (changeIf (fun x => x.requestId = r.requestId) (World.cancelled nowMs))) other
          = countStatus l.spool.records other + if other = .cancelled then 1 else 0 := by
        intro other ho
        rw [← countP_requestId h.registered.nodup hr]
        refine countStatus_changeIf hf other ho ?_
        intro x hx hxi
        rw [eq_of_requestId h.registered.nodup hx hr (by simpa using hxi)]
        exact hp
      simp only [if_neg ht]
      refine ⟨h.config_eq, ?_, ?_, ?_, ?_⟩
      · exact h.registered.map (hf.toKeepsIdentity.changeIf _) rfl rfl hre
      · exact h.queued_cancel hr hp nowMs rfl rfl rfl hre
      · have hc := hco .cancelled (by decide)
        rw [if_pos rfl] at hc
        refine ⟨?_, ?_, ?_, ?_⟩
        · show _ = (WriteSpool.updateRecord _ _ _).length
          rw [hre, List.length_map]
          exact h.counted.enqueued
        · show _ = countStatus (WriteSpool.updateRecord _ _ _) _
          rw [hre, hco .committed (by decide)]
          exact h.counted.committed
        · show satAdd64 _ 1 = countStatus (WriteSpool.updateRecord _ _ _) _
          rw [hre]
          refine h.registered.satAdd64_eq ?_ ?_
          · rw [h.counted.cancelled, hc]
          · exact (countStatus_le_length _ _).trans (List.length_map _).le
        · show _ = countStatus (WriteSpool.updateRecord _ _ _) _
          rw [hre, hco .failed (by decide)]
          exact h.counted.failed
      · refine h.batched.map (hf.toKeepsIdentity.changeIf _) ?_ rfl hre List.filter_sublist
        intro x hx
        rw [hf.batchId_changeIf]
        exact hx

/-! ### Enqueue -/

/-- A new record leaves the classes of the older ids. -/
theorem classOf_concat {records : List WriteSpoolRecord} {r : WriteSpoolRecord} {id : ℕ}
    (hid : id ≠ r.requestId) : classOf (records ++ [r]) id = classOf records id := by
  have hl : [r].find? (fun x => x.requestId = id) = none := by
    simp [hid.symm]
  simp only [classOf, List.find?_append, hl, Option.or_none]

theorem Inv.registered_enqueue (h : l.Inv config) {intent : WriteSpoolIntent} (nowMs : ℕ)
    (hk : ∀ r ∈ l.spool.records, r.idempotencyKey ≠ intent.idempotencyKey)
    (hne : l.spool.nextRequestId + 1 ≤ u64Max) {spool : WriteSpool}
    (hn' : spool.nextRequestId = l.spool.nextRequestId + 1)
    (ht : spool.idempotency = Function.update l.spool.idempotency intent.idempotencyKey
      (some l.spool.nextRequestId))
    (hre : spool.records = l.spool.records
      ++ [WriteSpoolRecord.fromIntent l.spool.nextRequestId intent nowMs]) : Registered spool where
  next := by
    rw [hn', hre, List.length_append, h.registered.next]
    rfl
  idMax := by
    rw [hn']
    exact hne
  ids := by
    rw [hre, List.map_append, List.pairwise_append]
    refine ⟨h.registered.ids, List.pairwise_singleton _ _, ?_⟩
    intro id hid new hn
    obtain ⟨r, hr, rfl⟩ := List.mem_map.mp hid
    rw [List.map_singleton, List.mem_singleton] at hn
    rw [hn]
    exact h.registered.idBound r hr
  idBound r hr := by
    rw [hre] at hr
    rw [hn']
    rcases List.mem_append.mp hr with hr | hr
    · exact (h.registered.idBound r hr).trans (Nat.lt_succ_self _)
    · rw [List.mem_singleton.mp hr]
      exact Nat.lt_succ_self _
  keys := by
    rw [hre, List.map_append, List.nodup_append]
    refine ⟨h.registered.keys, List.nodup_singleton _, ?_⟩
    intro key ho k' hn
    obtain ⟨r, hr, rfl⟩ := List.mem_map.mp ho
    rw [List.map_singleton, List.mem_singleton] at hn
    rw [hn]
    exact hk r hr
  table key id := by
    rw [ht, hre, Function.update_apply]
    by_cases hs : key = intent.idempotencyKey
    · rw [if_pos hs, hs]
      constructor
      · intro hid
        exact ⟨_, List.mem_append_right _ (List.mem_singleton_self _), rfl, Option.some.inj hid⟩
      · rintro ⟨r, hr, hrk, hri⟩
        rcases List.mem_append.mp hr with hr | hr
        · exact absurd hrk (hk r hr)
        · rw [List.mem_singleton.mp hr] at hri
          rw [← hri]
          rfl
    · rw [if_neg hs, h.registered.table]
      constructor
      · rintro ⟨r, hr, hrk, hri⟩
        exact ⟨r, List.mem_append_left _ hr, hrk, hri⟩
      · rintro ⟨r, hr, hrk, hri⟩
        rcases List.mem_append.mp hr with hr | hr
        · exact ⟨r, hr, hrk, hri⟩
        · rw [List.mem_singleton.mp hr] at hrk
          exact absurd hrk.symm hs

/-- Queued ids are older than a new one. -/
theorem Inv.lt_next_of_queued (h : l.Inv config) {id : ℕ} (hid : id ∈ l.spool.pendingOrder) :
    id < l.spool.nextRequestId := by
  obtain ⟨r, hr, rfl⟩ := h.queued.registered id hid
  exact h.registered.idBound r hr

theorem Inv.queued_enqueue (h : l.Inv config) {intent : WriteSpoolIntent} {nowMs : ℕ}
    (ha : l.spool.ensureAccepting intent.payloadBytes nowMs = .ok ()) {spool : WriteSpool}
    (hreg : Registered spool) (hco : spool.config = l.spool.config)
    (hq : spool.pendingOrder = l.spool.pendingOrder ++ [l.spool.nextRequestId])
    (hb : spool.pendingBytes = satAdd64 l.spool.pendingBytes intent.payloadBytes)
    (hre : spool.records = l.spool.records
      ++ [WriteSpoolRecord.fromIntent l.spool.nextRequestId intent nowMs]) : Queued spool := by
  obtain ⟨hd, hf, hl⟩ := limits_of_ensureAccepting ha
  have hc : spool.pendingBytes = l.spool.pendingBytes + intent.payloadBytes := by
    rw [hb]
    exact Nat.min_eq_left hf
  have hn : WriteSpoolRecord.fromIntent l.spool.nextRequestId intent nowMs ∈ spool.records := by
    rw [hre]
    exact List.mem_append_right _ (List.mem_singleton_self _)
  refine ⟨?_, ?_, ?_, ?_, ?_, ?_⟩
  · rw [hq, List.pairwise_append]
    refine ⟨h.queued.sorted, List.pairwise_singleton _ _, ?_⟩
    intro id hid new hn
    rw [List.mem_singleton.mp hn]
    exact h.lt_next_of_queued hid
  · intro id hid
    rw [hq] at hid
    rcases List.mem_append.mp hid with hid | hid
    · obtain ⟨r, hr, hri⟩ := h.queued.registered id hid
      exact ⟨r, by rw [hre]; exact List.mem_append_left _ hr, hri⟩
    · exact ⟨_, hn, (List.mem_singleton.mp hid).symm⟩
  · intro r hr
    rw [hre] at hr
    rw [hq, List.mem_append, List.mem_singleton]
    rcases List.mem_append.mp hr with hr | hr
    · rw [← h.queued.mem_iff r hr]
      exact or_iff_left (h.registered.idBound r hr).ne
    · rw [List.mem_singleton.mp hr]
      exact iff_of_true (Or.inr rfl) ⟨rfl, rfl⟩
  · have hla : World.payloadOf spool.records l.spool.nextRequestId = intent.payloadBytes :=
      payloadOf_requestId hreg.nodup hn
    have hres : l.spool.pendingOrder.map (World.payloadOf spool.records)
        = l.spool.pendingOrder.map (World.payloadOf l.spool.records) := by
      refine List.map_congr_left fun id hid => ?_
      rw [hre]
      exact World.payloadOf_concat (h.lt_next_of_queued hid).ne
    rw [hc, hq, List.map_append, List.sum_append, hres, ← h.queued.bytes,
      List.map_singleton, List.sum_singleton, hla]
  · rw [hq, hco, List.length_append]
    exact hd
  · rw [hc, hco]
    exact hl

theorem Inv.batched_enqueue (h : l.Inv config) {intent : WriteSpoolIntent} {nowMs : ℕ}
    {spool : WriteSpool} (hc : spool.config = l.spool.config)
    (hq : spool.pendingOrder = l.spool.pendingOrder ++ [l.spool.nextRequestId])
    (hre : spool.records = l.spool.records
      ++ [WriteSpoolRecord.fromIntent l.spool.nextRequestId intent nowMs]) :
    Batched spool l.batches where
  members b hb id hid := by
    obtain ⟨r, hr, hri⟩ := h.batched.members b hb id hid
    exact ⟨r, by rw [hre]; exact List.mem_append_left _ hr, hri⟩
  distinct := h.batched.distinct
  size b hb := by
    rw [hc]
    exact h.batched.size b hb
  alone := h.batched.alone
  order key := by
    have ho : ofClass spool.records key l.spool.pendingOrder
        = ofClass l.spool.records key l.spool.pendingOrder := by
      refine List.filter_congr fun id hid => ?_
      rw [hre, classOf_concat (h.lt_next_of_queued hid).ne]
    have hs : ofClass spool.records key spool.pendingOrder
        = ofClass l.spool.records key l.spool.pendingOrder
          ++ ofClass spool.records key [l.spool.nextRequestId] := by
      rw [hq, ofClass, List.filter_append, ← ofClass, ← ofClass, ho]
    rw [hs, ← List.append_assoc, List.pairwise_append]
    refine ⟨h.batched.order key, (List.pairwise_singleton _ _).sublist List.filter_sublist, ?_⟩
    intro id hid new hn
    rw [List.mem_singleton.mp (List.mem_filter.mp hn).1]
    rcases List.mem_append.mp hid with hid | hid
    · obtain ⟨b, hb, hi⟩ := List.mem_flatMap.mp hid
      obtain ⟨r, hr, rfl, _⟩ := h.batched.members b (List.mem_filter.mp hb).1 id hi
      exact h.registered.idBound r hr
    · exact h.lt_next_of_queued (List.mem_filter.mp hid).1

/-- A key that is registered is answered with its record, and nothing changes; a key that is not
registered is in no table. -/
theorem Inv.enqueue_cases (h : l.Inv config) (intent : WriteSpoolIntent) (nowMs : ℕ) :
    (∃ r ∈ l.spool.records, r.idempotencyKey = intent.idempotencyKey ∧ l.spool.enqueue intent nowMs
        = (.ok ⟨r.requestId, r.idempotencyKey, true, r.status⟩, l.spool)) ∨
    ((∀ r ∈ l.spool.records, r.idempotencyKey ≠ intent.idempotencyKey) ∧
      l.spool.enqueue intent nowMs = l.spool.enqueueNew intent nowMs) := by
  cases hid : l.spool.idempotency intent.idempotencyKey with
  | some id =>
    obtain ⟨r, hr, hk, rfl⟩ := (h.registered.table _ _).mp hid
    refine Or.inl ⟨r, hr, hk, ?_⟩
    have ht : l.spool.duplicateTicket intent.idempotencyKey
        = some ⟨r.requestId, r.idempotencyKey, true, r.status⟩ := by
      rw [WriteSpool.duplicateTicket, hid, Option.bind_some, h.registered.record_eq hr]
      rfl
    rw [WriteSpool.enqueue, ht]
  | none =>
    refine Or.inr ⟨?_, ?_⟩
    · intro r hr hk
      rw [(h.registered.table _ _).mpr ⟨r, hr, hk, rfl⟩] at hid
      cases hid
    · have hs : Function.update l.spool.idempotency intent.idempotencyKey none
          = l.spool.idempotency := by
        rw [← hid]
        exact Function.update_eq_self _ _
      rw [WriteSpool.enqueue, WriteSpool.duplicateTicket, hid, hs]
      rfl

/-- Enqueueing keeps the books of the spool. -/
theorem Inv.enqueue (h : l.Inv config) (intent : WriteSpoolIntent) (nowMs : ℕ) :
    (l.step (.enqueue intent nowMs)).Inv config := by
  simp only [step]
  rcases h.enqueue_cases intent nowMs with ⟨r, _, _, heq⟩ | ⟨hk, heq⟩
  · rw [heq]
    exact h
  · rw [heq]
    unfold WriteSpool.enqueueNew
    rcases ha : l.spool.ensureAccepting intent.payloadBytes nowMs with e | ⟨⟩
    · exact h
    simp only
    split
    · exact h
    · rename_i hn
      have hm := Nat.not_lt.mp hn
      refine ⟨h.config_eq, h.registered_enqueue nowMs hk hm rfl rfl rfl, ?_, ?_, ?_⟩
      · exact h.queued_enqueue ha (h.registered_enqueue nowMs hk hm rfl rfl rfl) rfl rfl rfl rfl
      · have hc : ∀ status, status ≠ .pending → countStatus (l.spool.records
            ++ [WriteSpoolRecord.fromIntent l.spool.nextRequestId intent nowMs]) status
            = countStatus l.spool.records status := by
          intro status hs
          rw [countStatus, List.countP_append, countStatus, List.countP_singleton]
          simp [WriteSpoolRecord.fromIntent, hs.symm]
        refine ⟨?_, ?_, ?_, ?_⟩
        · show satAdd64 l.spool.stats.totalEnqueued 1 = (l.spool.records ++ _).length
          have hl := h.registered.next
          rw [List.length_append, List.length_singleton, h.counted.enqueued]
          exact Nat.min_eq_left (by omega)
        · exact h.counted.committed.trans (hc .committed (by decide)).symm
        · exact h.counted.cancelled.trans (hc .cancelled (by decide)).symm
        · exact h.counted.failed.trans (hc .failed (by decide)).symm
      · exact h.batched_enqueue rfl rfl rfl

/-! ### Batches -/

/-- What a batch that was drawn has to do with the spool before it. -/
structure Drawn (s : WriteSpool) (batch : WriteSpoolBatch) (retained : List ℕ) : Prop where
  first : batch.requestIds.head? = s.pendingOrder.head?
  split : Split (fun id => classOf s.records id = some batch.batchKey) s.pendingOrder
    batch.requestIds retained
  size : batch.requestIds.length ≤ max 1 s.config.maxBatchSize
  alone : batch.durability = .immediate → ∃ id, batch.requestIds = [id]

/-- The test of the loop is the class. -/
theorem any_batchKey_eq (s : WriteSpool) (key : WriteSpoolBatchKey) :
    (fun id => (s.record id).any fun r => decide (r.batchKey = key))
      = fun id => decide (classOf s.records id = some key) := by
  funext id
  rw [classOf, WriteSpool.record]
  cases s.records.find? fun r => r.requestId = id with
  | none => simp
  | some r => simp

/-- The batch that is issued. -/
def issued (s : WriteSpool) (key : WriteSpoolBatchKey) (requestIds : List ℕ)
    (auditSubjects : List String) : WriteSpoolBatch :=
  { batchId := s.nextBatchId
    workspaceId := key.workspaceId
    kind := key.kind
    durability := key.durability
    requestIds
    auditSubjects
    auditRowId := "audit_batch_" ++ WriteSpool.pad16 s.nextBatchId
    jobRowId := "job_batch_" ++ WriteSpool.pad16 s.nextBatchId }

/-- A draw is refused when the batch ids are used up, finds nothing in an empty queue, and
otherwise issues a batch. -/
theorem Inv.nextBatch_cases (h : l.Inv config) : (l.spool.nextBatchId = u64Max ∧ l.spool.nextBatch
      = (.error (l.spool.backpressure .identifierExhausted l.spool.startedAtMs), l.spool)) ∨
    (l.spool.pendingOrder = [] ∧ l.spool.nextBatch = (.ok none, l.spool)) ∨
    ∃ batch retained ss, Drawn l.spool batch retained ∧
      batch.batchId = l.spool.nextBatchId ∧ l.spool.pendingOrder ≠ [] ∧
      (ss.totalEnqueued = l.spool.stats.totalEnqueued ∧
        ss.totalCommitted = l.spool.stats.totalCommitted ∧
        ss.totalCancelled = l.spool.stats.totalCancelled ∧
        ss.totalFailed = l.spool.stats.totalFailed) ∧
      l.spool.nextBatch
        = (.ok (some batch), World.issueBatch l.spool batch.requestIds retained ss) := by
  by_cases hm : l.spool.nextBatchId = u64Max
  · refine Or.inl ⟨hm, ?_⟩
    rw [WriteSpool.nextBatch, if_pos hm]
  cases hq : l.spool.pendingOrder with
  | nil =>
    refine Or.inr (Or.inl ⟨rfl, ?_⟩)
    rw [WriteSpool.nextBatch, if_neg hm, hq]
    simp only [WriteSpool.popFirst, ← hq]
  | cons id re =>
    have hid : id ∈ l.spool.pendingOrder := by
      rw [hq]
      exact List.mem_cons_self
    obtain ⟨r, hr, rfl⟩ := h.queued.registered id hid
    have hrec := h.registered.record_eq hr
    have hc : classOf l.spool.records r.requestId = some r.batchKey :=
      classOf_requestId h.registered.nodup hr
    -- the ids of the batch and the rest of the queue
    obtain ⟨se, retained, hse, hs, hsi, ha, hh⟩ : ∃ se retained,
        (if r.batchKey.durability = .batched then
          WriteSpool.selectBatch
            (fun id => (l.spool.record id).any fun x => x.batchKey = r.batchKey)
            l.spool.config.effectiveBatchSize [r.requestId] re
        else ([r.requestId], re)) = (se, retained) ∧
        Split (fun id => classOf l.spool.records id = some r.batchKey) (r.requestId :: re)
          se retained ∧
        se.length ≤ max 1 l.spool.config.maxBatchSize ∧
        (r.batchKey.durability = .immediate → ∃ id, se = [id]) ∧
        se.head? = some r.requestId := by
      split
      · rename_i hb
        rw [any_batchKey_eq]
        obtain ⟨t, retained, heq, hs, hl⟩ := selectBatch_split
          (fun id => decide (classOf l.spool.records id = some r.batchKey))
          l.spool.config.effectiveBatchSize re [r.requestId]
        refine ⟨_, retained, heq, hs.take (by simpa using hc), ?_, ?_, rfl⟩
        · refine hl.trans ?_
          rw [WriteSpoolConfig.effectiveBatchSize, List.length_singleton]
          omega
        · intro hi
          rw [hb] at hi
          cases hi
      · refine ⟨_, _, rfl, (Split.refl _ re).take (by simpa using hc), ?_, ?_, rfl⟩
        · rw [List.length_singleton]
          omega
        · exact fun _ => ⟨_, rfl⟩
    have hne : se ≠ [] := by
      rintro rfl
      cases hh
    have hre : ∀ x ∈ se, x ∈ l.spool.records.map WriteSpoolRecord.requestId := by
      intro x hx
      have hxq : x ∈ l.spool.pendingOrder := by
        rw [hq]
        exact hs.perm.subset (List.mem_append_left _ hx)
      obtain ⟨x', hx', rfl⟩ := h.queued.registered x hxq
      exact List.mem_map_of_mem hx'
    obtain ⟨sus, hf⟩ := World.foldl_stampRecord l.spool.nextBatchId se
      { l.spool with pendingOrder := retained, nextBatchId := l.spool.nextBatchId + 1 } [] []
      h.registered.nodup hre
    have hp : l.spool.popFirst (r.requestId :: re) = some (r.requestId, r, re) := by
      rw [WriteSpool.popFirst, hrec]
    refine Or.inr (Or.inr ⟨issued l.spool r.batchKey se sus, retained, { l.spool.stats with
        totalBatches := satAdd64 l.spool.stats.totalBatches 1
        lastBatchSize := se.length
        maxBatchSizeObserved := max l.spool.stats.maxBatchSizeObserved se.length },
      ⟨?_, ?_, hsi, ha⟩, rfl, by simp, ⟨rfl, rfl, rfl, rfl⟩, ?_⟩)
    · rw [hq]
      exact hh
    · rw [hq]
      exact hs
    · rw [WriteSpool.nextBatch, if_neg hm, hq, hp]
      simp only [hse]
      simp only at hf
      simp only [hf, List.nil_append, if_neg hne]
      rfl

theorem keepsIdentity_stampAll (batchId : ℕ) (se : List ℕ) :
    KeepsIdentity fun r => if r.requestId ∈ se then World.stamped batchId r else r where
  requestId r := by split <;> rfl
  payloadBytes r := by split <;> rfl
  idempotencyKey r := by split <;> rfl
  batchKey r := by split <;> rfl

section Draw

variable {batch : WriteSpoolBatch} {retained : List ℕ}

theorem Drawn.nodup (hd : Drawn l.spool batch retained) (h : l.Inv config) :
    (batch.requestIds ++ retained).Nodup :=
  hd.split.perm.nodup_iff.mpr (h.queued.sorted.imp fun hlt => hlt.ne)

/-- The ids of a batch come from the queue, so that their records were in no batch. -/
theorem Drawn.record (hd : Drawn l.spool batch retained) (h : l.Inv config) {id : ℕ}
    (hid : id ∈ batch.requestIds) :
    ∃ r ∈ l.spool.records, r.requestId = id ∧ r.batchKey = batch.batchKey ∧ r.batchId = none := by
  have hq : id ∈ l.spool.pendingOrder := hd.split.perm.subset (List.mem_append_left _ hid)
  obtain ⟨r, hr, rfl⟩ := h.queued.registered id hq
  refine ⟨r, hr, rfl, ?_, ((h.queued.mem_iff r hr).mp hq).1⟩
  have hc := hd.split.joined _ hid
  rw [classOf_requestId h.registered.nodup hr] at hc
  simpa using hc

theorem Inv.queued_issue (h : l.Inv config) (hd : Drawn l.spool batch retained)
    (ss : WriteSpoolStats) :
    Queued (World.issueBatch l.spool batch.requestIds retained ss) := by
  have hk := keepsIdentity_stampAll l.spool.nextBatchId batch.requestIds
  have hdi := (List.nodup_append.mp (hd.nodup h)).2.2
  have hsu := (hd.split.perm.map (World.payloadOf l.spool.records)).sum_eq
  rw [List.map_append, List.sum_append, ← h.queued.bytes] at hsu
  have hb : l.spool.pendingBytes - (batch.requestIds.map (World.payloadOf l.spool.records)).sum
      = (retained.map (World.payloadOf l.spool.records)).sum := by omega
  refine ⟨h.queued.sorted.sublist hd.split.sublist, ?_, ?_, ?_, ?_, ?_⟩
  · intro id hid
    obtain ⟨r, hr, hri⟩ := h.queued.registered id (hd.split.sublist.subset hid)
    exact ⟨_, List.mem_map_of_mem hr, (hk.requestId r).trans hri⟩
  · intro r' hr'
    obtain ⟨r, hr, rfl⟩ := List.mem_map.mp hr'
    rw [hk.requestId r]
    change r.requestId ∈ retained ↔ _
    by_cases hs : r.requestId ∈ batch.requestIds
    · rw [if_pos hs]
      refine iff_of_false (fun hre => hdi _ hs _ hre rfl) ?_
      simp [World.stamped]
    · rw [if_neg hs, ← h.queued.mem_iff r hr, ← hd.split.perm.mem_iff, List.mem_append]
      exact (or_iff_right hs).symm
  · show l.spool.pendingBytes - _ = (retained.map (World.payloadOf (World.stampAll _ _ _))).sum
    rw [World.stampAll, hk.payloadOf_map]
    exact hb
  · exact hd.split.sublist.length_le.trans h.queued.depth
  · exact (Nat.sub_le _ _).trans h.queued.bytesLimit

theorem takenOfClass_concat (batches : List WriteSpoolBatch) (batch : WriteSpoolBatch)
    (key : WriteSpoolBatchKey) :
    takenOfClass (batches ++ [batch]) key
      = takenOfClass batches key ++ if batch.batchKey = key then batch.requestIds else [] := by
  rw [takenOfClass, List.filter_append, List.flatMap_append, ← takenOfClass]
  congr 1
  by_cases hk : batch.batchKey = key
  · simp [hk]
  · simp [hk]

theorem Inv.batched_issue (h : l.Inv config) (hd : Drawn l.spool batch retained)
    (ss : WriteSpoolStats) :
    Batched (World.issueBatch l.spool batch.requestIds retained ss) (l.batches ++ [batch]) where
  members b hb id hid := by
    have hk := keepsIdentity_stampAll l.spool.nextBatchId batch.requestIds
    rcases List.mem_append.mp hb with hb | hb
    · obtain ⟨r, hr, hri, hke, hba⟩ := h.batched.members b hb id hid
      refine ⟨_, List.mem_map_of_mem hr, (hk.requestId r).trans hri, (hk.batchKey r).trans hke, ?_⟩
      split
      · exact Option.some_ne_none _
      · exact hba
    · rw [List.mem_singleton.mp hb] at hid ⊢
      obtain ⟨r, hr, hri, hke, _⟩ := hd.record h hid
      refine ⟨_, List.mem_map_of_mem hr, (hk.requestId r).trans hri, (hk.batchKey r).trans hke, ?_⟩
      rw [if_pos (hri ▸ hid)]
      exact Option.some_ne_none _
  distinct := by
    rw [List.flatMap_append, List.flatMap_singleton, List.nodup_append]
    refine ⟨h.batched.distinct, (List.nodup_append.mp (hd.nodup h)).1, ?_⟩
    intro id ho id' hne heq
    obtain ⟨b, hb, hi⟩ := List.mem_flatMap.mp ho
    obtain ⟨r, hr, hri, _, hba⟩ := h.batched.members b hb id hi
    obtain ⟨r', hr', hri', _, hn⟩ := hd.record h hne
    rw [eq_of_requestId h.registered.nodup hr hr' (by rw [hri, hri', heq])] at hba
    exact hba hn
  size b hb := by
    rcases List.mem_append.mp hb with hb | hb
    · exact h.batched.size b hb
    · rw [List.mem_singleton.mp hb]
      exact hd.size
  alone b hb := by
    rcases List.mem_append.mp hb with hb | hb
    · exact h.batched.alone b hb
    · rw [List.mem_singleton.mp hb]
      exact hd.alone
  order key := by
    have hk := keepsIdentity_stampAll l.spool.nextBatchId batch.requestIds
    have hc : ofClass (World.stampAll l.spool.nextBatchId batch.requestIds l.spool.records) key
        retained = ofClass l.spool.records key retained := by
      unfold ofClass World.stampAll
      simp only [hk.classOf_map]
    show (takenOfClass (l.batches ++ [batch]) key ++ ofClass (World.stampAll _ _ _) key
      retained).Pairwise (· < ·)
    rw [hc, takenOfClass_concat]
    have ho := h.batched.order key
    by_cases hke : batch.batchKey = key
    · rw [if_pos hke, List.append_assoc, ← hke, ofClass, hd.split.first]
      rw [← hke] at ho
      exact ho
    · rw [if_neg hke, List.append_nil, ofClass, hd.split.others]
      · exact ho
      · intro id hid
        simp only [decide_eq_true_eq] at hid
        simp [hid, Ne.symm hke]

/-- Issuing a batch keeps the books of the spool. -/
theorem Inv.issue (h : l.Inv config) (hd : Drawn l.spool batch retained) {ss : WriteSpoolStats}
    (hs : ss.totalEnqueued = l.spool.stats.totalEnqueued ∧
      ss.totalCommitted = l.spool.stats.totalCommitted ∧
      ss.totalCancelled = l.spool.stats.totalCancelled ∧
      ss.totalFailed = l.spool.stats.totalFailed) :
    Inv config ⟨World.issueBatch l.spool batch.requestIds retained ss, l.batches ++ [batch]⟩ where
  config_eq := h.config_eq
  registered := h.registered.map (keepsIdentity_stampAll _ _) rfl rfl rfl
  queued := h.queued_issue hd ss
  counted := by
    have hc : ∀ status, countStatus (World.stampAll l.spool.nextBatchId batch.requestIds
        l.spool.records) status = countStatus l.spool.records status := by
      intro status
      rw [countStatus, World.stampAll, List.countP_map, countStatus]
      congr 1
      funext r
      rw [Function.comp_apply]
      split <;> rfl
    refine ⟨?_, ?_, ?_, ?_⟩
    · show ss.totalEnqueued = (World.stampAll _ _ _).length
      rw [hs.1, World.stampAll, List.length_map]
      exact h.counted.enqueued
    · exact hs.2.1.trans (h.counted.committed.trans (hc _).symm)
    · exact hs.2.2.1.trans (h.counted.cancelled.trans (hc _).symm)
    · exact hs.2.2.2.trans (h.counted.failed.trans (hc _).symm)
  batched := h.batched_issue hd ss

end Draw

/-- The next batch keeps the books of the spool. -/
theorem Inv.nextBatch (h : l.Inv config) : (l.step .nextBatch).Inv config := by
  simp only [step]
  rcases h.nextBatch_cases with ⟨_, heq⟩ | ⟨_, heq⟩ | ⟨batch, retained, ss, hd, _, _, hs, heq⟩
  · rw [heq]
    exact h
  · rw [heq]
    exact h
  · rw [heq]
    exact h.issue hd hs

/-- Every call keeps the invariant. -/
theorem Inv.step (h : l.Inv config) (c : Call) : (l.step c).Inv config := by
  cases c with
  | enqueue int nms => exact h.enqueue int nms
  | nextBatch => exact h.nextBatch
  | markBatchCommitted bi nms => exact h.markBatchCommitted bi nms
  | markBatchFailed bi nms message => exact h.markBatchFailed bi nms message
  | cancelPending ri nms => exact h.cancelPending ri nms

/-- The invariant along a run. -/
theorem Inv.run (h : l.Inv config) (cs : List Call) : (l.run cs).Inv config := by
  induction cs generalizing l with
  | nil => exact h
  | cons c cs ih => exact ih (h.step c)

/-! ## The laws of a run -/

/-- Every record has one of the four statuses. -/
theorem length_eq_countStatus (records : List WriteSpoolRecord) :
    records.length = countStatus records .pending + countStatus records .committed
      + countStatus records .cancelled + countStatus records .failed := by
  induction records with
  | nil => rfl
  | cons r re ih =>
    unfold countStatus at ih ⊢
    simp only [List.countP_cons, List.length_cons]
    cases r.status <;> simp <;> omega

/-- The next batch starts with the oldest queued record. -/
theorem Inv.oldest_first (h : l.Inv config) {o : ℕ} {r : List ℕ}
    (hq : l.spool.pendingOrder = o :: r) :
    (l.spool.nextBatchId = u64Max ∧ ∃ e, l.spool.nextBatch = (.error e, l.spool)) ∨
      ∃ batch spool, l.spool.nextBatch = (.ok (some batch), spool) ∧
        batch.requestIds.head? = some o := by
  rcases h.nextBatch_cases with ⟨hm, heq⟩ | ⟨hn, _⟩ | ⟨batch, retained, ss, hd, _, _, _, heq⟩
  · exact Or.inl ⟨hm, _, heq⟩
  · rw [hq] at hn
    cases hn
  · refine Or.inr ⟨batch, _, heq, ?_⟩
    rw [hd.first, hq]
    rfl

/-- **The spool batches every request at most once, and fairly.**  After any calls, with any
configuration: no request is in two batches; the records of a batch are of one class, at most
as many as the configuration allows, and one alone when it is to be written at once; the next
batch starts with the oldest queued record, and of every class the records are taken in the
order of their arrival; a key has one record and is answered with it; the records are the
pending, the committed, the cancelled and the failed ones, the queue being those of the pending
that are in no batch; and the queue is within its limits. -/
theorem batches_once_and_fairly (config : WriteSpoolConfig) (startedAtMs : ℕ) (calls : List Call) :
    let l := (Ledger.new config startedAtMs).run calls
    (l.batches.flatMap WriteSpoolBatch.requestIds).Nodup ∧
    (∀ b ∈ l.batches,
      (∀ id ∈ b.requestIds, ∃ r, l.spool.record id = some r ∧ r.workspaceId = b.workspaceId ∧
        r.kind = b.kind ∧ r.durability = b.durability) ∧
      b.requestIds.length ≤ max 1 config.maxBatchSize ∧
      (b.durability = .immediate → ∃ id, b.requestIds = [id])) ∧
    (∀ oldest rest, l.spool.pendingOrder = oldest :: rest → (∀ id ∈ rest, oldest < id) ∧
      ((l.spool.nextBatchId = u64Max ∧ ∃ e, l.spool.nextBatch = (.error e, l.spool)) ∨
        ∃ batch spool, l.spool.nextBatch = (.ok (some batch), spool) ∧
          batch.requestIds.head? = some oldest)) ∧
    ((l.spool.records.map WriteSpoolRecord.requestId).Pairwise (· < ·) ∧
      ∀ key, (takenOfClass l.batches key
        ++ ofClass l.spool.records key l.spool.pendingOrder).Pairwise (· < ·)) ∧
    ((l.spool.records.map WriteSpoolRecord.idempotencyKey).Nodup ∧
      ∀ intent nowMs, ∀ r ∈ l.spool.records, r.idempotencyKey = intent.idempotencyKey →
        l.spool.enqueue intent nowMs
          = (.ok ⟨r.requestId, r.idempotencyKey, true, r.status⟩, l.spool)) ∧
    ((l.spool.stats.totalEnqueued = l.spool.records.length ∧
        l.spool.stats.totalCommitted = countStatus l.spool.records .committed ∧
        l.spool.stats.totalCancelled = countStatus l.spool.records .cancelled ∧
        l.spool.stats.totalFailed = countStatus l.spool.records .failed ∧
        l.spool.records.length = countStatus l.spool.records .pending
          + countStatus l.spool.records .committed + countStatus l.spool.records .cancelled
          + countStatus l.spool.records .failed) ∧
      ∀ r ∈ l.spool.records,
        r.requestId ∈ l.spool.pendingOrder ↔ r.batchId = none ∧ r.status = .pending) ∧
    (l.spool.pendingOrder.length ≤ config.maxPending ∧
      l.spool.pendingBytes = (l.spool.pendingOrder.map (World.payloadOf l.spool.records)).sum ∧
      l.spool.pendingBytes ≤ config.maxPendingBytes) := by
  intro l
  have h : l.Inv config := (inv_new config startedAtMs).run calls
  have hc := h.config_eq
  refine ⟨h.batched.distinct, ?_, ?_, ⟨h.registered.ids, h.batched.order⟩,
    ⟨h.registered.keys, ?_⟩, ⟨⟨h.counted.enqueued, h.counted.committed, h.counted.cancelled,
      h.counted.failed, length_eq_countStatus _⟩, h.queued.mem_iff⟩, ?_⟩
  · intro b hb
    refine ⟨?_, hc ▸ h.batched.size b hb, h.batched.alone b hb⟩
    intro id hid
    obtain ⟨r, hr, rfl, hk, _⟩ := h.batched.members b hb id hid
    rw [WriteSpoolRecord.batchKey, WriteSpoolBatch.batchKey, WriteSpoolBatchKey.mk.injEq] at hk
    exact ⟨r, h.registered.record_eq hr, hk⟩
  · intro oldest rest hq
    refine ⟨?_, h.oldest_first hq⟩
    have hs := h.queued.sorted
    rw [hq, List.pairwise_cons] at hs
    exact hs.1
  · intro intent nowMs r hr hk
    rcases h.enqueue_cases intent nowMs with ⟨r', hr', hk', heq⟩ | ⟨hn, _⟩
    · have hsa : r' = r := List.inj_on_of_nodup_map h.registered.keys hr' hr (hk'.trans hk.symm)
      rw [heq, hsa]
    · exact absurd hk (hn r hr)
  · rw [← hc]
    exact ⟨h.queued.depth, h.queued.bytes, h.queued.bytesLimit⟩

end Ledger

end Spool
