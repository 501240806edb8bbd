/-
# Advisory leases (`src/db/mod.rs`) and the publication fence (`src/core/index.rs`)

A lease is one row of `ee_advisory_locks`.  A process reads the clock, then takes the lease in a
transaction that removes the rows of expired or dead holders first; a holder releases its own
row; an operator releases a row under a policy or by force.  An index is published under the
writer fence, after a last look at the row.
-/
import EideticEngine.AuditLog
import EideticEngine.TextScan
import Mathlib

namespace AdvisoryLocks

open Serde
open RustText (parseU32 splitOnceChar stripTextPrefix)

/-! ## Data -/

/-- `AdvisoryLockId`. -/
structure AdvisoryLockId where
  resourceType : String
  resourceId : String
  deriving DecidableEq, Repr

/-- `AdvisoryLockId::index`. -/
def AdvisoryLockId.index (workspaceId : String) : AdvisoryLockId := ⟨"index", workspaceId⟩

/-- `AdvisoryLockId::canonical_key`. -/
def AdvisoryLockId.canonicalKey (lockId : AdvisoryLockId) : String :=
  lockId.resourceType ++ ":" ++ lockId.resourceId

/-- `AdvisoryLock`. -/
structure AdvisoryLock where
  id : AdvisoryLockId
  holderId : String
  acquiredAt : String
  expiresAt : Option String
  reason : Option String
  deriving DecidableEq, Repr

/-- `AdvisoryLockHolderLiveness`. -/
inductive AdvisoryLockHolderLiveness where
  | alive (pid : ℕ)
  | dead (pid : ℕ)
  | unknown (reason : String)
  deriving DecidableEq, Repr

namespace AdvisoryLockHolderLiveness

/-- `AdvisoryLockHolderLiveness::status`. -/
def status : AdvisoryLockHolderLiveness → String
  | alive _ => "alive"
  | dead _ => "dead"
  | unknown _ => "unknown"

/-- `AdvisoryLockHolderLiveness::pid`. -/
def pid : AdvisoryLockHolderLiveness → Option ℕ
  | alive pid => some pid
  | dead pid => some pid
  | unknown _ => none

/-- `AdvisoryLockHolderLiveness::reason`. -/
def reason : AdvisoryLockHolderLiveness → Option String
  | unknown reason => some reason
  | _ => none

/-- `matches!(liveness, Dead { .. })`. -/
def isDead : AdvisoryLockHolderLiveness → Bool
  | dead _ => true
  | _ => false

end AdvisoryLockHolderLiveness

/-- `AcquireLockResult`. -/
inductive AcquireLockResult where
  | acquired (lock : AdvisoryLock)
  | alreadyHeld (holderId acquiredAt : String)
  | expired (previousHolder : String)
  deriving DecidableEq, Repr

/-- The two results on which a caller goes on as the holder. -/
def AcquireLockResult.takes : AcquireLockResult → Bool
  | alreadyHeld _ _ => false
  | _ => true

/-- `AdvisoryLockReleaseOutcome`. -/
inductive AdvisoryLockReleaseOutcome where
  | released (lock : AdvisoryLock) (auditId : String)
  | notHeld
  | holderMismatch (held : AdvisoryLock)
  | holderAlive (held : AdvisoryLock) (pid : ℕ)
  | holderUnprobeable (held : AdvisoryLock) (reason : String)
  deriving DecidableEq, Repr

/-- The errors of the database that can be returned here. -/
inductive DbError where
  /-- `DbError::MalformedRow`. -/
  | malformedRow (message : String)
  /-- A `Constraint` error of the query, on the primary key. -/
  | duplicateKey (resourceKey : String)
  deriving DecidableEq, Repr

/-- What `kill(pid, 0)` answers. -/
inductive Errno where
  | perm
  | srch
  | other (text : String)
  deriving DecidableEq, Repr

/-- The probe of the operating system at one moment. -/
abbrev TestKill := ℕ → Except Errno Unit

/-- What the code uses of the time library and of `serde_json`, and its surroundings. -/
structure Env (T : Type) where
  /-- `advisory_lock_timestamp`: RFC 3339 with nanoseconds. -/
  timestamp : T → String
  /-- `DateTime::parse_from_rfc3339`. -/
  parseFromRfc3339 : String → Option T
  /-- `checked_add_signed` of a number of seconds. -/
  checkedAddSigned : T → ℤ → Option T
  /-- `generate_audit_id`, for the audit row with the given number. -/
  generateAuditId : ℕ → String
  /-- `Value::to_string`. -/
  jsonToString : Json → String
  /-- Is there a row for the workspace (`get_workspace`)? -/
  hasWorkspace : String → Bool

variable {T : Type}

/-! ## Holders and liveness -/

/-- The holders of the form `ee-index-{pid}-{nonce}`. -/
def prefixedHolderPid (holderId : String) : Option ℕ :=
  (((stripTextPrefix "ee-index-" holderId).bind fun suffix => splitOnceChar '-' suffix).bind
    fun parts => parseU32 parts.1).filter (0 < ·)

/-- `advisory_lock_holder_pid`. -/
def advisoryLockHolderPid (holderId : String) : Option ℕ :=
  match splitOnceChar ':' holderId with
  | none => prefixedHolderPid holderId
  | some (kind, rest) =>
    match splitOnceChar ':' rest with
    | none => prefixedHolderPid holderId
    | some (pid, _) =>
      if kind = "remember" ∨ kind = "index" then (parseU32 pid).filter (0 < ·)
      else prefixedHolderPid holderId

/-- `advisory_lock_process_liveness` (on Unix). -/
def advisoryLockProcessLiveness (testKill : TestKill) (pid : ℕ) : AdvisoryLockHolderLiveness :=
  if 2 ^ 31 ≤ pid then
    .unknown ("holder PID " ++ toString pid ++ " exceeds platform pid range")
  else if pid = 0 then
    .unknown ("holder PID " ++ toString pid ++ " is not a valid process id")
  else
    match testKill pid with
    | .ok () => .alive pid
    | .error .perm => .alive pid
    | .error .srch => .dead pid
    | .error (.other text) =>
      .unknown ("process probe failed for PID " ++ toString pid ++ ": " ++ text)

/-- `advisory_lock_holder_liveness`. -/
def advisoryLockHolderLiveness (testKill : TestKill) (holderId : String) :
    AdvisoryLockHolderLiveness :=
  match advisoryLockHolderPid holderId with
  | none => .unknown "holder id does not encode a same-host process PID"
  | some pid => advisoryLockProcessLiveness testKill pid

/-! ## The clock -/

/-- `advisory_lock_is_expired`: a text that is no time counts as unexpired. -/
def advisoryLockIsExpired [LT T] [DecidableLT T] (env : Env T) (expiresAt now : String) : Bool :=
  match env.parseFromRfc3339 expiresAt with
  | none => false
  | some expiresAt =>
    match env.parseFromRfc3339 now with
    | none => false
    | some now => expiresAt < now

/-- `advisory_lock_expires_at`. -/
def advisoryLockExpiresAt (env : Env T) (nowInstant : T) (ttlSecs : ℕ) :
    Except DbError (Option String) :=
  if ttlSecs = 0 then .ok none
  -- `i64::try_from`, then `TimeDelta::try_seconds`, whose bound is `i64::MAX` milliseconds
  else if 2 ^ 63 ≤ ttlSecs ∨ (2 ^ 63 - 1) / 1000 < ttlSecs then
    .error (.malformedRow
      ("advisory lock ttl_secs " ++ toString ttlSecs ++ " exceeds chrono duration seconds"))
  else
    match env.checkedAddSigned nowInstant ttlSecs with
    | none =>
      .error (.malformedRow
        ("advisory lock ttl_secs " ++ toString ttlSecs ++ " exceeds timestamp range"))
    | some expiresAt => .ok (some (env.timestamp expiresAt))

/-- `DEFAULT_LOCK_TTL_SECS`. -/
def defaultLockTtlSecs : ℕ := 300

/-! ## The table -/

/-- A row of `ee_advisory_locks`. -/
structure LockRow where
  resourceKey : String
  resourceType : String
  resourceId : String
  holderId : String
  acquiredAt : String
  expiresAt : Option String
  reason : Option String
  deriving DecidableEq, Repr

/-- The resource that a row is about. -/
def LockRow.lockId (row : LockRow) : AdvisoryLockId := ⟨row.resourceType, row.resourceId⟩

/-- Is the lease of a row over, for a reader of the clock? -/
def LockRow.isExpired [LT T] [DecidableLT T] (env : Env T) (row : LockRow) (now : String) : Bool :=
  match row.expiresAt with
  | some expiresAt => advisoryLockIsExpired env expiresAt now
  | none => false

/-- `ee_advisory_locks`; `resource_key` is its primary key. -/
@[ext]
structure LockTable where
  rows : List LockRow
  primaryKey : (rows.map LockRow.resourceKey).Nodup
  deriving DecidableEq

namespace LockTable

/-- The table without rows. -/
def empty : LockTable := ⟨[], List.nodup_nil⟩

/-- `DELETE FROM ee_advisory_locks WHERE …`. -/
def delete (table : LockTable) (drop : LockRow → Bool) : LockTable where
  rows := table.rows.filter fun row => !drop row
  primaryKey := table.primaryKey.sublist (List.filter_sublist.map _)

/-- `INSERT INTO ee_advisory_locks …`. -/
def insert (table : LockTable) (row : LockRow) : Except DbError LockTable :=
  if h : row.resourceKey ∈ table.rows.map LockRow.resourceKey then
    .error (.duplicateKey row.resourceKey)
  else
    .ok
      { rows := table.rows ++ [row]
        primaryKey := by
          rw [List.map_append, List.nodup_append]
          refine ⟨table.primaryKey, List.nodup_singleton _, ?_⟩
          intro key hkey key' hkey' heq
          obtain rfl := List.mem_singleton.mp hkey'
          exact h (heq ▸ hkey) }

/-- `SELECT … WHERE resource_type = ?1 AND resource_id = ?2`. -/
def rowsOf (table : LockTable) (lockId : AdvisoryLockId) : List LockRow :=
  table.rows.filter fun row => row.lockId = lockId

/-- The rows of a resource `ORDER BY acquired_at DESC, resource_key ASC`. -/
def newestFirst (table : LockTable) (lockId : AdvisoryLockId) : List LockRow :=
  (table.rowsOf lockId).insertionSort fun left right =>
    (compare right.acquiredAt left.acquiredAt).then
      (compare left.resourceKey right.resourceKey) ≠ .gt

end LockTable

/-- The database: the leases and the audit rows, in the order of their insertion. -/
structure LockDb where
  table : LockTable
  audits : List (String × Audit.CreateAuditInput)
  deriving DecidableEq

/-- `advisory_lock_workspace_id` and `advisory_lock_existing_workspace_id`. -/
def advisoryLockExistingWorkspaceId (env : Env T) (lockId : AdvisoryLockId) : Option String :=
  if lockId.resourceType = "workspace" ∧ env.hasWorkspace lockId.resourceId then
    some lockId.resourceId
  else none

/-- The `details` of an audit row about a lease. -/
def mutationDetails (lock : AdvisoryLock) (reason : String) (force : Bool)
    (liveness : AdvisoryLockHolderLiveness) : Json :=
  .object
    [("schema", .string "ee.advisory_lock_mutation.v1"),
      ("resourceType", .string lock.id.resourceType),
      ("resourceId", .string lock.id.resourceId),
      ("canonicalKey", .string lock.id.canonicalKey),
      ("holderId", .string lock.holderId),
      ("acquiredAt", .string lock.acquiredAt),
      ("expiresAt", .ofOption lock.expiresAt),
      ("lockReason", .ofOption lock.reason),
      ("mutationReason", .string reason),
      ("force", .bool force),
      ("holderLiveness", .object
        [("status", .string liveness.status),
          ("pid", (liveness.pid.map fun pid => Json.number (toString pid)).getD .null),
          ("reason", .ofOption liveness.reason)])]

/-- `insert_advisory_lock_mutation_audit`. -/
def insertAdvisoryLockMutationAudit (env : Env T) (action : String) (lock : AdvisoryLock)
    (actor reason : String) (force : Bool) (liveness : AdvisoryLockHolderLiveness)
    (db : LockDb) : String × LockDb :=
  let auditId := env.generateAuditId db.audits.length
  (auditId,
    { db with
      audits := db.audits ++ [(auditId,
        { workspaceId := advisoryLockExistingWorkspaceId env lock.id
          actor := some actor
          action := action
          targetType := some "advisory_lock"
          targetId := some lock.id.canonicalKey
          details := some (env.jsonToString (mutationDetails lock reason force liveness)) })] })

/-! ## Taking a lease -/

/-- What `try_acquire_advisory_lock` has in hand when its transaction starts. -/
structure Attempt where
  lockId : AdvisoryLockId
  holderId : String
  reason : Option String
  now : String
  expiresAt : Option String
  deriving DecidableEq, Repr

/-- `try_acquire_advisory_lock` up to its transaction; the clock is read here. -/
def tryAcquireAdvisoryLock (env : Env T) (nowInstant : T) (lockId : AdvisoryLockId)
    (holderId : String) (ttlSecs : Option ℕ) (reason : Option String) : Except DbError Attempt := do
  let expiresAt ← advisoryLockExpiresAt env nowInstant (ttlSecs.getD defaultLockTtlSecs)
  return ⟨lockId, holderId, reason, env.timestamp nowInstant, expiresAt⟩

/-- The row that an attempt inserts. -/
def Attempt.row (attempt : Attempt) : LockRow where
  resourceKey := attempt.lockId.canonicalKey
  resourceType := attempt.lockId.resourceType
  resourceId := attempt.lockId.resourceId
  holderId := attempt.holderId
  acquiredAt := attempt.now
  expiresAt := attempt.expiresAt
  reason := attempt.reason

/-- The lease that a row of the attempt's resource stands for. -/
def LockRow.lock (row : LockRow) (lockId : AdvisoryLockId) : AdvisoryLock :=
  ⟨lockId, row.holderId, row.acquiredAt, row.expiresAt, row.reason⟩

/-- How the loop over the existing rows ends. -/
inductive Scan where
  | alreadyHeld (holderId acquiredAt : String)
  | finished (previousExpiredHolder : Option String)
  deriving DecidableEq, Repr

/-- The deletion of a dead holder's row, with its audit row. -/
def reclaim (env : Env T) (attempt : Attempt) (row : LockRow)
    (liveness : AdvisoryLockHolderLiveness) (db : LockDb) : LockDb :=
  (insertAdvisoryLockMutationAudit env "advisory_lock.reclaim" (row.lock attempt.lockId)
    attempt.holderId "dead holder auto-reclaimed during acquire" false liveness
    { db with table := db.table.delete fun other => other.resourceKey = row.resourceKey }).2

section

variable [LT T] [DecidableLT T]

/-- The loop of `acquire_advisory_lock_in_transaction`. -/
def scanExisting (env : Env T) (testKill : TestKill) (attempt : Attempt) :
    List LockRow → Option String → LockDb → Scan × LockDb
  | [], previous, db => (.finished previous, db)
  | row :: rows, previous, db =>
    if row.isExpired env attempt.now then
      scanExisting env testKill attempt rows (previous.or (some row.holderId)) db
    else
      let liveness := advisoryLockHolderLiveness testKill row.holderId
      if liveness.isDead then
        scanExisting env testKill attempt rows previous (reclaim env attempt row liveness db)
      else (.alreadyHeld row.holderId row.acquiredAt, db)

/-- `acquire_advisory_lock_in_transaction`. -/
def acquireAdvisoryLockInTransaction (env : Env T) (testKill : TestKill) (attempt : Attempt)
    (db : LockDb) : Except DbError (AcquireLockResult × LockDb) :=
  match scanExisting env testKill attempt (db.table.newestFirst attempt.lockId) none db with
  | (.alreadyHeld holderId acquiredAt, db) => .ok (.alreadyHeld holderId acquiredAt, db)
  | (.finished (some previousHolder), db) => do
    let table ← (db.table.delete fun row => row.lockId = attempt.lockId).insert attempt.row
    return (.expired previousHolder, { db with table })
  | (.finished none, db) => do
    let table ← db.table.insert attempt.row
    return (.acquired (attempt.row.lock attempt.lockId), { db with table })

/-! ## Giving a lease up -/

/-- `release_advisory_lock`. -/
def releaseAdvisoryLock (lockId : AdvisoryLockId) (holderId : String) (db : LockDb) :
    Bool × LockDb :=
  let owned := fun row : LockRow => decide (row.lockId = lockId ∧ row.holderId = holderId)
  (db.table.rows.any owned, { db with table := db.table.delete owned })

/-- `is_lock_held`. -/
def isLockHeld (env : Env T) (nowInstant : T) (lockId : AdvisoryLockId) (db : LockDb) :
    Option AdvisoryLock :=
  let now := env.timestamp nowInstant
  ((db.table.newestFirst lockId).find? fun row => !row.isExpired env now).map
    fun row => row.lock lockId

/-- The end of `release_advisory_lock_with_policy`: the row goes, with an audit row. -/
def releaseHeld (env : Env T) (lock : AdvisoryLock) (actor reason : String) (force : Bool)
    (liveness : AdvisoryLockHolderLiveness) (lockId : AdvisoryLockId) (db : LockDb) :
    AdvisoryLockReleaseOutcome × LockDb :=
  match releaseAdvisoryLock lockId lock.holderId db with
  | (false, db) => (.notHeld, db)
  | (true, db) =>
    let action := if force then "advisory_lock.force_release" else "advisory_lock.release"
    let (auditId, db) :=
      insertAdvisoryLockMutationAudit env action lock actor reason force liveness db
    (.released lock auditId, db)

/-- `release_advisory_lock_with_policy`. -/
def releaseAdvisoryLockWithPolicy (env : Env T) (testKill : TestKill) (nowInstant : T)
    (lockId : AdvisoryLockId) (expectedHolder : Option String) (actor reason : String)
    (force : Bool) (db : LockDb) : AdvisoryLockReleaseOutcome × LockDb :=
  match isLockHeld env nowInstant lockId db with
  | none => (.notHeld, db)
  | some lock =>
    if expectedHolder.any (· ≠ lock.holderId) then (.holderMismatch lock, db)
    else
      let liveness := advisoryLockHolderLiveness testKill lock.holderId
      match force, liveness with
      | false, .alive pid => (.holderAlive lock pid, db)
      | false, .unknown why => (.holderUnprobeable lock why, db)
      | _, _ => releaseHeld env lock actor reason force liveness lockId db

/-! ## The publication fence -/

/-- The error of a publication without a lease. -/
def leaseLostMessage : String :=
  "index publication lease expired or changed owner; staged output was not published; " ++
    "retry the index operation"

/-- The check of `IndexPublishLockOwner::with_publication_fence`, made inside the fence. -/
def checkPublicationLease (env : Env T) (nowInstant : T) (workspaceId holderId : String)
    (db : LockDb) : Except String Unit :=
  let rows := db.table.rowsOf (.index workspaceId)
  let owned := rows.length = 1 ∧ (rows.head?.map LockRow.holderId) = some holderId
  let unexpired := ((rows.head?.bind LockRow.expiresAt).bind env.parseFromRfc3339).any
    fun expiry => nowInstant < expiry
  if ¬owned ∨ !unexpired then .error leaseLostMessage else .ok ()

end

/-! ## The table with keys of its own resources -/

namespace LockTable

/-- Every row has the key of its resource. -/
def Keyed (table : LockTable) : Prop :=
  ∀ row ∈ table.rows, row.resourceKey = row.lockId.canonicalKey

theorem mem_rowsOf {t : LockTable} {lockId : AdvisoryLockId} {row : LockRow} :
    row ∈ t.rowsOf lockId ↔ row ∈ t.rows ∧ row.lockId = lockId := by
  simp [rowsOf]

theorem mem_delete {t : LockTable} {drop : LockRow → Bool} {row : LockRow} :
    row ∈ (t.delete drop).rows ↔ row ∈ t.rows ∧ drop row = false := by
  simp [delete]

/-- A deletion that finds nothing changes nothing. -/
theorem delete_eq_self {t : LockTable} {drop : LockRow → Bool}
    (h : ∀ row ∈ t.rows, drop row = false) : t.delete drop = t := by
  ext1
  simp only [delete, List.filter_eq_self]
  intro row hr
  rw [h row hr]
  rfl

/-- **A resource has at most one row**: its rows would share their key. -/
theorem Keyed.rowsOf_cases {t : LockTable} (hke : t.Keyed) (lockId : AdvisoryLockId) :
    t.rowsOf lockId = [] ∨ ∃ row, t.rowsOf lockId = [row] := by
  have hn : ((t.rowsOf lockId).map LockRow.resourceKey).Nodup :=
    t.primaryKey.sublist (List.filter_sublist.map _)
  have hk : ∀ row ∈ t.rowsOf lockId, row.resourceKey = lockId.canonicalKey := by
    intro row hr
    obtain ⟨hm, rfl⟩ := mem_rowsOf.mp hr
    exact hke row hm
  match hrows : t.rowsOf lockId with
  | [] => exact .inl rfl
  | [row] => exact .inr ⟨row, rfl⟩
  | first :: s :: r =>
    exfalso
    rw [hrows] at hn hk
    have hs : first.resourceKey = s.resourceKey := (hk first (by simp)).trans (hk s (by simp)).symm
    simp [hs] at hn

theorem Keyed.newestFirst_eq {t : LockTable} (hk : t.Keyed)
    (lockId : AdvisoryLockId) : t.newestFirst lockId = t.rowsOf lockId := by
  unfold newestFirst
  rcases hk.rowsOf_cases lockId with hr | ⟨row, hr⟩ <;> rw [hr] <;> rfl

/-- To delete by the key of a row is to delete the rows of its resource. -/
theorem Keyed.delete_key {t : LockTable} (hk : t.Keyed) {row : LockRow} (hr : row ∈ t.rows) :
    (t.delete fun other => other.resourceKey = row.resourceKey)
      = t.delete fun other => other.lockId = row.lockId := by
  ext1
  apply List.filter_congr
  intro other ho
  have hi : other.resourceKey = row.resourceKey ↔ other.lockId = row.lockId := by
    constructor
    · intro hke
      rw [List.inj_on_of_nodup_map t.primaryKey ho hr hke]
    · intro hid
      rw [hk other ho, hk row hr, hid]
  simp only [hi]

theorem insert_eq_ok {t t' : LockTable} {row : LockRow}
    (h : t.insert row = .ok t') : t'.rows = t.rows ++ [row] := by
  unfold insert at h
  split at h
  · cases h
  · cases h
    rfl

end LockTable

/-! ## What the operations do -/

/-- An expiry column that the code has written. -/
def Printed (env : Env T) (expiresAt : Option String) : Prop :=
  ∀ text ∈ expiresAt, ∃ expiry, text = env.timestamp expiry

/-- The clock and the expiry of a new attempt. -/
theorem tryAcquire_ok {env : Env T} {attempt : Attempt} {now : T} {lockId : AdvisoryLockId}
    {ho : String} {tss : Option ℕ} {reason : Option String}
    (h : tryAcquireAdvisoryLock env now lockId ho tss reason = .ok attempt) :
    attempt.now = env.timestamp now ∧ Printed env attempt.expiresAt := by
  obtain ⟨expiresAt, he, hr⟩ := Except.bind_eq_ok_iff.mp h
  cases hr
  refine ⟨rfl, ?_⟩
  unfold advisoryLockExpiresAt at he
  split_ifs at he
  · cases he
    exact nofun
  · split at he
    · cases he
    · cases he
      rintro text ⟨⟩
      exact ⟨_, rfl⟩

/-- **A release takes rows of the named holder only**, and of the named resource. -/
theorem mem_release {lockId : AdvisoryLockId} {ho : String} {db : LockDb} {row : LockRow} :
    row ∈ (releaseAdvisoryLock lockId ho db).2.table.rows
      ↔ row ∈ db.table.rows ∧ ¬(row.lockId = lockId ∧ row.holderId = ho) := by
  simp [releaseAdvisoryLock, LockTable.mem_delete]

theorem release_fst {lockId : AdvisoryLockId} {ho : String} {db : LockDb} {row : LockRow}
    (hr : row ∈ db.table.rows) (hid : row.lockId = lockId) (hh : row.holderId = ho) :
    (releaseAdvisoryLock lockId ho db).1 = true := by
  simp only [releaseAdvisoryLock, List.any_eq_true, decide_eq_true_eq]
  exact ⟨row, hr, hid, hh⟩

theorem releaseHeld_cases {env : Env T} {lock : AdvisoryLock} {a reason : String} {f : Bool}
    {l : AdvisoryLockHolderLiveness} {lockId : AdvisoryLockId} {db db' : LockDb}
    {outcome : AdvisoryLockReleaseOutcome}
    (h : releaseHeld env lock a reason f l lockId db = (outcome, db')) :
    db' = db ∨ (∃ ai, outcome = .released lock ai) ∧
      db'.table = (releaseAdvisoryLock lockId lock.holderId db).2.table := by
  unfold releaseHeld at h
  rcases hr : releaseAdvisoryLock lockId lock.holderId db with ⟨_ | _, r⟩
  · left
    rw [hr] at h
    cases h
    simp only [releaseAdvisoryLock, Prod.mk.injEq, List.any_eq_false] at hr
    obtain ⟨hn, rfl⟩ := hr
    rw [LockTable.delete_eq_self]
    intro row hro
    simpa using hn row hro
  · rw [hr] at h
    cases h
    exact .inr ⟨⟨_, rfl⟩, rfl⟩

section

variable [LinearOrder T] {env : Env T} {testKill : TestKill} {attempt : Attempt}

/-- **What the transaction of an attempt does**: it leaves the database alone when the row of the
resource is neither expired nor of a dead process, and puts its own row in place of it
otherwise. -/
theorem acquire_cases {db db' : LockDb} {r : AcquireLockResult} (hk : db.table.Keyed)
    (h : acquireAdvisoryLockInTransaction env testKill attempt db = .ok (r, db')) :
    (r.takes = false ∧ db' = db) ∨ (r.takes = true ∧
        (∀ row ∈ db.table.rowsOf attempt.lockId, row.isExpired env attempt.now = true ∨
          (advisoryLockHolderLiveness testKill row.holderId).isDead = true) ∧
        db'.table.rows
          = (db.table.delete fun row => row.lockId = attempt.lockId).rows ++ [attempt.row]) := by
  unfold acquireAdvisoryLockInTransaction at h
  rw [hk.newestFirst_eq] at h
  rcases hk.rowsOf_cases attempt.lockId with hr | ⟨row, hr⟩
  · -- no row: the insertion is into the table as it is
    rw [hr] at h ⊢
    have hs : (db.table.delete fun row => row.lockId = attempt.lockId) = db.table := by
      apply LockTable.delete_eq_self
      intro row hro
      rw [decide_eq_false_iff_not]
      intro hid
      have hm := LockTable.mem_rowsOf.mpr ⟨hro, hid⟩
      rw [hr] at hm
      cases hm
    obtain ⟨t, hi, hre⟩ := Except.bind_eq_ok_iff.mp h
    cases hre
    exact .inr ⟨rfl, nofun, by rw [hs]; exact LockTable.insert_eq_ok hi⟩
  · have hm : row ∈ db.table.rows ∧ row.lockId = attempt.lockId :=
      LockTable.mem_rowsOf.mp (by rw [hr]; simp)
    rw [hr] at h ⊢
    simp only [scanExisting] at h
    by_cases he : row.isExpired env attempt.now = true
    · rw [if_pos he] at h
      obtain ⟨t, hi, hre⟩ := Except.bind_eq_ok_iff.mp h
      cases hre
      refine .inr ⟨rfl, ?_, LockTable.insert_eq_ok hi⟩
      intro other ho
      rw [List.mem_singleton.mp ho]
      exact .inl he
    · rw [if_neg he] at h
      by_cases hd : (advisoryLockHolderLiveness testKill row.holderId).isDead = true
      · rw [if_pos hd] at h
        obtain ⟨t, hi, hre⟩ := Except.bind_eq_ok_iff.mp h
        cases hre
        refine .inr ⟨rfl, ?_, ?_⟩
        · intro other ho
          rw [List.mem_singleton.mp ho]
          exact .inr hd
        · rw [← hm.2, ← hk.delete_key hm.1]
          exact LockTable.insert_eq_ok hi
      · rw [if_neg hd] at h
        cases h
        exact .inl ⟨rfl, rfl⟩

/-- **What a release under a policy does**: it leaves the database alone, or it releases the row
of the unexpired holder that it found, and then it was forced or that holder is dead. -/
theorem releaseWithPolicy_cases {now : T} {lockId : AdvisoryLockId}
    {eh : Option String} {a reason : String} {f : Bool} {db db' : LockDb}
    {outcome : AdvisoryLockReleaseOutcome}
    (h : releaseAdvisoryLockWithPolicy env testKill now lockId eh a reason f db = (outcome, db')) :
    db' = db ∨ ∃ lock ai, lock.id = lockId ∧ outcome = .released lock ai ∧
      (f = true ∨ (advisoryLockHolderLiveness testKill lock.holderId).isDead = true) ∧
      (∀ ho ∈ eh, lock.holderId = ho) ∧
      db'.table = (releaseAdvisoryLock lockId lock.holderId db).2.table := by
  unfold releaseAdvisoryLockWithPolicy at h
  split at h
  · cases h
    exact .inl rfl
  · rename_i lock hh
    have hid : lock.id = lockId := by
      simp only [isLockHeld, Option.map_eq_some_iff] at hh
      obtain ⟨row, -, rfl⟩ := hh
      rfl
    split_ifs at h with hexpected
    · cases h
      exact .inl rfl
    · have hm : ∀ ho ∈ eh, lock.holderId = ho := by
        intro ho hme
        rw [Option.mem_def.mp hme, Option.any_some, decide_eq_true_eq, not_not] at hexpected
        exact hexpected.symm
      have hd : ∀ l, releaseHeld env lock a reason f l lockId db = (outcome, db') →
          (f = true ∨ (advisoryLockHolderLiveness testKill lock.holderId).isDead = true) →
          db' = db ∨ ∃ lock ai, lock.id = lockId ∧ outcome = .released lock ai ∧
            (f = true ∨ (advisoryLockHolderLiveness testKill lock.holderId).isDead = true) ∧
            (∀ ho ∈ eh, lock.holderId = ho) ∧
            db'.table = (releaseAdvisoryLock lockId lock.holderId db).2.table := by
        intro l hr ha
        rcases releaseHeld_cases hr with hs | ⟨⟨ai, hou⟩, ht⟩
        · exact .inl hs
        · exact .inr ⟨lock, ai, hid, hou, ha, hm, ht⟩
      cases f with
      | true => exact hd _ h (.inl rfl)
      | false =>
        cases hl : advisoryLockHolderLiveness testKill lock.holderId with
        | alive pid =>
          rw [hl] at h
          cases h
          exact .inl rfl
        | dead pid =>
          rw [hl] at h
          exact hd _ h (.inr (by rw [hl]; rfl))
        | unknown why =>
          rw [hl] at h
          cases h
          exact .inl rfl

/-- **What the fence lets through**: the publisher's row is the only one of the workspace, and its
expiry is ahead of the clock. -/
theorem checkPublicationLease_ok {now : T} {workspaceId ho : String} {db : LockDb}
    (h : checkPublicationLease env now workspaceId ho db = .ok ()) :
    ∃ row ex, db.table.rowsOf (.index workspaceId) = [row] ∧ row.holderId = ho ∧
      row.expiresAt.bind env.parseFromRfc3339 = some ex ∧ now < ex := by
  simp only [checkPublicationLease] at h
  split_ifs at h with hfails
  simp only [not_or, not_not, Bool.not_eq_true', Bool.not_eq_false, Option.any_eq_true,
    decide_eq_true_eq] at hfails
  obtain ⟨⟨hl, hh⟩, ex, he, ha⟩ := hfails
  obtain ⟨row, hr⟩ := List.length_eq_one_iff.mp hl
  rw [hr] at hh he
  refine ⟨row, ex, hr, ?_, ?_, ha⟩
  · simpa using hh
  · simpa using he

end

end AdvisoryLocks
