/-
# The execution recorder of the daemon (`src/daemon/execution.rs`)

A daemon that owns a workspace writes a row into the job journal before it lets a job run and one
when the job has ended.  An append that fails stops the owner for good, whatever part of the row
reached the file; the next owner first recovers the jobs that were left open.

Times, row ids and run ids are parameters of the calls, and so is where an operation of the file
system fails.  The recorder keeps notes of what it did, for the statements only.
-/
import EideticEngine.OrphanRecovery
import EideticEngine.Serde

namespace DaemonExecutions

open DetailBudget Hex JobJournal OrphanRecovery RustText

/-! ## Jobs and their results -/

/-- `JobType`. -/
inductive JobType where
  | indexRebuild
  | indexCoalesce
  | decaySweep
  | memoryDebtSnapshot
  | consolidationPass
  | curationReview
  | quarantineSweep
  | evidenceRescreen
  | healthCheck
  | cachePruning
  | graphSnapshotPrune
  | storageCompact
  | linkPredictionRefresh
  | centralityRefresh
  | integrityCheck
  | backupExport
  | garbageCollection
  | primerRefresh
  | journalDistill
  | retrievalAffinityRefresh
  | teamSteward
  | custom

/-- `JobType::as_str`. -/
def JobType.asStr : JobType → String
  | .indexRebuild => "index_rebuild"
  | .indexCoalesce => "index_coalesce"
  | .decaySweep => "decay_sweep"
  | .memoryDebtSnapshot => "memory_debt_snapshot"
  | .consolidationPass => "consolidation_pass"
  | .curationReview => "curation_review"
  | .quarantineSweep => "quarantine_sweep"
  | .evidenceRescreen => "evidence_rescreen"
  | .healthCheck => "health_check"
  | .cachePruning => "cache_pruning"
  | .graphSnapshotPrune => "graph_snapshot_prune"
  | .storageCompact => "storage_compact"
  | .linkPredictionRefresh => "link_prediction_refresh"
  | .centralityRefresh => "centrality_refresh"
  | .integrityCheck => "integrity_check"
  | .backupExport => "backup_export"
  | .garbageCollection => "garbage_collection"
  | .primerRefresh => "primer_refresh"
  | .journalDistill => "journal_distill"
  | .retrievalAffinityRefresh => "retrieval_affinity_refresh"
  | .teamSteward => "team_steward"
  | .custom => "custom"

/-- `RunOutcome`. -/
inductive RunOutcome where
  | success
  | failed
  | cancelled
  | skipped
  | timedOut

/-- `RunOutcome::as_str`. -/
def RunOutcome.asStr : RunOutcome → String
  | .success => "success"
  | .failed => "failed"
  | .cancelled => "cancelled"
  | .skipped => "skipped"
  | .timedOut => "timed_out"

/-- `JobRunResult`, as far as a row is made from it. -/
structure JobRunResult where
  jobId : String
  jobType : JobType
  outcome : RunOutcome
  durationMs : UInt64
  itemsProcessed : Option UInt64
  error : Option String
  details : Option Serde.Json
  dryRun : Bool

/-- `DaemonForegroundOptions`. -/
structure DaemonForegroundOptions where
  workspace : String
  tickLimit : ℕ
  intervalMs : ℕ
  dryRun : Bool
  jobTypes : List JobType

/-- `DaemonJobInvocation`. -/
structure DaemonJobInvocation where
  tick : UInt32
  runnerJobId : String
  jobType : JobType
  daemonJobKey : String

/-- `DaemonExecution`. -/
structure DaemonExecution where
  workspace : String
  runId : String
  jobTypes : List JobType
  tickLimit : ℕ
  nextTick : ℕ
  nextJob : ℕ
  active : Option DaemonJobRow
  stopped : Bool
  completedJobs : ℕ
  completedTicks : ℕ
  recoveredOrphans : ℕ

/-! ## The journal and its failures -/

/-- What the recorder did: the append of a row for a job key, that opens or closes it, with its
success, the permission to run a job, and a stop. -/
inductive Note where
  | appended (key : String) (opens ok : Bool)
  | permitted (invocation : DaemonJobInvocation)
  | stopped

/-- Where an operation on the journal fails, with the text of the error: before anything was
changed, when the torn tail was kept but not removed, when the tail was repaired, or when so many
bytes were written behind it.  A row that was written completely may fail to be synced. -/
inductive Fault where
  | unopened (text : String)
  | preserved (text : String)
  | repaired (text : String)
  | cut (bytes : ℕ) (text : String)

/-- The libraries and the capacities that the journal depends on. -/
structure Setting where
  serde : JobRowSerde
  hash : List UInt8 → Bytes32
  sizeOfEntry : ℕ
  sizeOfRow : ℕ
  keyCapacity : DaemonJobRow → ℕ
  hold : DaemonJobRow → HeldRow

/-- The journal, the rows that were handed to it, and the notes of the present owner. -/
structure Recorder where
  disk : Option Disk
  attempted : List DaemonJobRow
  notes : List Note

def Recorder.note (r : Recorder) (note : Note) : Recorder := { r with notes := r.notes ++ [note] }

section

variable (env : Setting)

/-- `append_rows` of one row to a journal. -/
def appendDisk (disk : Disk) (row : DaemonJobRow) : Option Fault → Except String Unit × Disk
  | none => appendRows env.serde env.hash disk [row]
  | some fault =>
    match encodeRow env.serde row with
    | .error e => (.error e, disk)
    | .ok _ =>
      match fault with
      | .unopened e => (.error ("Lock daemon journal: " ++ e), disk)
      | .preserved e => (.error ("Repair interrupted daemon tail: " ++ e),
          { (repairTail env.serde env.hash disk).2 with journal := disk.journal })
      | .repaired e => (.error ("Sync repaired daemon journal: " ++ e),
          (repairTail env.serde env.hash disk).2)
      | .cut n e =>
        match repairTail env.serde env.hash disk with
        | (.error e, disk) => (.error e, disk)
        | (.ok (), disk) =>
          (.error ("Append daemon job row: " ++ e), (writeRow env.serde disk row (some n)).2)

/-- `append_rows` of one row, with its note. -/
def appendRow (r : Recorder) (row : DaemonJobRow) (fault : Option Fault) :
    Except String Unit × Recorder :=
  match appendDisk env (r.disk.getD ⟨[], []⟩) row fault with
  | (result, disk) => (result,
    { disk := some disk
      attempted := r.attempted ++ [row]
      notes := r.notes ++ [.appended row.daemonJobKey (isOpen row) result.isOk] })

/-- The recovery of a journal that was opened, with a failure. -/
def recoverDisk (call : RecoveryCall) (disk : Disk) :
    Option Fault → Except String DaemonRecoveryReport × Disk
  | none =>
    recoverFile env.serde env.hash env.sizeOfEntry env.sizeOfRow env.keyCapacity env.hold call disk
  | some (.unopened e) => (.error ("Lock daemon journal: " ++ e), disk)
  | some fault =>
    match buildIndex env.serde env.sizeOfEntry env.keyCapacity call.path disk.journal with
    | .error e => (.error e, disk)
    | .ok _ =>
      match fault with
      | .unopened e => (.error ("Lock daemon journal: " ++ e), disk)
      | .preserved e => (.error ("Repair interrupted daemon tail: " ++ e),
          { (repairTail env.serde env.hash disk).2 with journal := disk.journal })
      | .repaired e => (.error ("Sync repaired daemon journal: " ++ e),
          (repairTail env.serde env.hash disk).2)
      | .cut n e =>
        match repairTail env.serde env.hash disk with
        | (.error e, disk) => (.error e, disk)
        | (.ok (), repaired) =>
          -- of the rows that the recovery appends, so many bytes were written
          (.error ("Append daemon job row: " ++ e),
            { repaired with
              journal := (recoverFile env.serde env.hash env.sizeOfEntry env.sizeOfRow
                env.keyCapacity env.hold call disk).2.journal.take (repaired.journal.length + n) })

/-- The open last rows of a journal. -/
def openLast (rows : List DaemonJobRow) : List DaemonJobRow :=
  (rows.map DaemonJobRow.daemonJobKey).filterMap fun key => (latestRow rows key).filter isOpen

/-- The rows with which a recovery closes the open jobs. -/
def closers (call : RecoveryCall) (journal : List UInt8) : List DaemonJobRow :=
  match scannedRows env.serde call.path journal with
  | .error _ => []
  | .ok rows => (openLast rows).map (call.recoveredRow 0)

/-- `recover_orphaned_daemon_jobs_inner`, under the lease. -/
def recoverJournal (r : Recorder) (call : RecoveryCall) (fault : Option Fault) :
    Except String DaemonRecoveryReport × Recorder :=
  match r.disk with
  | none => (.ok call.report, r)
  | some disk =>
    match recoverDisk env call disk fault with
    | (result, disk') => (result,
      { r with
        disk := some disk'
        attempted := r.attempted ++ closers env call disk.journal })

/-! ## The calls -/

/-- `MAX_JOBS_PER_TICK`. -/
def maxJobsPerTick : ℕ := 256

/-- `MAX_DAEMON_FOREGROUND_TICK_LIMIT`. -/
def maxDaemonForegroundTickLimit : ℕ := 1000

/-- `MAX_DAEMON_FOREGROUND_INTERVAL_MS`. -/
def maxDaemonForegroundIntervalMs : ℕ := 60000

/-- `validate_options`. -/
def validateOptions (options : DaemonForegroundOptions) : Except String Unit :=
  if trim options.workspace = "" then .error "Daemon workspace must not be empty"
  else if options.tickLimit = 0 ∨ maxDaemonForegroundTickLimit < options.tickLimit then
    .error ("Daemon foreground tick limit must be between 1 and "
      ++ toString maxDaemonForegroundTickLimit)
  else if maxDaemonForegroundIntervalMs < options.intervalMs then
    .error ("Daemon foreground interval must be no greater than "
      ++ toString maxDaemonForegroundIntervalMs ++ " ms")
  else if options.jobTypes = [] then
    .error "Daemon foreground mode requires at least one steward job type"
  else if maxJobsPerTick < options.jobTypes.length then
    .error ("Daemon foreground mode permits at most " ++ toString maxJobsPerTick
      ++ " jobs per tick")
  else .ok ()

/-- `DaemonExecution::begin`; `resolved` is what becomes of the workspace path, and `leased` says
that another owner holds the lease. -/
def beginExecution (r : Recorder) (options : DaemonForegroundOptions)
    (resolved : Except String String) (leased : Bool) (runId : String) (call : RecoveryCall)
    (fault : Option Fault) :
    Except String DaemonExecution × Recorder :=
  match validateOptions options with
  | .error e => (.error e, r)
  | .ok () =>
    if options.dryRun then
      (.error "A dry run must not acquire a durable daemon execution cursor", r)
    else
      match resolved with
      | .error e => (.error e, r)
      | .ok workspace =>
        if leased then
          (.error ("A daemon run owns this workspace; refusing concurrent execution or orphan "
            ++ "recovery"), r)
        else
          match recoverJournal env r { call with
              workspace := workspace
              reason := "previous daemon execution owner stopped; outcome may be unknown" }
            fault with
          | (.error e, r) => (.error e, r)
          | (.ok recovery, r) => (.ok
            { workspace := workspace
              runId := runId
              jobTypes := options.jobTypes
              tickLimit := options.tickLimit
              nextTick := 1
              nextJob := 0
              active := none
              stopped := false
              completedJobs := 0
              completedTicks := 0
              recoveredOrphans := recovery.openJobsCancelled }, r)

/-- A number with at least six digits. -/
def sixDigits (n : ℕ) : String :=
  String.ofList (List.replicate (6 - (toString n).length) '0') ++ toString n

/-- `job_key`. -/
def jobKey (run : String) (tick : UInt32) (job : String) : String :=
  run ++ ":tick-" ++ sixDigits tick.toNat ++ ":" ++ job

/-- The invocation of a job in a tick. -/
def DaemonExecution.invocation (e : DaemonExecution) (tick job : ℕ) : DaemonJobInvocation where
  tick := UInt32.ofNat tick
  runnerJobId := "job-" ++ sixDigits (job + 1)
  jobType := e.jobTypes.getD job .custom
  daemonJobKey := jobKey e.runId (UInt32.ofNat tick) ("job-" ++ sixDigits (job + 1))

/-- The row ids and times that a call takes. -/
structure Stamps where
  rowId : String
  now : String
  later : String

/-- The start row of an invocation. -/
def DaemonExecution.startRow (e : DaemonExecution) (invocation : DaemonJobInvocation)
    (stamps : Stamps) : DaemonJobRow where
  schema := "ee.steward.daemon_job_row.v1"
  rowId := stamps.rowId
  runId := e.runId
  daemonJobKey := invocation.daemonJobKey
  runnerJobId := invocation.runnerJobId
  tick := invocation.tick
  jobType := invocation.jobType.asStr
  status := "running"
  outcome := none
  workspace := e.workspace
  writeOwnerId := "ee-daemon-single-write-owner"
  reason := "daemon foreground tick " ++ toString invocation.tick.toNat ++ " job starting"
  startedAt := some stamps.now
  completedAt := none
  recordedAt := stamps.now
  durationMs := none
  itemsProcessed := none
  error := none
  dryRun := false
  durableMutation := false
  recoveredFromOrphan := false
  recoveryReason := none

/-- `DaemonExecution::begin_next_job`. -/
def beginNextJob (e : DaemonExecution) (r : Recorder) (stamps : Stamps) (fault : Option Fault) :
    Except String (Option DaemonJobInvocation) × DaemonExecution × Recorder :=
  if e.stopped then
    (.error "Daemon execution has stopped; acquire a new execution owner", e, r)
  else if e.active.isSome then
    (.error "Finish the active daemon job before starting another", e, r)
  else if e.tickLimit < e.nextTick then (.ok none, e, r)
  else
    let invocation := e.invocation e.nextTick e.nextJob
    let row := e.startRow invocation stamps
    match appendRow env r row fault with
    | (.error error, r) => (.error error, { e with stopped := true }, r)
    | (.ok (), r) =>
      (.ok (some invocation), { e with active := some row }, r.note (.permitted invocation))

/-- The mutation that the details of a result report. -/
def JobRunResult.durableMutation (result : JobRunResult) : Bool :=
  match result.details.bind (Serde.Json.get "durableMutation") with
  | some (.bool value) => value
  | _ => false

/-- `row_from_result`. -/
def rowFromResult (workspace runId : String) (tick : UInt32) (startedAt : String)
    (stamps : Stamps) (result : JobRunResult) : DaemonJobRow where
  schema := "ee.steward.daemon_job_row.v1"
  rowId := stamps.rowId
  runId := runId
  daemonJobKey := jobKey runId tick result.jobId
  runnerJobId := result.jobId
  tick := tick
  jobType := result.jobType.asStr
  status := result.outcome.asStr
  outcome := some result.outcome.asStr
  workspace := workspace
  writeOwnerId := "ee-daemon-single-write-owner"
  reason := "daemon foreground tick " ++ toString tick.toNat ++ " completed"
  startedAt := some startedAt
  completedAt := some stamps.now
  recordedAt := stamps.later
  durationMs := some result.durationMs
  itemsProcessed := result.itemsProcessed
  error := result.error
  dryRun := result.dryRun
  durableMutation := result.durableMutation
  recoveredFromOrphan := false
  recoveryReason := none

/-- The result is one of the active invocation. -/
def MatchesActive (active : DaemonJobRow) (invocation : DaemonJobInvocation)
    (result : JobRunResult) : Prop :=
  invocation.daemonJobKey = active.daemonJobKey ∧ invocation.tick = active.tick
    ∧ invocation.runnerJobId = active.runnerJobId ∧ invocation.jobType.asStr = active.jobType
    ∧ result.jobId = active.runnerJobId ∧ result.jobType.asStr = active.jobType
    ∧ result.dryRun = false

instance (active : DaemonJobRow) (invocation : DaemonJobInvocation) (result : JobRunResult) :
    Decidable (MatchesActive active invocation result) :=
  inferInstanceAs (Decidable (_ ∧ _))

/-- The cursor behind a finished job. -/
def DaemonExecution.advance (e : DaemonExecution) : DaemonExecution :=
  if e.nextJob + 1 = e.jobTypes.length then
    { e with
      active := none
      completedJobs := e.completedJobs + 1
      completedTicks := e.completedTicks + 1
      nextTick := e.nextTick + 1
      nextJob := 0 }
  else
    { e with
      active := none
      completedJobs := e.completedJobs + 1
      nextJob := e.nextJob + 1 }

/-- `DaemonExecution::finish_job`. -/
def finishJob (e : DaemonExecution) (r : Recorder) (invocation : DaemonJobInvocation)
    (result : JobRunResult) (stamps : Stamps) (fault : Option Fault) :
    Except String Unit × DaemonExecution × Recorder :=
  if e.stopped then (.error "Daemon execution has stopped; cannot acknowledge a result", e, r)
  else
    match e.active with
    | none => (.error "No daemon job is active", e, r)
    | some active =>
      if ¬ MatchesActive active invocation result then
        (.error "Daemon result does not match the active durable invocation", e, r)
      else
        let row := rowFromResult e.workspace e.runId active.tick
          (active.startedAt.getD active.recordedAt) stamps result
        match appendRow env r row fault with
        | (.error error, r) => (.error error, { e with stopped := true }, r)
        | (.ok (), r) => (.ok (), e.advance, r)

/-- The row that cancels the active job. -/
def cancelledRow (active : DaemonJobRow) (reason : String) (stamps : Stamps) : DaemonJobRow :=
  { active with
    rowId := stamps.rowId
    status := "cancelled"
    outcome := some "cancelled"
    reason := "daemon execution interrupted; prior handler outcome may be unknown"
    error := some reason
    completedAt := some stamps.now
    recordedAt := stamps.now }

/-- `DaemonExecution::stop`. -/
def stop (e : DaemonExecution) (r : Recorder) (reason : String) (stamps : Stamps)
    (fault : Option Fault) : Except String Unit × DaemonExecution × Recorder :=
  if e.stopped then
    (.error "Daemon execution already stopped; inspect its durable journal", e, r)
  else
    let e := { e with stopped := true }
    let r := r.note .stopped
    match e.active with
    | none => (.ok (), e, r)
    | some active =>
      match appendRow env r (cancelledRow active reason stamps) fault with
      | (.error error, r) => (.error error, e, r)
      | (.ok (), r) => (.ok (), { e with active := none }, r)

/-! ## Runs -/

/-- An owner with its notes. -/
structure Term where
  execution : DaemonExecution
  notes : List Note

/-- The workspace: the journal, the owner of the lease, and the owners before. -/
structure World where
  recorder : Recorder
  owner : Option DaemonExecution
  past : List Term

/-- A call, the failure that it meets, and the end of an owner. -/
inductive Event where
  | beginExecution (options : DaemonForegroundOptions) (resolved : Except String String)
    (runId : String) (call : RecoveryCall) (fault : Option Fault)
  | recover (call : RecoveryCall) (fault : Option Fault)
  | beginNextJob (stamps : Stamps) (fault : Option Fault)
  | finishJob (invocation : DaemonJobInvocation) (result : JobRunResult) (stamps : Stamps)
      (fault : Option Fault)
  | stop (reason : String) (stamps : Stamps) (fault : Option Fault)
  | drop

def World.step (w : World) : Event → World
  | .beginExecution options resolved runId call fault =>
    match beginExecution env w.recorder options resolved w.owner.isSome runId call fault with
    | (.error _, r) => { w with recorder := r }
    | (.ok e, r) => { w with recorder := { r with notes := [] }, owner := some e }
  | .recover call fault =>
    -- an owner keeps the lease from the recovery
    if w.owner.isSome then w
    else { w with recorder := (recoverJournal env w.recorder call fault).2 }
  | .beginNextJob stamps fault =>
    match w.owner with
    | none => w
    | some e =>
      match beginNextJob env e w.recorder stamps fault with
      | (_, e, r) => { w with recorder := r, owner := some e }
  | .finishJob invocation result stamps fault =>
    match w.owner with
    | none => w
    | some e =>
      match finishJob env e w.recorder invocation result stamps fault with
      | (_, e, r) => { w with recorder := r, owner := some e }
  | .stop reason stamps fault =>
    match w.owner with
    | none => w
    | some e =>
      match stop env e w.recorder reason stamps fault with
      | (_, e, r) => { w with recorder := r, owner := some e }
  | .drop =>
    match w.owner with
    | none => w
    | some e =>
      { recorder := { w.recorder with notes := [] }
        owner := none
        past := w.past ++ [⟨e, w.recorder.notes⟩] }

end

/-- No journal and no owner. -/
def World.initial : World := ⟨⟨none, [], []⟩, none, []⟩

/-- The bytes of the journal. -/
def World.journal (w : World) : List UInt8 := (w.recorder.disk.map Disk.journal).getD []

/-- The owners up to now. -/
def World.terms (w : World) : List Term :=
  w.past ++ (w.owner.map fun e => ⟨e, w.recorder.notes⟩).toList

/-- The worlds that a run reaches; a file is shorter than 2^63 bytes. -/
inductive Run (env : Setting) : World → Prop
  | initial : Run env .initial
  | step {w : World} (h : Run env w) (event : Event)
      (hsize : (w.step env event).journal.length < 2 ^ 63) : Run env (w.step env event)

end DaemonExecutions
