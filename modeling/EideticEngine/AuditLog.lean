/-
# The audit log (`src/db/mod.rs`, `src/core/audit.rs`)

Every row of the log carries the hash of the row before it and its own hash over all its other
columns.  A writer takes the row with the largest timestamp and identifier as the one before;
the verifier goes through the rows by timestamp, workspace and identifier and compares.

Digest, JSON reader, the printing of JSON strings, clock texts and table constraints are
parameters.  What a row is hashed over is a JSON list of texts and nulls, and those are
determined by their text, so a digest without collisions tells rows apart.
-/
import EideticEngine.HashChain
import EideticEngine.JsonIdentity
import EideticEngine.Hex
import EideticEngine.ExceptRules

namespace Audit

open Serde RustText HashChain

/-! ## Rows -/

/-- `CreateAuditInput`. -/
structure CreateAuditInput where
  workspaceId : Option String
  actor : Option String
  action : String
  targetType : Option String
  targetId : Option String
  details : Option String
  deriving DecidableEq, Repr

/-- `StoredAuditEntry`. -/
structure StoredAuditEntry where
  id : String
  workspaceId : Option String
  timestamp : String
  actor : Option String
  action : String
  targetType : Option String
  targetId : Option String
  details : Option String
  surface : String
  mutationKind : String
  beforeHash : Option String
  afterHash : Option String
  prevRowHash : Option String
  thisRowHash : Option String
  deriving DecidableEq, Repr

/-- The code outside this repository that the log uses, over the instants `T` of the clock. -/
structure Library (T : Type) where
  /-- `blake3::hash(..).to_hex()`. -/
  digest : List UInt8 → String
  /-- `serde_json::from_str(..).ok()`. -/
  parseJson : String → Option Json
  /-- `DateTime::to_rfc3339`. -/
  toRfc3339 : T → String
  /-- `DateTime::to_rfc3339_opts(SecondsFormat::Nanos, false)`. -/
  toRfc3339Nanos : T → String
  /-- `DateTime::parse_from_rfc3339`, in UTC; an error is its message. -/
  parseRfc3339 : String → Except String T
  /-- `checked_add_signed(TimeDelta::nanoseconds(1))`. -/
  checkedAddNanosecond : T → Option T
  /-- The `Debug` text of an `Option<String>`. -/
  debug : Option String → String
  /-- The `CHECK` constraints and the foreign key of the table. -/
  admits : StoredAuditEntry → Bool

section

variable [JsonStrings] {T : Type}

/-- `AUDIT_ROW_HASH_VERSION`. -/
def auditRowHashVersion : String := "ee.audit.row_hash.v1"

/-- The list that a row is hashed over: every column but the hash itself. -/
def rowPayload (entry : StoredAuditEntry) : List (Option String) :=
  [some auditRowHashVersion, some entry.id, entry.workspaceId, some entry.timestamp, entry.actor,
    some entry.action, entry.targetType, entry.targetId, entry.details, some entry.surface,
    some entry.mutationKind, entry.beforeHash, entry.afterHash, entry.prevRowHash]

/-- `compute_audit_row_hash`. -/
def computeAuditRowHash (lib : Library T) (entry : StoredAuditEntry) : String :=
  "blake3:" ++ lib.digest (asBytes (Json.display (.array ((rowPayload entry).map Json.ofOption))))

/-- A digest without collisions tells rows apart in every column that is hashed. -/
theorem rowPayload_eq_of_hash {lib : Library T} (hdi : Function.Injective lib.digest)
    {en e' : StoredAuditEntry}
    (h : computeAuditRowHash lib en = computeAuditRowHash lib e') :
    rowPayload en = rowPayload e' := by
  unfold computeAuditRowHash at h
  have hd := hdi (String.append_right_inj _ |>.mp h)
  exact Json.display_array_injective (asBytes_injective hd)

/-- The row holds its own hash. -/
def Sealed (lib : Library T) (entry : StoredAuditEntry) : Prop :=
  entry.thisRowHash = some (computeAuditRowHash lib entry)

/-- **Sealed rows are told apart by their hashes**, in every column. -/
theorem injOn_computeAuditRowHash {lib : Library T} (hd : Function.Injective lib.digest) :
    Set.InjOn (computeAuditRowHash lib) {en | Sealed lib en} := by
  intro en hs e' hs' h
  have hp := rowPayload_eq_of_hash hd h
  have ho : en.thisRowHash = e'.thisRowHash := hs.trans ((congrArg some h).trans hs'.symm)
  obtain ⟨⟩ := en
  obtain ⟨⟩ := e'
  simp only [rowPayload, List.cons.injEq, Option.some.injEq, and_true, true_and] at hp
  simp only [StoredAuditEntry.mk.injEq]
  obtain ⟨h1, h2, h3, h4, h5, h6, h7, h8, h9, h10, h11, h12, h13⟩ := hp
  exact ⟨h1, h2, h3, h4, h5, h6, h7, h8, h9, h10, h11, h12, h13, ho⟩

/-! ## The verifier -/

/-- The order of `sort_entries_chronological`. -/
def compareChronological (left right : StoredAuditEntry) : Ordering :=
  (compare left.timestamp right.timestamp).then
    ((compare left.workspaceId right.workspaceId).then (compare left.id right.id))

/-- `sort_entries_chronological`. -/
def sortEntriesChronological (entries : List StoredAuditEntry) : List StoredAuditEntry :=
  entries.insertionSort fun left right => compareChronological left right ≠ .gt

/-- `DomainError::Usage`. -/
structure UsageError where
  message : String
  repair : Option String
  deriving DecidableEq, Repr

/-- `parse_required_instant`. -/
def parseRequiredInstant (lib : Library T) (value field : String) : Except UsageError T :=
  (lib.parseRfc3339 value).mapError fun error =>
    ⟨field ++ " must be an RFC 3339 timestamp: " ++ error,
      some "Use timestamps such as 2026-05-01T00:00:00Z."⟩

/-- `audit_action_filter_matches`. -/
def auditActionFilterMatches (action wanted : String) : Bool :=
  if wanted = "*" then true
  else if wanted.toList.getLast? = some '*' then wanted.toList.dropLast.isPrefixOf action.toList
  else action = wanted

/-- A filter text without blanks around it, if anything is left. -/
def filterText (text : Option String) : Option String :=
  (text.map trim).filter fun value => value ≠ ""

/-- `filter_entries`. -/
def filterEntries [LT T] [DecidableLT T] (lib : Library T) (since until' : Option T)
    (surface action target : Option String) :
    List StoredAuditEntry → Except UsageError (List StoredAuditEntry)
  | [] => .ok []
  | entry :: entries => do
    let timestamp ← parseRequiredInstant lib entry.timestamp "audit_log.timestamp"
    let rest ← filterEntries lib since until' surface action target entries
    if (since.any fun bound => timestamp < bound) || (until'.any fun bound => bound < timestamp)
        || ((filterText surface).any fun wanted => entry.surface ≠ wanted)
        || ((filterText action).any fun wanted => !auditActionFilterMatches entry.action wanted)
        || ((filterText target).any fun wanted => entry.targetId ≠ some wanted) then
      return rest
    else return entry :: rest

/-- `VerificationIssue`. -/
structure VerificationIssue where
  code : String
  auditId : Option String
  shardId : Option String
  message : String
  deriving DecidableEq, Repr

/-- `AuditVerifyReport`, without the shard part that a single chain leaves empty. -/
structure AuditVerifyReport where
  schema : String
  integrityOk : Bool
  rows : ℕ
  lastHash : Option String
  firstBreak : Option String
  issues : List VerificationIssue
  deriving DecidableEq, Repr

/-- The variables of the loop of `verify_entries_with_shard`. -/
structure VerifyState where
  expectedPrevHash : Option String
  lastHash : Option String
  firstBreak : Option String
  issues : List VerificationIssue

/-- `push_first_issue`. -/
def VerifyState.pushFirstIssue (state : VerifyState) (code auditId : String)
    (shardId : Option String) (message : String) : VerifyState :=
  { state with
    firstBreak := state.firstBreak.or (some auditId)
    issues := state.issues ++ [⟨code, some auditId, shardId, message⟩] }

/-- The comparison of a row with the hash expected before it. -/
def VerifyState.comparePrev (lib : Library T) (shardId : Option String) (state : VerifyState)
    (entry : StoredAuditEntry) : VerifyState :=
  if entry.prevRowHash ≠ state.expectedPrevHash then
    state.pushFirstIssue "prev_hash_mismatch" entry.id shardId
      ("row " ++ entry.id ++ " points to " ++ lib.debug entry.prevRowHash ++ ", expected "
        ++ lib.debug state.expectedPrevHash)
  else state

/-- The comparison of a row with its own hash. -/
def VerifyState.compareOwn (lib : Library T) (shardId : Option String) (state : VerifyState)
    (entry : StoredAuditEntry) : VerifyState :=
  match entry.thisRowHash with
  | some storedHash =>
    let computed := computeAuditRowHash lib entry
    let state :=
      if storedHash ≠ computed then
        state.pushFirstIssue "row_hash_mismatch" entry.id shardId
          ("row " ++ entry.id ++ " hash mismatch: stored " ++ storedHash ++ ", recomputed "
            ++ computed)
      else state
    { state with expectedPrevHash := some storedHash, lastHash := some storedHash }
  | none =>
    { state.pushFirstIssue "missing_row_hash" entry.id shardId
        ("row " ++ entry.id ++ " is missing this_row_hash") with
      expectedPrevHash := none
      lastHash := none }

/-- One turn of the loop. -/
def VerifyState.visit (lib : Library T) (shardId : Option String) (state : VerifyState)
    (entry : StoredAuditEntry) : VerifyState :=
  (state.comparePrev lib shardId entry).compareOwn lib shardId entry

/-- `verify_entries_with_shard`. -/
def verifyEntriesWithShard [LT T] [DecidableLT T] (lib : Library T)
    (entries : List StoredAuditEntry) (since until' : Option T) (shardId : Option String) :
    Except UsageError AuditVerifyReport := do
  let filtered ← filterEntries lib since until' none none none (sortEntriesChronological entries)
  let expectedPrevHash := if since.isSome then filtered.head?.bind (·.prevRowHash) else none
  let state := filtered.foldl (VerifyState.visit lib shardId) ⟨expectedPrevHash, none, none, []⟩
  return {
    schema := "ee.audit.verify.v1"
    integrityOk := state.issues.isEmpty
    rows := min filtered.length (2 ^ 32 - 1)
    lastHash := state.lastHash
    firstBreak := state.firstBreak
    issues := state.issues }

/-- `verify_entries`. -/
def verifyEntries [LT T] [DecidableLT T] (lib : Library T) (entries : List StoredAuditEntry)
    (since until' : Option T) : Except UsageError AuditVerifyReport :=
  verifyEntriesWithShard lib entries since until' none

/-! ## What the loop accepts -/

omit [JsonStrings] in
theorem VerifyState.comparePrev_fields (lib : Library T) (si : Option String)
    (s : VerifyState) (en : StoredAuditEntry) :
    (s.comparePrev lib si en).expectedPrevHash = s.expectedPrevHash ∧
      (s.comparePrev lib si en).lastHash = s.lastHash ∧
      ((s.comparePrev lib si en).issues = [] ↔
        s.issues = [] ∧ en.prevRowHash = s.expectedPrevHash) := by
  unfold comparePrev
  split
  · rename_i hne
    exact ⟨rfl, rfl, by simp [pushFirstIssue, hne]⟩
  · rename_i heq
    exact ⟨rfl, rfl, (and_iff_left (not_not.mp heq)).symm⟩

theorem VerifyState.compareOwn_issues (lib : Library T) (si : Option String)
    (s : VerifyState) (en : StoredAuditEntry) :
    (s.compareOwn lib si en).issues = [] ↔ s.issues = [] ∧ Sealed lib en := by
  unfold compareOwn Sealed
  cases hs : en.thisRowHash with
  | none => simp [pushFirstIssue]
  | some stored =>
    simp only [Option.some.injEq]
    split
    · rename_i hne
      simp [pushFirstIssue, hne]
    · rename_i heq
      exact (and_iff_left (not_not.mp heq)).symm

/-- A sealed row is what the next one is expected to name. -/
theorem VerifyState.compareOwn_of_sealed {lib : Library T} (si : Option String)
    (s : VerifyState) {en : StoredAuditEntry} (hs : Sealed lib en) :
    (s.compareOwn lib si en).expectedPrevHash = some (computeAuditRowHash lib en) ∧
      (s.compareOwn lib si en).lastHash = some (computeAuditRowHash lib en) := by
  unfold compareOwn
  rw [hs]
  exact ⟨rfl, rfl⟩

/-- A turn of the loop finds nothing when the row names what is expected and is sealed. -/
theorem VerifyState.visit_issues (lib : Library T) (si : Option String)
    (s : VerifyState) (en : StoredAuditEntry) :
    (s.visit lib si en).issues = [] ↔
      s.issues = [] ∧ en.prevRowHash = s.expectedPrevHash ∧ Sealed lib en := by
  unfold visit
  rw [compareOwn_issues, (comparePrev_fields lib si s en).2.2, and_assoc]

/-- **The loop finds nothing exactly in a chain of sealed rows.** -/
theorem issues_foldl_visit_iff (lib : Library T) (si : Option String)
    (r : List StoredAuditEntry) : ∀ s : VerifyState,
    (r.foldl (VerifyState.visit lib si) s).issues = [] ↔ s.issues = [] ∧
        Linked (·.prevRowHash) (computeAuditRowHash lib) s.expectedPrevHash r ∧
        ∀ row ∈ r, Sealed lib row := by
  induction r with
  | nil =>
    intro s
    simp [Linked]
  | cons row r ih =>
    intro s
    rw [List.foldl_cons, ih, VerifyState.visit_issues, List.forall_mem_cons]
    constructor
    · rintro ⟨⟨hi, hp, hs⟩, hl, hr⟩
      rw [VerifyState.visit, (VerifyState.compareOwn_of_sealed si _ hs).1] at hl
      exact ⟨hi, ⟨hp, hl⟩, hs, hr⟩
    · rintro ⟨hi, ⟨hp, hl⟩, hs, hr⟩
      refine ⟨⟨hi, hp, hs⟩, ?_, hr⟩
      rw [VerifyState.visit, (VerifyState.compareOwn_of_sealed si _ hs).1]
      exact hl

/-- The last hash of sealed rows. -/
theorem lastHash_foldl_visit (lib : Library T) (si : Option String)
    (r : List StoredAuditEntry) : ∀ s : VerifyState, (∀ row ∈ r, Sealed lib row) →
    (r.foldl (VerifyState.visit lib si) s).lastHash
      = endOf (computeAuditRowHash lib) s.lastHash r := by
  induction r with
  | nil =>
    intro s _
    rfl
  | cons row r ih =>
    intro s hs
    rw [List.forall_mem_cons] at hs
    rw [List.foldl_cons, ih _ hs.2, VerifyState.visit,
      (VerifyState.compareOwn_of_sealed si _ hs.1).2]
    rfl

/-! ## What the last hash binds -/

section Verify

variable [LT T] [DecidableLT T]

omit [JsonStrings] in
/-- Without bounds and filters every row is kept. -/
theorem filterEntries_all {lib : Library T} (entries : List StoredAuditEntry) :
    ∀ {r : List StoredAuditEntry},
      filterEntries lib none none none none none entries = .ok r → r = entries := by
  induction entries with
  | nil =>
    intro r h
    cases h
    rfl
  | cons en entries ih =>
    intro r h
    unfold filterEntries at h
    obtain ⟨t, -, h⟩ := Except.bind_eq_ok_iff.mp h
    obtain ⟨re, hr, h⟩ := Except.bind_eq_ok_iff.mp h
    simp only [filterText, Option.map_none, Option.filter_none, Option.any_none, Bool.or_self,
      Bool.false_eq_true, if_false] at h
    cases h
    rw [ih hr]

/-- The hash that the first row is expected to name. -/
def startHash (since : Option T) (rows : List StoredAuditEntry) : Option String :=
  if since.isSome then rows.head?.bind (·.prevRowHash) else none

/-- What the report says of the rows inside the window. -/
theorem verifyEntries_of_filter {lib : Library T} {entries r : List StoredAuditEntry}
    {s u' : Option T}
    (hr : filterEntries lib s u' none none none (sortEntriesChronological entries) = .ok r) :
    ∃ report, verifyEntries lib entries s u' = .ok report ∧ (report.integrityOk = true ↔
        Linked (·.prevRowHash) (computeAuditRowHash lib) (startHash s r) r ∧
          ∀ row ∈ r, Sealed lib row) ∧
      ((∀ row ∈ r, Sealed lib row) → report.lastHash = endOf (computeAuditRowHash lib) none r) := by
  unfold verifyEntries verifyEntriesWithShard
  rw [hr]
  refine ⟨_, rfl, ?_, fun hs => lastHash_foldl_visit lib none r _ hs⟩
  rw [List.isEmpty_iff, issues_foldl_visit_iff]
  exact and_iff_right rfl

theorem verifyEntries_spec {lib : Library T} {entries : List StoredAuditEntry}
    {s u' : Option T} {report : AuditVerifyReport}
    (h : verifyEntries lib entries s u' = .ok report) :
    ∃ r, filterEntries lib s u' none none none (sortEntriesChronological entries) = .ok r ∧
      (report.integrityOk = true ↔
        Linked (·.prevRowHash) (computeAuditRowHash lib) (startHash s r) r ∧
          ∀ row ∈ r, Sealed lib row) ∧
      ((∀ row ∈ r, Sealed lib row) → report.lastHash = endOf (computeAuditRowHash lib) none r) := by
  have hb := h
  unfold verifyEntries verifyEntriesWithShard at hb
  obtain ⟨r, hr, -⟩ := Except.bind_eq_ok_iff.mp hb
  obtain ⟨r', h', hs⟩ := verifyEntries_of_filter hr
  obtain rfl : r' = report := Except.ok.inj (h'.symm.trans h)
  exact ⟨r, hr, hs⟩

/-- **The last hash binds the log.**  Of two logs that are accepted under the same lower bound
with the same last hash, the rows inside the windows of one end the rows inside that of the
other.  Without a lower bound they are the same rows, and without any window the two logs are,
in chronological order, the same in every column. -/
theorem last_hash_binds_log {lib : Library T} (hdigest : Function.Injective lib.digest)
    {entries entries' : List StoredAuditEntry} {since upper upper' : Option T}
    {report report' : AuditVerifyReport}
    (h : verifyEntries lib entries since upper = .ok report)
    (h' : verifyEntries lib entries' since upper' = .ok report')
    (hok : report.integrityOk = true) (hok' : report'.integrityOk = true)
    (hlast : report.lastHash = report'.lastHash) :
    (∃ rows rows',
      filterEntries lib since upper none none none (sortEntriesChronological entries) = .ok rows ∧
      filterEntries lib since upper' none none none (sortEntriesChronological entries')
        = .ok rows' ∧
      (rows <:+ rows' ∨ rows' <:+ rows) ∧ (since = none → rows = rows')) ∧
    (since = none → upper = none → upper' = none →
      sortEntriesChronological entries = sortEntriesChronological entries') := by
  obtain ⟨rows, hr, ha, he⟩ := verifyEntries_spec h
  obtain ⟨rows', hr', ha', he'⟩ := verifyEntries_spec h'
  obtain ⟨hl, hs⟩ := ha.mp hok
  obtain ⟨hl', hs'⟩ := ha'.mp hok'
  have hi := injOn_computeAuditRowHash hdigest
  have hsa : endOf (computeAuditRowHash lib) none rows
      = endOf (computeAuditRowHash lib) none rows' := by
    rw [← he hs, hlast, he' hs']
  have heq : since = none → rows = rows' := by
    rintro rfl
    exact Linked.eq_of_endOf hi hs hs' hl hl' hsa
  refine ⟨⟨rows, rows', hr, hr', Linked.suffix_or_suffix hi rows hs hs' hl hl' hsa, heq⟩, ?_⟩
  rintro rfl rfl rfl
  rw [← filterEntries_all _ hr, ← filterEntries_all _ hr', heq rfl]

end Verify

end

/-! ## A sample log -/

attribute [local instance] serdeStrings

/-- A row of the sample log. -/
def sampleRow (id timestamp : String) (prevRowHash : Option String) (digest : String) :
    StoredAuditEntry where
  id := id
  workspaceId := none
  timestamp := timestamp
  actor := none
  action := "memory.create"
  targetType := none
  targetId := none
  details := none
  surface := "memory"
  mutationKind := "memory.create"
  beforeHash := none
  afterHash := none
  prevRowHash := prevRowHash
  thisRowHash := some ("blake3:" ++ digest)

/-- The digests of three rows that one insert and a batch of two write. -/
def firstDigest : String := "8a4cbc7706208d3057e1834ebea244237ca8ee6be2f9de9c364d77e76c95ecab"

@[inherit_doc firstDigest]
def secondDigest : String := "12398526a1c79c01de0a6a02a1757489bb0dd5e0ebc98647fb79b0a739a19fb8"

@[inherit_doc firstDigest]
def thirdDigest : String := "1dcd7184331e270cb5e741a9b2657097cbba82d13f1f35f77d649fec3643f302"

/-- The digests of three rows that single inserts write at one clock reading. -/
def forkRootDigest : String := "b0c4f772b1d5d42bd31ce7f966ac30c75d19c2486943f3642295ff8673d786f9"

@[inherit_doc forkRootDigest]
def forkLeftDigest : String := "e9f82a76bdff80ab02ea9b5ddf7cc7e43ba5da23e7d60178cc8bd78b667c7c0c"

@[inherit_doc forkRootDigest]
def forkRightDigest : String := "2a676afde5cf8211e073417afeb333fccc5f1cc6e1d173b69d3a352ad43992e7"

/-- The first row of the sample log. -/
def sampleFirst : StoredAuditEntry :=
  sampleRow "audit_00000000000000000000000001" "2026-05-01T00:00:00+00:00" none firstDigest

/-- The second row. -/
def sampleSecond : StoredAuditEntry :=
  sampleRow "audit_00000000000000000000000002" "2026-05-01T00:00:00.000000000+00:00"
    sampleFirst.thisRowHash secondDigest

/-- The third row. -/
def sampleThird : StoredAuditEntry :=
  sampleRow "audit_00000000000000000000000003" "2026-05-01T00:00:00.000000001+00:00"
    sampleSecond.thisRowHash thirdDigest

/-- The row that the inserts of one clock reading start with. -/
def sampleForkRoot : StoredAuditEntry :=
  sampleRow "audit_00000000000000000000000002" "2026-05-01T00:00:00+00:00" none forkRootDigest

/-- The row inserted next, under a smaller identifier. -/
def sampleForkLeft : StoredAuditEntry :=
  sampleRow "audit_00000000000000000000000001" "2026-05-01T00:00:00+00:00"
    sampleForkRoot.thisRowHash forkLeftDigest

/-- The row inserted last. -/
def sampleForkRight : StoredAuditEntry :=
  sampleRow "audit_00000000000000000000000003" "2026-05-01T00:00:00+00:00"
    sampleForkRoot.thisRowHash forkRightDigest

/-- The rows whose digests are known. -/
def sampleRows : List (StoredAuditEntry × String) :=
  [(sampleFirst, firstDigest), (sampleSecond, secondDigest), (sampleThird, thirdDigest),
    (sampleForkRoot, forkRootDigest), (sampleForkLeft, forkLeftDigest),
    (sampleForkRight, forkRightDigest)]

/-- What a row is hashed over, as bytes. -/
def payloadBytes (entry : StoredAuditEntry) : List UInt8 :=
  asBytes (Json.display (.array ((rowPayload entry).map Json.ofOption)))

theorem rowPayload_eq_of_bytes {en e' : StoredAuditEntry}
    (h : payloadBytes en = payloadBytes e') : rowPayload en = rowPayload e' :=
  Json.display_array_injective (asBytes_injective h)

/-- The digest of the sample rows, and something of its own for everything else. -/
def sampleDigest (bytes : List UInt8) : String :=
  match sampleRows.find? fun row => payloadBytes row.1 = bytes with
  | some row => row.2
  | none => "x" ++ Hex.hexLower bytes

theorem sampleDigest_injective : Function.Injective sampleDigest := by
  have hk : (sampleRows.map Prod.snd).Nodup := by
    simp [sampleRows, firstDigest, secondDigest, thirdDigest, forkRootDigest, forkLeftDigest,
      forkRightDigest]
  have hs : ∀ row ∈ sampleRows, row.2.toList.head? ≠ some 'x' := by
    simp [sampleRows, firstDigest, secondDigest, thirdDigest, forkRootDigest, forkLeftDigest,
      forkRightDigest]
  have ho : ∀ row ∈ sampleRows, ∀ bytes, row.2 ≠ "x" ++ Hex.hexLower bytes := by
    intro row hr bytes heq
    refine hs row hr ?_
    rw [heq, String.toList_append]
    rfl
  intro bytes bs' h
  unfold sampleDigest at h
  cases hf : sampleRows.find? fun row => payloadBytes row.1 = bytes with
  | none =>
    cases hf' : sampleRows.find? fun row => payloadBytes row.1 = bs' with
    | none =>
      rw [hf, hf'] at h
      exact Hex.hexLower_injective ((String.append_right_inj _).mp h)
    | some row =>
      rw [hf, hf'] at h
      exact absurd h.symm (ho row (List.mem_of_find?_eq_some hf') bytes)
  | some row =>
    cases hf' : sampleRows.find? fun row => payloadBytes row.1 = bs' with
    | none =>
      rw [hf, hf'] at h
      exact absurd h (ho row (List.mem_of_find?_eq_some hf) bs')
    | some r' =>
      rw [hf, hf'] at h
      obtain rfl : row = r' := List.inj_on_of_nodup_map hk
        (List.mem_of_find?_eq_some hf) (List.mem_of_find?_eq_some hf') h
      have hb : payloadBytes row.1 = bytes := by simpa using List.find?_some hf
      have hb' : payloadBytes row.1 = bs' := by simpa using List.find?_some hf'
      rw [← hb, hb']

/-- Each sample row has the digest that is listed for it. -/
theorem sampleDigest_of_mem {row : StoredAuditEntry × String} (hr : row ∈ sampleRows) :
    sampleDigest (payloadBytes row.1) = row.2 := by
  have hk : (sampleRows.map fun r => rowPayload r.1).Nodup := by
    decide +kernel
  unfold sampleDigest
  cases hf : sampleRows.find? fun r => payloadBytes r.1 = payloadBytes row.1 with
  | none => simpa using List.find?_eq_none.mp hf row hr
  | some r' =>
    have hb : payloadBytes r'.1 = payloadBytes row.1 := by
      simpa using List.find?_some hf
    have hs : r' = row := List.inj_on_of_nodup_map hk
      (List.mem_of_find?_eq_some hf) hr (rowPayload_eq_of_bytes hb)
    rw [hs]

/-- Nanoseconds after the start of May 2026 with nine digits, as long as one digit counts. -/
def sampleNanos (n : ℕ) : String :=
  if n < 10 then
    "2026-05-01T00:00:00.00000000" ++ String.ofList [Char.ofNat (48 + n)] ++ "+00:00"
  else "3" ++ String.ofList (List.replicate n '9')

/-- The same without a fraction that is zero. -/
def samplePlain (n : ℕ) : String :=
  if n = 0 then "2026-05-01T00:00:00+00:00" else sampleNanos n

/-- Reading them back. -/
def sampleParse (text : String) : Except String ℕ :=
  if text = samplePlain 0 then .ok 0
  else
    match (List.range 10).find? fun n => sampleNanos n = text with
    | some n => .ok n
    | none =>
      if text = sampleNanos (text.length - 1) then .ok (text.length - 1)
      else .error "input contains invalid characters"

/-- A library that prints and hashes the sample log as the real one does. -/
def sampleLibrary : Library ℕ where
  digest := sampleDigest
  parseJson := fun _ => none
  toRfc3339 := samplePlain
  toRfc3339Nanos := sampleNanos
  parseRfc3339 := sampleParse
  checkedAddNanosecond := fun n => some (n + 1)
  debug := fun text => (text.map fun t => "Some(\"" ++ t ++ "\")").getD "None"
  admits := fun _ => true

theorem sampleLibrary_digest : sampleLibrary.digest = sampleDigest := by
  simp only [sampleLibrary]

theorem sampleLibrary_injective : Function.Injective sampleLibrary.digest := by
  rw [sampleLibrary_digest]
  exact sampleDigest_injective

theorem sampleLibrary_hash {row : StoredAuditEntry × String} (hr : row ∈ sampleRows) :
    computeAuditRowHash sampleLibrary row.1 = "blake3:" ++ row.2 := by
  unfold computeAuditRowHash
  rw [sampleLibrary_digest, ← payloadBytes, sampleDigest_of_mem hr]

/-- The sample rows are sealed. -/
theorem sealed_of_mem_sampleRows {row : StoredAuditEntry × String} (hr : row ∈ sampleRows) :
    Sealed sampleLibrary row.1 := by
  have ho : ∀ r ∈ sampleRows, r.1.thisRowHash = some ("blake3:" ++ r.2) := by
    simp [sampleRows, sampleFirst, sampleSecond, sampleThird, sampleForkRoot, sampleForkLeft,
      sampleForkRight, sampleRow]
  rw [Sealed, sampleLibrary_hash hr]
  exact ho row hr

theorem sealed_sampleFirst : Sealed sampleLibrary sampleFirst :=
  sealed_of_mem_sampleRows (by simp [sampleRows] : (sampleFirst, firstDigest) ∈ sampleRows)

theorem sealed_sampleSecond : Sealed sampleLibrary sampleSecond :=
  sealed_of_mem_sampleRows (by simp [sampleRows] : (sampleSecond, secondDigest) ∈ sampleRows)

theorem sealed_sampleThird : Sealed sampleLibrary sampleThird :=
  sealed_of_mem_sampleRows (by simp [sampleRows] : (sampleThird, thirdDigest) ∈ sampleRows)

/-- Rows that read back and form a chain of sealed rows are accepted. -/
theorem verifyEntries_accepts {s : Option ℕ} {entries r : List StoredAuditEntry}
    (hro : filterEntries sampleLibrary s none none none none
      (sortEntriesChronological entries) = .ok r)
    (hs : ∀ row ∈ r, Sealed sampleLibrary row)
    (hl : Linked (·.prevRowHash) (computeAuditRowHash sampleLibrary) (startHash s r) r) :
    ∃ report, verifyEntries sampleLibrary entries s none = .ok report ∧ report.integrityOk = true ∧
      report.lastHash = endOf (computeAuditRowHash sampleLibrary) none r := by
  obtain ⟨report, hr, hok, hla⟩ := verifyEntries_of_filter hro
  exact ⟨report, hr, hok.mpr ⟨hl, hs⟩, hla hs⟩

theorem linked_sample : Linked (·.prevRowHash) (computeAuditRowHash sampleLibrary) none
    [sampleFirst, sampleSecond, sampleThird] :=
  ⟨rfl, sealed_sampleFirst, sealed_sampleSecond, trivial⟩

theorem sealed_sample : ∀ row ∈ [sampleFirst, sampleSecond, sampleThird],
    Sealed sampleLibrary row := by
  simp [sealed_sampleFirst, sealed_sampleSecond, sealed_sampleThird]

/-- The sample log in two listings: both are accepted with the same last hash, so they are the
same log. -/
theorem sample_listings_bound : ∃ report report',
      verifyEntries sampleLibrary [sampleThird, sampleFirst, sampleSecond] none none = .ok report ∧
      verifyEntries sampleLibrary [sampleFirst, sampleSecond, sampleThird] none none = .ok report' ∧
      report.integrityOk = true ∧ report'.integrityOk = true ∧
      report.lastHash = report'.lastHash ∧
      sortEntriesChronological [sampleThird, sampleFirst, sampleSecond]
        = sortEntriesChronological [sampleFirst, sampleSecond, sampleThird] := by
  have hre : filterEntries sampleLibrary none none none none none
      (sortEntriesChronological [sampleThird, sampleFirst, sampleSecond])
        = .ok [sampleFirst, sampleSecond, sampleThird] := by
    rfl
  have hre' : filterEntries sampleLibrary none none none none none
      (sortEntriesChronological [sampleFirst, sampleSecond, sampleThird])
        = .ok [sampleFirst, sampleSecond, sampleThird] := by
    rfl
  obtain ⟨report, hr, hok, hl⟩ := verifyEntries_accepts hre sealed_sample linked_sample
  obtain ⟨report', hr', h', hl'⟩ := verifyEntries_accepts hre' sealed_sample linked_sample
  have hs := hl.trans hl'.symm
  exact ⟨report, report', hr, hr', hok, h', hs,
    (last_hash_binds_log sampleLibrary_injective hr hr' hok h' hs).2 rfl rfl rfl⟩

/-- A window does not bind its first rows: with a lower bound the log that lost its first row is
accepted with the same last hash, although all rows of the full log are inside the window. -/
theorem window_loses_first_row : Function.Injective sampleLibrary.digest ∧ ∃ report report',
      verifyEntries sampleLibrary [sampleFirst, sampleSecond] (some 0) none = .ok report ∧
      verifyEntries sampleLibrary [sampleSecond] (some 0) none = .ok report' ∧
      report.integrityOk = true ∧ report'.integrityOk = true ∧
      report.lastHash = report'.lastHash ∧
      filterEntries sampleLibrary (some 0) none none none none
          (sortEntriesChronological [sampleFirst, sampleSecond])
        = .ok [sampleFirst, sampleSecond] ∧
      filterEntries sampleLibrary (some 0) none none none none
          (sortEntriesChronological [sampleSecond]) = .ok [sampleSecond] ∧
      [sampleFirst, sampleSecond] ≠ [sampleSecond] := by
  have hr : filterEntries sampleLibrary (some 0) none none none none
      (sortEntriesChronological [sampleFirst, sampleSecond]) = .ok [sampleFirst, sampleSecond] := by
    rfl
  have hr' : filterEntries sampleLibrary (some 0) none none none none
      (sortEntriesChronological [sampleSecond]) = .ok [sampleSecond] := by
    rfl
  obtain ⟨report, hre, hok, hl⟩ := verifyEntries_accepts hr
    (by simp [sealed_sampleFirst, sealed_sampleSecond]) ⟨rfl, sealed_sampleFirst, trivial⟩
  obtain ⟨report', hre', h', hl'⟩ := verifyEntries_accepts hr'
    (by simp [sealed_sampleSecond]) ⟨rfl, trivial⟩
  have hs : endOf (computeAuditRowHash sampleLibrary) none [sampleFirst, sampleSecond]
      = endOf (computeAuditRowHash sampleLibrary) none [sampleSecond] := by
    rw [endOf_none, endOf_none, List.getLast?_cons_cons]
  exact ⟨sampleLibrary_injective, report, report', hre, hre', hok, h',
    hl.trans (hs.trans hl'.symm), hr, hr', by simp⟩

end Audit
