/-
# Ingest of origin events (`src/mesh/origin_stream.rs`, `src/db/mod.rs`)

A receiver classifies every inbound event of another origin and records the disposition
under the team, the origin and the number that the event names.  The checks run in order:
schema, no echo, hash, identifier and signature, fork evidence, features, payload.  The
record of a triple is replaced by whatever is classified next under the same triple, also
when the event that names it fails the integrity checks.

The verifier, the canonical text, the hash and the closed payload types are parameters, and
the rows of the local origin record are those at the time of a call.
-/
import EideticEngine.ExceptRules
import EideticEngine.OriginStream

namespace OriginStream

open Serde

/-! ## The receiver -/

/-- `from_value` of the two closed payload types; an error is its message. -/
structure PayloadTypes where
  memory : Json → Except String Unit
  manifest : Json → Except String Unit

/-- A receiver: what it takes from other libraries, its signature verifier, its own node and
the features it supports. -/
structure Receiver where
  codec : Codec
  types : PayloadTypes
  /-- `OriginSignatureVerifier::verify`. -/
  verify : String → ℕ → String → List UInt8 → String → Bool
  ownOriginNodeId : String
  supportedFeatures : List String

/-! ## Classification -/

/-- The canonical text of the received fields. -/
def canonicalOf (codec : Codec) (event : InboundOriginEvent) : Except OriginStreamError String :=
  canonicalJsonString codec (preimageValue event.teamId event.originNodeId
    event.signingKeyGeneration event.seq event.prevEventHash event.payloadSchema event.payload
    (canonicalFeatures event.requiredFeatures) event.producedAt)

/-- The integrity checks: hash, identifier and signature, with the reason of the first that
fails. -/
def integrityFailure (receiver : Receiver) (event : InboundOriginEvent) (canonical : String) :
    Option String :=
  if eventHashOf receiver.codec canonical ≠ event.eventHash then
    some "eventHash does not match the canonical bytes"
  else if eventIdOf receiver.codec event.eventHash ≠ event.eventId then
    some "eventId is not derived from eventHash"
  else if !receiver.verify event.originNodeId event.signingKeyGeneration
      "ee.mesh.origin_event.signature.v1" (RustText.asBytes canonical) event.signature then
    some ("signature failed for origin " ++ event.originNodeId ++ " at generation "
      ++ toString event.signingKeyGeneration)
  else none

/-- A different event occupies the number in the local record. -/
def forkEvidence (tables : OriginTables) (event : InboundOriginEvent) : Bool :=
  match tables.listMeshOriginEvents event.teamId event.originNodeId event.seq 1 with
  | existing :: _ => existing.seq = event.seq ∧ existing.eventHash ≠ event.eventHash
  | [] => false

/-- The payload check through the closed types. -/
def classifyPayload (types : PayloadTypes) (event : InboundOriginEvent) : IngestDisposition :=
  if event.payloadSchema = "ee.mesh.memory_event.v1" then
    match types.memory event.payload with
    | .ok () => .applied
    | .error error => .quarantined ("memory payload failed the closed allowlist: " ++ error)
  else if event.payloadSchema = "ee.team.manifest_event.v1" then
    match types.manifest event.payload with
    | .ok () => .applied
    | .error error => .quarantined ("manifest payload failed the closed allowlist: " ++ error)
  else .unsupported ("unknown payload schema " ++ event.payloadSchema)

/-- `classify_inbound`; the read of the local record may fail. -/
def classifyInbound (receiver : Receiver) (tables : Except DbError OriginTables)
    (event : InboundOriginEvent) : Except OriginStreamError IngestDisposition :=
  if event.schema ≠ "ee.mesh.origin_event.v1" then
    .ok (.unsupported ("unknown outer schema " ++ event.schema))
  else if event.originNodeId = receiver.ownOriginNodeId then
    .ok (.quarantined "echo refused: event claims THIS node as origin")
  else do
    let canonical ← canonicalOf receiver.codec event
    match integrityFailure receiver event canonical with
    | some reason => .ok (.quarantined reason)
    | none => do
      let tables ← tables.mapError .db
      if forkEvidence tables event then
        .ok (.quarantined ("fork evidence: seq " ++ toString event.seq
          ++ " already recorded with a different eventHash"))
      else
        match (canonicalFeatures event.requiredFeatures).find? fun feature =>
            feature ∉ receiver.supportedFeatures with
        | some feature => .ok (.withheld ("unknown mandatory feature " ++ feature))
        | none => .ok (classifyPayload receiver.types event)

/-! ## The record -/

/-- A row of `mesh_origin_dispositions`. -/
structure DispositionRow where
  teamId : String
  originNodeId : String
  seq : ℕ
  disposition : String
  reason : String
  recordedAt : String
  deriving DecidableEq

/-- The primary key of a row. -/
def DispositionRow.key (row : DispositionRow) : String × String × ℕ :=
  (row.teamId, row.originNodeId, row.seq)

/-- The triple that an event names, as a primary key. -/
def InboundOriginEvent.key (event : InboundOriginEvent) : String × String × ℕ :=
  (event.teamId, event.originNodeId, clampI64 event.seq)

/-- The stored disposition of a triple. -/
def storedDisposition (rows : List DispositionRow) (key : String × String × ℕ) :
    Option String :=
  (rows.find? fun row => row.key = key).map DispositionRow.disposition

/-- SQL `length(trim(text))`: blanks at both ends do not count. -/
def trimmedLength (text : String) : ℕ :=
  ((text.toList.dropWhile (· = ' ')).rdropWhile (· = ' ')).length

/-- The check on an identifier column: a label, something behind it, and plain characters. -/
def identifierAllowed (label text : String) : Bool :=
  label.toList.isPrefixOf text.toList ∧ 5 < trimmedLength text ∧
    text.toList.all fun c => c.isAlphanum ∨ c = '_' ∨ c = '-'

/-- The `CHECK` constraints of the table. -/
def DispositionRow.allowed (row : DispositionRow) : Bool :=
  identifierAllowed "team_" row.teamId ∧ identifierAllowed "node_" row.originNodeId ∧
    row.disposition ∈ ["applied", "withheld", "quarantined", "unsupported"] ∧
    0 < trimmedLength row.reason ∧ 0 < trimmedLength row.recordedAt

/-- `record_mesh_origin_disposition`: the insert, or the update of the row with the same
primary key, unless the engine fails or a constraint refuses the row. -/
def recordMeshOriginDisposition (engineFails : Bool) (rows : List DispositionRow)
    (row : DispositionRow) : Except DbError (List DispositionRow) :=
  if engineFails then .error .engine
  else if row.allowed then
    if rows.any fun existing => existing.key = row.key then
      .ok (rows.map fun existing => if existing.key = row.key then row else existing)
    else .ok (rows ++ [row])
  else .error (.constraint "mesh_origin_dispositions")

/-- One call: the receiver, the local record or the error of reading it, the event, the time,
and whether the engine fails on the write. -/
structure IngestCall where
  receiver : Receiver
  tables : Except DbError OriginTables
  event : InboundOriginEvent
  recordedAt : String
  engineFails : Bool

/-- The row that a call writes for a disposition. -/
def IngestCall.row (call : IngestCall) (disposition : IngestDisposition) : DispositionRow where
  teamId := call.event.teamId
  originNodeId := call.event.originNodeId
  seq := clampI64 call.event.seq
  disposition := disposition.asStr
  reason := disposition.reason
  recordedAt := call.recordedAt

/-- `ingest_origin_event`: the rows afterwards and the result. -/
def ingestOriginEvent (rows : List DispositionRow) (call : IngestCall) :
    List DispositionRow × Except OriginStreamError IngestDisposition :=
  match classifyInbound call.receiver call.tables call.event with
  | .error error => (rows, .error error)
  | .ok disposition =>
    match recordMeshOriginDisposition call.engineFails rows (call.row disposition) with
    | .error error => (rows, .error (.db error))
    | .ok rows => (rows, .ok disposition)

/-- The rows after a sequence of calls on an empty table. -/
def rowsAfter (calls : List IngestCall) : List DispositionRow :=
  calls.foldl (fun rows call => (ingestOriginEvent rows call).1) []

/-! ## Forgeries -/

/-- The event fails the hash, the identifier or the signature check of the receiver. -/
def IngestCall.Forged (call : IngestCall) : Prop :=
  ∃ canonical, canonicalOf call.receiver.codec call.event = .ok canonical ∧
    (eventHashOf call.receiver.codec canonical ≠ call.event.eventHash ∨
      eventIdOf call.receiver.codec call.event.eventHash ≠ call.event.eventId ∨
      call.receiver.verify call.event.originNodeId call.event.signingKeyGeneration
        "ee.mesh.origin_event.signature.v1" (RustText.asBytes canonical) call.event.signature
          = false)

/-- The write of a call is not carried out: the engine fails, or there is no time. -/
def IngestCall.Unwritten (call : IngestCall) : Prop :=
  call.engineFails = true ∨ trimmedLength call.recordedAt = 0

/-- A reason that begins with a visible character is not blank. -/
theorem trimmedLength_pos {c : Char} (hc : c ≠ ' ') (r : List Char) :
    0 < trimmedLength (String.ofList (c :: r)) := by
  unfold trimmedLength
  rw [String.toList_ofList, List.dropWhile_cons_of_neg (by simpa using hc), List.length_pos_iff,
    ne_eq, List.rdropWhile_eq_nil_iff]
  intro ha
  exact hc (by simpa using ha c List.mem_cons_self)

/-- A text in front of which visible text stands is not blank. -/
theorem trimmedLength_append_pos {text : String} {c : Char} (ht : text.toList.head? = some c)
    (hc : c ≠ ' ') (r : String) : 0 < trimmedLength (text ++ r) := by
  obtain ⟨f, hf⟩ := List.head?_eq_some_iff.mp ht
  have hl : text ++ r = String.ofList (c :: (f ++ r.toList)) := by
    apply String.toList_injective
    rw [String.toList_append, hf, String.toList_ofList, List.cons_append]
  rw [hl]
  exact trimmedLength_pos hc _

theorem IngestDisposition.asStr_eq_applied_iff (d : IngestDisposition) :
    d.asStr = "applied" ↔ d = .applied := by
  cases d <;> simp [asStr]

theorem IngestDisposition.asStr_mem (d : IngestDisposition) :
    d.asStr ∈ ["applied", "withheld", "quarantined", "unsupported"] := by
  cases d <;> simp [asStr]

/-- The reason of a failed integrity check is not blank. -/
theorem integrityFailure_reason {r : Receiver} {event : InboundOriginEvent}
    {ca reason : String} (h : integrityFailure r event ca = some reason) :
    0 < trimmedLength reason := by
  unfold integrityFailure at h
  split at h
  · cases h
    decide +kernel
  split at h
  · cases h
    decide +kernel
  split at h
  · cases h
    simp only [String.append_assoc]
    exact trimmedLength_append_pos (c := 's') rfl (by decide) _
  · cases h

/-- A forgery is classified, and not as applied. -/
theorem classifyInbound_forged {ca : IngestCall} (h : ca.Forged) :
    ∃ d, classifyInbound ca.receiver ca.tables ca.event = .ok d ∧
      d ≠ .applied ∧ 0 < trimmedLength d.reason := by
  obtain ⟨can, hc, hf⟩ := h
  unfold classifyInbound
  split
  · refine ⟨_, rfl, by nofun, ?_⟩
    exact trimmedLength_append_pos (c := 'u') rfl (by decide) _
  split
  · exact ⟨_, rfl, by nofun, by decide +kernel⟩
  have hr : ∃ reason, integrityFailure ca.receiver ca.event can = some reason := by
    unfold integrityFailure
    split
    · exact ⟨_, rfl⟩
    split
    · exact ⟨_, rfl⟩
    split
    · exact ⟨_, rfl⟩
    · rename_i hh hid hs
      rcases hf with hf | hf | hf
      · exact absurd hf hh
      · exact absurd hf hid
      · rw [hf] at hs
        exact absurd rfl hs
  obtain ⟨reason, hr⟩ := hr
  rw [hc]
  simp only [Except.ok_then, hr]
  exact ⟨_, rfl, by nofun, integrityFailure_reason hr⟩

/-! ## The record after a call -/

/-- The stored disposition after the update or the insert of a row. -/
theorem storedDisposition_record {r r' : List DispositionRow} {row : DispositionRow}
    {efs : Bool} (h : recordMeshOriginDisposition efs r row = .ok r') :
    storedDisposition r' row.key = some row.disposition := by
  unfold recordMeshOriginDisposition at h
  split at h
  · cases h
  split at h
  · split at h
    · rename_i ha
      cases h
      unfold storedDisposition
      induction r with
      | nil => cases ha
      | cons first r ih =>
        rw [List.map_cons, List.find?_cons]
        by_cases hf : first.key = row.key
        · simp [hf]
        · simp only [hf, if_false, decide_false]
          rw [List.any_cons, decide_eq_false hf, Bool.false_or] at ha
          exact ih ha
    · rename_i hn
      cases h
      unfold storedDisposition
      have hfi : r.find? (fun ex => ex.key = row.key) = none := by
        rw [List.find?_eq_none]
        intro ex hm hk
        exact hn (List.any_eq_true.mpr ⟨ex, hm, hk⟩)
      rw [List.find?_append, hfi]
      simp
  · cases h

theorem allowed_record {r r' : List DispositionRow} {row : DispositionRow}
    {efs : Bool} (h : recordMeshOriginDisposition efs r row = .ok r')
    (hr : ∀ ex ∈ r, ex.allowed = true) :
    ∀ ex ∈ r', ex.allowed = true := by
  unfold recordMeshOriginDisposition at h
  split at h
  · cases h
  split at h
  · rename_i ha
    split at h
    · cases h
      intro ex hm
      obtain ⟨old, ho, rfl⟩ := List.mem_map.mp hm
      split
      · exact ha
      · exact hr old ho
    · cases h
      intro ex hm
      rcases List.mem_append.mp hm with hm | hm
      · exact hr ex hm
      · rw [List.mem_singleton.mp hm]
        exact ha
  · cases h

theorem allowed_ingest {r : List DispositionRow} (hr : ∀ row ∈ r, row.allowed = true)
    (c : IngestCall) : ∀ row ∈ (ingestOriginEvent r c).1, row.allowed = true := by
  unfold ingestOriginEvent
  split
  · exact hr
  · split
    · exact hr
    · rename_i r' hre
      exact allowed_record hre hr

/-- A row is in the table only if the constraints allow it. -/
theorem allowed_rowsAfter (cs : List IngestCall) : ∀ row ∈ rowsAfter cs, row.allowed = true := by
  unfold rowsAfter
  suffices ha : ∀ r : List DispositionRow, (∀ row ∈ r, row.allowed = true) →
      ∀ row ∈ cs.foldl (fun r c => (ingestOriginEvent r c).1) r,
        row.allowed = true from ha [] (by simp)
  induction cs with
  | nil => exact fun r h => h
  | cons c cs ih => exact fun r h => ih _ (allowed_ingest h c)

/-- A forgery that names a triple with a stored row leaves its disposition as it is exactly
when its write is not carried out. -/
theorem forgery_keeps_iff {r : List DispositionRow}
    (hal : ∀ row ∈ r, row.allowed = true) {c : IngestCall} (hfo : c.Forged)
    (ha : storedDisposition r c.event.key = some "applied") :
    storedDisposition (ingestOriginEvent r c).1 c.event.key = some "applied" ↔
      c.Unwritten := by
  obtain ⟨d, hc, hno, hre⟩ := classifyInbound_forged hfo
  obtain ⟨stored, hs, -⟩ := Option.map_eq_some_iff.mp ha
  have hk : stored.key = c.event.key := by simpa using List.find?_some hs
  have hi := hal stored (List.mem_of_find?_eq_some hs)
  have hrow : (c.row d).key = c.event.key := rfl
  have ht : stored.teamId = c.event.teamId := congrArg Prod.fst hk
  have ho : stored.originNodeId = c.event.originNodeId := congrArg (fun key => key.2.1) hk
  -- the identifiers of the triple pass, since a row with them is stored
  have hro : (c.row d).allowed = true ↔ 0 < trimmedLength c.recordedAt := by
    simp only [DispositionRow.allowed, decide_eq_true_eq] at hi ⊢
    rw [ht, ho] at hi
    constructor
    · intro h
      exact h.2.2.2.2
    · intro h
      exact ⟨hi.1, hi.2.1, d.asStr_mem, hre, h⟩
  unfold ingestOriginEvent IngestCall.Unwritten
  simp only [hc]
  cases hr : recordMeshOriginDisposition c.engineFails r (c.row d) with
  | error error =>
    refine iff_of_true ha ?_
    unfold recordMeshOriginDisposition at hr
    split at hr
    · rename_i hf
      exact Or.inl hf
    · split at hr
      · split at hr <;> cases hr
      · rename_i hb
        rw [hro] at hb
        exact Or.inr (by omega)
  | ok r' =>
    have hn := storedDisposition_record hr
    rw [hrow] at hn
    refine iff_of_false ?_ ?_
    · simp only [hn, Option.some.injEq]
      intro h
      exact hno ((IngestDisposition.asStr_eq_applied_iff _).mp h)
    · rintro (hf | hb)
      · rw [recordMeshOriginDisposition, if_pos hf] at hr
        cases hr
      · rw [recordMeshOriginDisposition] at hr
        split at hr
        · cases hr
        · rw [if_neg (by rw [hro]; omega)] at hr
          cases hr

/-- After these calls a forgery arrives for a triple whose stored disposition is applied. -/
def ForgedAfter (before : List IngestCall) (call : IngestCall) : Prop :=
  call.Forged ∧ storedDisposition (rowsAfter before) call.event.key = some "applied"

/-- In this run no forgery changes an applied disposition. -/
def NeverUnapplied (calls : List IngestCall) : Prop :=
  ∀ before call after, calls = before ++ call :: after → ForgedAfter before call →
    storedDisposition (rowsAfter (before ++ [call])) call.event.key = some "applied"

/-- **A run keeps every applied disposition against forgeries exactly when the write of each
forgery against one fails.** -/
theorem neverUnapplied_iff_unwritten (calls : List IngestCall) :
    NeverUnapplied calls ↔ ∀ before call after, calls = before ++ call :: after →
      ForgedAfter before call → call.Unwritten := by
  have hst : ∀ before call, ForgedAfter before call →
      (storedDisposition (rowsAfter (before ++ [call])) call.event.key = some "applied" ↔
        call.Unwritten) := by
    rintro before call ⟨hf, ha⟩
    have hr : rowsAfter (before ++ [call]) = (ingestOriginEvent (rowsAfter before) call).1 := by
      unfold rowsAfter
      rw [List.foldl_append]
      rfl
    rw [hr]
    exact forgery_keeps_iff (allowed_rowsAfter before) hf ha
  constructor
  · intro h before call after hs hf
    exact (hst before call hf).mp (h before call after hs hf)
  · intro h before call after hs hf
    exact (hst before call hf).mpr (h before call after hs hf)

/-! ## A forged copy of an applied event -/

/-- A genuine event of another origin. -/
def peerEvent : InboundOriginEvent where
  schema := "ee.mesh.origin_event.v1"
  eventId := "mesh_oevt_184ffe6a196ec60b90e0588536"
  teamId := "team_alpha"
  originNodeId := "node_0000000000000000000000peer1"
  signingKeyGeneration := 1
  seq := 0
  prevEventHash := none
  eventHash := "blake3:ee217b84293e08af429d52bf3a0943a1f14a74b4cd7051ce4f79d8ce01495d58"
  signature := "testsig:e42ec2d3665678e5dd46d578895258ff9045c81e8dfa3a6d3e5c2087af6c8de2"
  payloadSchema := "ee.mesh.memory_event.v1"
  payload := .object [("operation", .string "create"),
    ("logicalMemoryId", .string "olm_00000000000000000000000009"),
    ("revisionId", .string "rev_0"), ("bodyCommitment", .string "blake3:aa")]
  requiredFeatures := []
  producedAt := "2026-08-11T00:00:00Z"

/-- The canonical text of the genuine event. -/
def peerCanonical : String :=
  "\x7b\"originNodeId\":\"node_0000000000000000000000peer1\",\"payload\":\x7b\"bodyCommitment\":"
    ++ "\"blake3:aa\",\"logicalMemoryId\":\"olm_00000000000000000000000009\",\"operation\":"
    ++ "\"create\",\"revisionId\":\"rev_0\"\x7d,\"payloadSchema\":\"ee.mesh.memory_event.v1\","
    ++ "\"prevEventHash\":null,\"producedAt\":\"2026-08-11T00:00:00Z\",\"requiredFeatures\":[],"
    ++ "\"schema\":\"ee.mesh.origin_event.v1\",\"seq\":0,\"signingKeyGeneration\":1,"
    ++ "\"teamId\":\"team_alpha\"\x7d"

/-- A receiver whose verifier recomputes the signature, with `blake3` on the texts of the
genuine event. -/
def peerReceiver : Receiver where
  codec :=
    { json :=
        { print := fun value => .ok value.compact
          parse := fun _ => .error "unread" }
      blake3Hex := fun bytes =>
        if bytes = RustText.asBytes peerCanonical then
          "ee217b84293e08af429d52bf3a0943a1f14a74b4cd7051ce4f79d8ce01495d58"
        else if bytes = RustText.asBytes peerEvent.eventHash then
          "184ffe6a196ec60b90e05885363572b7f1a75171b1211c74d3b93738f9412ed8"
        else "" }
  types := ⟨fun _ => .ok (), fun _ => .ok ()⟩
  verify _ _ domain bytes signature :=
    domain = "ee.mesh.origin_event.signature.v1" ∧ bytes = RustText.asBytes peerCanonical ∧
      signature = "testsig:e42ec2d3665678e5dd46d578895258ff9045c81e8dfa3a6d3e5c2087af6c8de2"
  ownOriginNodeId := "node_00000000000000000000000self"
  supportedFeatures := ["mesh.origin_stream.v1"]

/-- The receiver ingests an event while its local record is empty. -/
def peerCall (event : InboundOriginEvent) (recordedAt : String) : IngestCall :=
  ⟨peerReceiver, .ok .empty, event, recordedAt, false⟩

/-- The genuine event is applied; the same event with another signature, which does not
verify, turns the stored disposition into quarantined. -/
theorem forged_copy_unapplies :
    storedDisposition (rowsAfter [peerCall peerEvent "t1"]) peerEvent.key = some "applied" ∧
      (peerCall { peerEvent with signature := "testsig:forged" } "t2").Forged ∧
      storedDisposition (rowsAfter [peerCall peerEvent "t1",
        peerCall { peerEvent with signature := "testsig:forged" } "t2"]) peerEvent.key
          = some "quarantined" ∧
      ¬ NeverUnapplied [peerCall peerEvent "t1",
        peerCall { peerEvent with signature := "testsig:forged" } "t2"] := by
  obtain ⟨ha, haf⟩ : storedDisposition (rowsAfter [peerCall peerEvent "t1"]) peerEvent.key
        = some "applied" ∧
      storedDisposition (rowsAfter [peerCall peerEvent "t1",
        peerCall { peerEvent with signature := "testsig:forged" } "t2"]) peerEvent.key
          = some "quarantined" := by decide +kernel
  have hf : (peerCall { peerEvent with signature := "testsig:forged" } "t2").Forged := by
    have hp : (canonicalOf peerReceiver.codec peerEvent).toOption = some peerCanonical := by
      decide +kernel
    refine ⟨peerCanonical, ?_, Or.inr (Or.inr (by decide +kernel))⟩
    show canonicalOf peerReceiver.codec peerEvent = _
    cases hr : canonicalOf peerReceiver.codec peerEvent with
    | error error =>
      rw [hr] at hp
      cases hp
    | ok text =>
      rw [hr] at hp
      cases hp
      rfl
  refine ⟨ha, hf, haf, ?_⟩
  intro hn
  have hk := hn [peerCall peerEvent "t1"]
    (peerCall { peerEvent with signature := "testsig:forged" } "t2") [] rfl ⟨hf, ha⟩
  have hb := hk.symm.trans haf
  exact absurd hb (by decide)

end OriginStream
