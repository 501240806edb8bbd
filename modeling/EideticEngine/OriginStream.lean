/-
# The signed origin stream (`src/mesh/origin_stream.rs`, `src/db/mod.rs`)

Every origin of a team owns a chain of events: numbered from zero, each naming the
hash of the one before it.  `append_origin_event` reads the tip, builds and signs the
event outside any transaction and writes it in one; the transaction checks number and
hash against the tip again.  The two tables are lists of rows in the order of insertion
with the constraints of their schema.

The hash, the signature and the JSON text are parameters.  A write may fail in the
database engine at every statement after the check, and is then rolled back.
-/
import EideticEngine.MachineInt
import EideticEngine.RustText
import EideticEngine.Serde

namespace OriginStream

open Serde

/-! ## Payloads and requests -/

/-- `MemoryEventOperation`. -/
inductive MemoryEventOperation where
  | create
  | revise
  | tombstone
  | shareWithdraw
  deriving DecidableEq, Repr

/-- The name of an operation in JSON. -/
def MemoryEventOperation.asStr : MemoryEventOperation → String
  | .create => "create"
  | .revise => "revise"
  | .tombstone => "tombstone"
  | .shareWithdraw => "shareWithdraw"

/-- `MemoryEventPayload`. -/
structure MemoryEventPayload where
  operation : MemoryEventOperation
  logicalMemoryId : String
  revisionId : String
  predecessorRevisionId : Option String
  level : Option String
  memoryKind : Option String
  validFrom : Option String
  validUntil : Option String
  projectBinding : Option String
  originTrustClaim : Option String
  provenanceRefs : List String
  bodyRepresentation : Option String
  redactionProvenance : Option String
  bodyCommitment : String

/-- `ManifestEventPayload`. -/
structure ManifestEventPayload where
  operation : String
  documentId : String
  predecessorRevisionId : Option String
  documentPayload : Json

/-- `OriginEventPayload`. -/
inductive OriginEventPayload where
  | memory (payload : MemoryEventPayload)
  | manifest (payload : ManifestEventPayload)

/-- `OriginEventPayload::schema`. -/
def OriginEventPayload.schema : OriginEventPayload → String
  | .memory _ => "ee.mesh.memory_event.v1"
  | .manifest _ => "ee.team.manifest_event.v1"

/-- `serde_json::to_value` of a payload: its fields in the order of declaration. -/
def OriginEventPayload.toValue : OriginEventPayload → Json
  | .memory payload => .object [
      ("operation", .string payload.operation.asStr),
      ("logicalMemoryId", .string payload.logicalMemoryId),
      ("revisionId", .string payload.revisionId),
      ("predecessorRevisionId", .ofOption payload.predecessorRevisionId),
      ("level", .ofOption payload.level),
      ("memoryKind", .ofOption payload.memoryKind),
      ("validFrom", .ofOption payload.validFrom),
      ("validUntil", .ofOption payload.validUntil),
      ("projectBinding", .ofOption payload.projectBinding),
      ("originTrustClaim", .ofOption payload.originTrustClaim),
      ("provenanceRefs", .strings payload.provenanceRefs),
      ("bodyRepresentation", .ofOption payload.bodyRepresentation),
      ("redactionProvenance", .ofOption payload.redactionProvenance),
      ("bodyCommitment", .string payload.bodyCommitment)]
  | .manifest payload => .object [
      ("operation", .string payload.operation),
      ("documentId", .string payload.documentId),
      ("predecessorRevisionId", .ofOption payload.predecessorRevisionId),
      ("documentPayload", payload.documentPayload)]

/-- `OriginAppendRequest`. -/
structure OriginAppendRequest where
  teamId : String
  originNodeId : String
  payload : OriginEventPayload
  requiredFeatures : List String
  producedAt : String
  bodyNonce : Option (List UInt8)

/-- `OriginSigner`. -/
structure OriginSigner where
  signingKeyGeneration : ℕ
  sign : String → List UInt8 → String

/-- What the stream takes from other libraries. -/
structure Codec where
  json : SerdeJson
  /-- The hexadecimal digest of the content hash. -/
  blake3Hex : List UInt8 → String

/-! ## Rows and errors -/

/-- `StoredMeshOriginEvent`. -/
structure StoredMeshOriginEvent where
  eventId : String
  teamId : String
  originNodeId : String
  signingKeyGeneration : ℕ
  seq : ℕ
  prevEventHash : Option String
  eventHash : String
  signature : String
  payloadSchema : String
  payloadJson : String
  requiredFeaturesJson : String
  producedAt : String
  deriving DecidableEq, Repr

/-- `CreateMeshOriginEventInput`: the row to be, and the nonce kept beside it. -/
structure CreateMeshOriginEventInput extends StoredMeshOriginEvent where
  bodyNonceHex : Option String
  deriving DecidableEq, Repr

/-- `DbError`, as far as a write meets it. -/
inductive DbError where
  | constraint (columns : String)
  | engine
  deriving DecidableEq, Repr

/-- `MeshOriginAppendError`. -/
inductive MeshOriginAppendError where
  | chainMismatch (expectedSeq : ℕ) (expectedPrevEventHash : Option String) (gotSeq : ℕ)
      (gotPrevEventHash : Option String)
  | db (error : DbError)
  deriving DecidableEq, Repr

/-- `OriginStreamError`, with the error whose text it carries. -/
inductive OriginStreamError where
  | encode (message : String)
  | chainMismatch (error : MeshOriginAppendError)
  | db (error : DbError)
  deriving DecidableEq, Repr

/-- The tables `mesh_origin_events` and `mesh_origin_event_nonces`. -/
structure OriginTables where
  events : List StoredMeshOriginEvent
  nonces : List (String × String)
  deriving DecidableEq, Repr

namespace OriginTables

/-- No rows. -/
def empty : OriginTables := ⟨[], []⟩

/-- The rows of one stream. -/
def stream (tables : OriginTables) (teamId originNodeId : String) : List StoredMeshOriginEvent :=
  tables.events.filter fun row => row.teamId = teamId ∧ row.originNodeId = originNodeId

/-- `mesh_origin_tip_row`: the row with the largest number. -/
def meshOriginTip (tables : OriginTables) (teamId originNodeId : String) : Option (ℕ × String) :=
  ((tables.stream teamId originNodeId).argmax StoredMeshOriginEvent.seq).map fun row =>
    (row.seq, row.eventHash)

/-- `list_mesh_origin_events`. -/
def listMeshOriginEvents (tables : OriginTables) (teamId originNodeId : String)
    (fromSeq limit : ℕ) : List StoredMeshOriginEvent :=
  (((tables.stream teamId originNodeId).filter fun row => fromSeq ≤ row.seq).insertionSort
    fun a b => a.seq ≤ b.seq).take limit

end OriginTables

/-! ## The write transaction -/

/-- `Value::from_u64_clamped`. -/
def clampI64 (n : ℕ) : ℕ := min n i64Max

/-- Which statements the database engine carries out. -/
structure EngineFaults where
  insertEvent : Bool
  insertNonce : Bool
  commit : Bool
  deriving DecidableEq, Repr

/-- No statement fails. -/
def EngineFaults.none : EngineFaults := ⟨false, false, false⟩

/-- The row that the insert statement writes. -/
def CreateMeshOriginEventInput.row (input : CreateMeshOriginEventInput) : StoredMeshOriginEvent :=
  { input.toStoredMeshOriginEvent with
    signingKeyGeneration := clampI64 input.signingKeyGeneration
    seq := clampI64 input.seq }

/-- The insert into `mesh_origin_events`, with its primary key and its unique columns. -/
def insertEvent (tables : OriginTables) (input : CreateMeshOriginEventInput) :
    Except DbError OriginTables :=
  if tables.events.any fun row => row.eventId = input.row.eventId then
    .error (.constraint "mesh_origin_events.event_id")
  else if tables.events.any fun row => row.teamId = input.row.teamId ∧
      row.originNodeId = input.row.originNodeId ∧ row.seq = input.row.seq then
    .error (.constraint "mesh_origin_events.team_id, origin_node_id, seq")
  else .ok { tables with events := tables.events ++ [input.row] }

/-- The insert into `mesh_origin_event_nonces`, with its primary key. -/
def insertNonce (tables : OriginTables) (eventId nonceHex : String) :
    Except DbError OriginTables :=
  if tables.nonces.any fun row => row.1 = eventId then
    .error (.constraint "mesh_origin_event_nonces.event_id")
  else .ok { tables with nonces := tables.nonces ++ [(eventId, nonceHex)] }

/-- The re-check of number and hash against the tip. -/
def chainOk (tip : Option (ℕ × String)) (input : CreateMeshOriginEventInput) : Bool :=
  match tip with
  | none => input.seq = 0 ∧ input.prevEventHash = none
  | some (tipSeq, tipHash) => input.seq = satAdd64 tipSeq 1 ∧ input.prevEventHash = some tipHash

/-- The number and hash that come next after a tip. -/
def nextAfter : Option (ℕ × String) → ℕ × Option String
  | none => (0, none)
  | some (tipSeq, tipHash) => (satAdd64 tipSeq 1, some tipHash)

/-- `append_mesh_origin_event_in_current_transaction`. -/
def appendMeshOriginEventInCurrentTransaction (faults : EngineFaults) (tables : OriginTables)
    (input : CreateMeshOriginEventInput) : Except MeshOriginAppendError OriginTables :=
  let tip := tables.meshOriginTip input.teamId input.originNodeId
  if chainOk tip input then
    if faults.insertEvent then .error (.db .engine)
    else
      match insertEvent tables input with
      | .error e => .error (.db e)
      | .ok tables =>
        match input.bodyNonceHex with
        | none => .ok tables
        | some nonceHex =>
          if faults.insertNonce then .error (.db .engine)
          else
            match insertNonce tables input.eventId nonceHex with
            | .error e => .error (.db e)
            | .ok tables => .ok tables
  else .error (.chainMismatch (nextAfter tip).1 (nextAfter tip).2 input.seq input.prevEventHash)

/-- `append_mesh_origin_event`: the tables after the transaction, which is rolled back
when it fails, and its result. -/
def appendMeshOriginEvent (faults : EngineFaults) (tables : OriginTables)
    (input : CreateMeshOriginEventInput) : OriginTables × Except MeshOriginAppendError Unit :=
  match appendMeshOriginEventInCurrentTransaction faults tables input with
  | .error e => (tables, .error e)
  | .ok tables' => if faults.commit then (tables, .error (.db .engine)) else (tables', .ok ())

/-! ## Building an event -/

/-- `canonical_json_string`. -/
def canonicalJsonString (codec : Codec) (value : Json) : Except OriginStreamError String :=
  (codec.json.print value.sorted).mapError .encode

/-- `hex_lower`. -/
def hexLower (bytes : List UInt8) : String :=
  String.join (bytes.map fun byte =>
    String.ofList [Nat.digitChar (byte.toNat / 16), Nat.digitChar (byte.toNat % 16)])

/-- The features as they are hashed: sorted, each once. -/
def canonicalFeatures (features : List String) : List String :=
  (features.insertionSort fun a b => (compare a b).isLE).destutter (· ≠ ·)

/-- The object that is hashed and signed. -/
def preimageValue (teamId originNodeId : String) (signingKeyGeneration seq : ℕ)
    (prevEventHash : Option String) (payloadSchema : String) (payload : Json)
    (features : List String) (producedAt : String) : Json :=
  .object [
    ("schema", .string "ee.mesh.origin_event.v1"),
    ("teamId", .string teamId),
    ("originNodeId", .string originNodeId),
    ("signingKeyGeneration", .number (toString signingKeyGeneration)),
    ("seq", .number (toString seq)),
    ("prevEventHash", .ofOption prevEventHash),
    ("payloadSchema", .string payloadSchema),
    ("payload", payload),
    ("requiredFeatures", .strings features),
    ("producedAt", .string producedAt)]

/-- `event_hash` of the canonical text. -/
def eventHashOf (codec : Codec) (canonical : String) : String :=
  "blake3:" ++ codec.blake3Hex (RustText.asBytes canonical)

/-- `event_id` of an event hash. -/
def eventIdOf (codec : Codec) (eventHash : String) : String :=
  "mesh_oevt_" ++ String.ofList ((codec.blake3Hex (RustText.asBytes eventHash)).toList.take 26)

/-- What `append_origin_event` does between reading the tip and writing: number the
event, build its canonical text, hash and sign it. -/
def buildInput (codec : Codec) (signer : OriginSigner) (request : OriginAppendRequest)
    (tip : Option (ℕ × String)) : Except OriginStreamError CreateMeshOriginEventInput := do
  let (seq, prevEventHash) := nextAfter tip
  let payloadJson ← canonicalJsonString codec request.payload.toValue
  let features := canonicalFeatures request.requiredFeatures
  let requiredFeaturesJson ← (codec.json.print (.strings features)).mapError .encode
  let payload ← (codec.json.parse payloadJson).mapError .encode
  let canonical ← canonicalJsonString codec (preimageValue request.teamId request.originNodeId
    signer.signingKeyGeneration seq prevEventHash request.payload.schema payload features
    request.producedAt)
  let eventHash := eventHashOf codec canonical
  return {
    eventId := eventIdOf codec eventHash
    teamId := request.teamId
    originNodeId := request.originNodeId
    signingKeyGeneration := signer.signingKeyGeneration
    seq := seq
    prevEventHash := prevEventHash
    eventHash := eventHash
    signature := signer.sign "ee.mesh.origin_event.signature.v1" (RustText.asBytes canonical)
    payloadSchema := request.payload.schema
    payloadJson := payloadJson
    requiredFeaturesJson := requiredFeaturesJson
    producedAt := request.producedAt
    bodyNonceHex := request.bodyNonce.map hexLower }

/-- `AppendedOriginEvent`. -/
structure AppendedOriginEvent where
  eventId : String
  seq : ℕ
  eventHash : String
  prevEventHash : Option String
  deriving DecidableEq, Repr

/-- The end of `append_origin_event`: write the built event and report. -/
def writeBuilt (faults : EngineFaults) (tables : OriginTables)
    (input : CreateMeshOriginEventInput) :
    OriginTables × Except OriginStreamError AppendedOriginEvent :=
  match appendMeshOriginEvent faults tables input with
  | (tables, .ok ()) =>
    (tables, .ok ⟨input.eventId, input.seq, input.eventHash, input.prevEventHash⟩)
  | (tables, .error (.db e)) => (tables, .error (.db e))
  | (tables, .error e) => (tables, .error (.chainMismatch e))

/-- `append_origin_event` with nothing between its tip read and its write. -/
def appendOriginEvent (codec : Codec) (faults : EngineFaults) (tables : OriginTables)
    (signer : OriginSigner) (request : OriginAppendRequest) :
    OriginTables × Except OriginStreamError AppendedOriginEvent :=
  match buildInput codec signer request
      (tables.meshOriginTip request.teamId request.originNodeId) with
  | .error e => (tables, .error e)
  | .ok input => writeBuilt faults tables input

/-! ## Inbound events and dispositions -/

/-- `InboundOriginEvent`. -/
structure InboundOriginEvent where
  schema : String
  eventId : String
  teamId : String
  originNodeId : String
  signingKeyGeneration : ℕ
  seq : ℕ
  prevEventHash : Option String
  eventHash : String
  signature : String
  payloadSchema : String
  payload : Json
  requiredFeatures : List String
  producedAt : String

/-- `serde_json::to_value` of an inbound event. -/
def InboundOriginEvent.toValue (event : InboundOriginEvent) : Json :=
  .object [
    ("schema", .string event.schema),
    ("eventId", .string event.eventId),
    ("teamId", .string event.teamId),
    ("originNodeId", .string event.originNodeId),
    ("signingKeyGeneration", .number (toString event.signingKeyGeneration)),
    ("seq", .number (toString event.seq)),
    ("prevEventHash", .ofOption event.prevEventHash),
    ("eventHash", .string event.eventHash),
    ("signature", .string event.signature),
    ("payloadSchema", .string event.payloadSchema),
    ("payload", event.payload),
    ("requiredFeatures", .strings event.requiredFeatures),
    ("producedAt", .string event.producedAt)]

/-- `inbound_from_stored`; `none` when the stored payload does not parse. -/
def inboundFromStored (json : SerdeJson) (event : StoredMeshOriginEvent) :
    Option InboundOriginEvent := do
  let payload ← (json.parse event.payloadJson).toOption
  return {
    schema := "ee.mesh.origin_event.v1"
    eventId := event.eventId
    teamId := event.teamId
    originNodeId := event.originNodeId
    signingKeyGeneration := event.signingKeyGeneration
    seq := event.seq
    prevEventHash := event.prevEventHash
    eventHash := event.eventHash
    signature := event.signature
    payloadSchema := event.payloadSchema
    payload := payload
    requiredFeatures :=
      ((json.parse event.requiredFeaturesJson).toOption.bind Json.asStrings).getD []
    producedAt := event.producedAt }

/-- `IngestDisposition`. -/
inductive IngestDisposition where
  | applied
  | withheld (reason : String)
  | quarantined (reason : String)
  | unsupported (reason : String)
  deriving DecidableEq, Repr

namespace IngestDisposition

/-- `IngestDisposition::as_str`. -/
def asStr : IngestDisposition → String
  | applied => "applied"
  | withheld _ => "withheld"
  | quarantined _ => "quarantined"
  | unsupported _ => "unsupported"

/-- `IngestDisposition::reason`. -/
def reason : IngestDisposition → String
  | applied => "verified and applied"
  | withheld reason => reason
  | quarantined reason => reason
  | unsupported reason => reason

end IngestDisposition

end OriginStream
