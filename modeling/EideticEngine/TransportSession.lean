/-
# Frames of an authenticated session

`mesh/transport_session.rs`: the session binding and its transcript, the two
directional keys, the frames, the inbound counter ledger, and how a frame is signed,
decoded and verified.  The functions of the `blake3` crate and the derived JSON
codecs are parameters.  A frame is authenticated by a keyed hash over fifteen
length-prefixed fields; `macPreimage_inj` says that this string determines them.
-/
import EideticEngine.Hex
import EideticEngine.LengthPrefixed
import EideticEngine.MutableResult
import EideticEngine.Serde

namespace TransportSession

open RustText Hex LengthPrefixed Serde

/-! ## Constants -/

def transportFrameSchemaV2 : String := "ee.mesh.tailscale_transport_frame.v2"
def transportFrameSchemaV1 : String := "ee.mesh.tailscale_transport_frame.v1"
def maxFrameBytes : ℕ := 64 * 1024
def maxPayloadBytes : ℕ := 32 * 1024
def maxCorrelationIdBytes : ℕ := 128
def maxCapabilityTokenBytes : ℕ := 64
def maxSessionBindingFieldBytes : ℕ := 256
def pairRotateMaxPayloadBytes : ℕ := 4096
def identityAttestMaxPayloadBytes : ℕ := 8192
def sessionTranscriptTag : String := "ee.mesh.session_transcript.v2"
def sessionTranscriptContext : String := "ee.team.session.transcript.v1"
def sessionKeyI2rContext : String := "ee.team.session.i2r.v1"
def sessionKeyR2iContext : String := "ee.team.session.r2i.v1"
def frameMacPreimageTag : String := "ee.mesh.frame_mac_preimage.v2"

/-- `u64::MAX`. -/
def u64Last : UInt64 := 18446744073709551615

/-! ## Data -/

/-- The functions of the `blake3` crate. -/
structure Blake3 where
  hash : List UInt8 → Bytes32
  keyedHash : Bytes32 → List UInt8 → Bytes32
  deriveKey : String → List UInt8 → Bytes32

/-- `SessionDirection`. -/
inductive SessionDirection where
  | initiatorToResponder
  | responderToInitiator
  deriving DecidableEq

def SessionDirection.token : SessionDirection → String
  | .initiatorToResponder => "initiator_to_responder"
  | .responderToInitiator => "responder_to_initiator"

/-- `FrameKind`. -/
inductive FrameKind where
  | request
  | response
  deriving DecidableEq

def FrameKind.token : FrameKind → String
  | .request => "request"
  | .response => "response"

/-- `FrameCapability`. -/
inductive FrameCapability where
  | hello
  | summary
  | eventFetch
  | bodyFetch
  | extension (name : String)
  deriving DecidableEq

def FrameCapability.token : FrameCapability → String
  | .hello => "hello"
  | .summary => "summary"
  | .eventFetch => "event_fetch"
  | .bodyFetch => "body_fetch"
  | .extension name => name

/-- `NegotiatedExtensions`. -/
structure NegotiatedExtensions where
  names : List String

def NegotiatedExtensions.allows (negotiated : NegotiatedExtensions) (name : String) : Bool :=
  negotiated.names.any fun candidate => candidate == name

/-- `SessionBinding`. -/
structure SessionBinding where
  teamId : String
  tailnetId : String
  initiatorNodeId : String
  responderNodeId : String
  initiatorWorkspaceId : String
  responderWorkspaceId : String
  initiatorStableId : String
  responderStableId : String
  sessionId : String
  deriving DecidableEq

/-- `DirectionalSessionKeys`. -/
structure DirectionalSessionKeys where
  initiatorToResponder : Bytes32
  responderToInitiator : Bytes32
  deriving DecidableEq

def DirectionalSessionKeys.forDirection (keys : DirectionalSessionKeys) :
    SessionDirection → Bytes32
  | .initiatorToResponder => keys.initiatorToResponder
  | .responderToInitiator => keys.responderToInitiator

/-- `FrameV2`. -/
structure FrameV2 where
  schema : String
  sourceNodeId : String
  targetNodeId : String
  teamId : String
  sourceWorkspaceId : String
  targetWorkspaceId : String
  sessionId : String
  direction : SessionDirection
  counter : UInt64
  correlationId : String
  kind : FrameKind
  capability : FrameCapability
  requestedBudgetMs : UInt64
  payload : Json
  payloadHash : String
  mac : String

/-- `VerifiedFrameV2`. -/
structure VerifiedFrameV2 where
  frame : FrameV2

/-- `FrameDraft`. -/
structure FrameDraft where
  direction : SessionDirection
  counter : UInt64
  correlationId : String
  kind : FrameKind
  capability : FrameCapability
  requestedBudgetMs : UInt64
  payload : Json

/-- `CounterViolation`. -/
inductive CounterViolation where
  | duplicate
  | skipped
  | regressed
  | exhausted
  deriving DecidableEq

/-- `TransportSessionError`. -/
inductive TransportSessionError where
  | v1Rejected
  | schemaMismatch (observed : String)
  | malformedFrame (message : String)
  | frameTooLarge (actualBytes : ℕ)
  | payloadTooLarge (actualBytes budgetBytes : ℕ)
  | bindingMismatch (field : String)
  | replayRejected (violation : CounterViolation) (expected observed : UInt64)
  | sessionClosed
  | payloadHashMismatch
  | macMismatch
  | extensionNotNegotiated (name : String)
  deriving DecidableEq

/-- The registry code of a failure. -/
def TransportSessionError.degradedCode : TransportSessionError → String
  | .bindingMismatch _ => "mesh_frame_target_mismatch"
  | .replayRejected _ _ _ | .sessionClosed => "mesh_frame_replay_rejected"
  | .v1Rejected | .schemaMismatch _ | .malformedFrame _ | .frameTooLarge _ | .payloadTooLarge _ _
  | .payloadHashMismatch | .macMismatch | .extensionNotNegotiated _ => "mesh_frame_auth_failed"

/-- The JSON codec of frames: `from_slice` of the schema probe and of a whole frame. -/
structure FrameSerde extends SerdeJson where
  schemaProbe : List UInt8 → Except String String
  frame : List UInt8 → Except String FrameV2

/-! ## Keys -/

/-- The fields of the session transcript. -/
def SessionBinding.transcriptFields (binding : SessionBinding)
    (initiatorNonce responderNonce : Bytes32) : List (List UInt8) :=
  [asBytes sessionTranscriptTag, asBytes binding.teamId, asBytes binding.tailnetId,
    asBytes binding.initiatorNodeId, asBytes binding.responderNodeId,
    asBytes binding.initiatorWorkspaceId, asBytes binding.responderWorkspaceId,
    asBytes binding.initiatorStableId, asBytes binding.responderStableId,
    asBytes binding.sessionId, initiatorNonce.1, responderNonce.1]

/-- `SessionBinding::transcript_bytes`. -/
def SessionBinding.transcriptBytes (binding : SessionBinding)
    (initiatorNonce responderNonce : Bytes32) : List UInt8 :=
  lpFields (binding.transcriptFields initiatorNonce responderNonce)

/-- `derive_session_keys`. -/
def deriveSessionKeys (blake3 : Blake3) (pairKey : Bytes32) (binding : SessionBinding)
    (initiatorNonce responderNonce : Bytes32) : DirectionalSessionKeys :=
  let transcript := binding.transcriptBytes initiatorNonce responderNonce
  let transcriptHash := blake3.deriveKey sessionTranscriptContext transcript
  let material := lpFields [pairKey.1, transcriptHash.1]
  { initiatorToResponder := blake3.deriveKey sessionKeyI2rContext material
    responderToInitiator := blake3.deriveKey sessionKeyR2iContext material }

/-- `SessionCounters`. -/
structure SessionCounters where
  next : UInt64
  closed : Bool
  exhausted : Bool
  deriving DecidableEq

/-- `SessionCounters::new`. -/
def SessionCounters.new : SessionCounters := ⟨1, false, false⟩

/-- `EstablishedSession`. -/
structure EstablishedSession where
  binding : SessionBinding
  keys : DirectionalSessionKeys
  inbound : SessionCounters
  nextOutbound : UInt64
  deriving DecidableEq

/-! ## Shape checks -/

def validateFrameIdentity (field value : String) : Except TransportSessionError Unit :=
  .check (¬ ((asBytes value).isEmpty ∨ (asBytes value).length > maxSessionBindingFieldBytes))
    (.malformedFrame s!"{field} must contain 1..={maxSessionBindingFieldBytes} bytes")

def validateCorrelationId (value : String) : Except TransportSessionError Unit :=
  .check (¬ ((asBytes value).isEmpty ∨ (asBytes value).length > maxCorrelationIdBytes))
    (.malformedFrame s!"correlationId must contain 1..={maxCorrelationIdBytes} bytes")

/-- `valid_capability_token`. -/
def validCapabilityToken (token : String) : Bool :=
  !(asBytes token).isEmpty && (asBytes token).length ≤ maxCapabilityTokenBytes &&
    (asBytes token).all fun byte =>
      (97 ≤ byte && byte ≤ 122) || (48 ≤ byte && byte ≤ 57) || byte == 95

/-- The refusal of a capability token, shared by signing and verifying. -/
def validateCapabilityToken (token : String) : Except TransportSessionError Unit :=
  .check (validCapabilityToken token)
    (.malformedFrame "capability token must match [a-z0-9_]\x7b1,64\x7d")

def validateFrameBindingShape (binding : SessionBinding) : Except TransportSessionError Unit := do
  forM [("team_id", binding.teamId), ("initiator_node_id", binding.initiatorNodeId),
    ("responder_node_id", binding.responderNodeId),
    ("initiator_workspace_id", binding.initiatorWorkspaceId),
    ("responder_workspace_id", binding.responderWorkspaceId),
    ("session_id", binding.sessionId)] fun entry => validateFrameIdentity entry.1 entry.2
  .check (¬ (binding.initiatorNodeId = binding.responderNodeId ∨
    binding.initiatorWorkspaceId = binding.responderWorkspaceId))
    (.bindingMismatch "source_equals_target")

def validateFrameWireShape (frame : FrameV2) : Except TransportSessionError Unit := do
  forM [("source_node_id", frame.sourceNodeId), ("target_node_id", frame.targetNodeId),
    ("team_id", frame.teamId), ("source_workspace_id", frame.sourceWorkspaceId),
    ("target_workspace_id", frame.targetWorkspaceId),
    ("session_id", frame.sessionId)] fun entry => validateFrameIdentity entry.1 entry.2
  validateCorrelationId frame.correlationId
  validateCapabilityToken frame.capability.token
  .check (decodeHex32 frame.payloadHash).isSome
    (.malformedFrame "payloadHash must contain exactly 64 lowercase hexadecimal characters")
  .check (decodeHex32 frame.mac).isSome
    (.malformedFrame "mac must contain exactly 64 lowercase hexadecimal characters")

/-- `enforce_payload_budget`. -/
def enforcePayloadBudget (capability : FrameCapability) (actualBytes : ℕ) :
    Except TransportSessionError Unit :=
  let budget :=
    match capability with
    | .extension "pair_rotate" => pairRotateMaxPayloadBytes
    | .extension "identity_attest" => identityAttestMaxPayloadBytes
    | _ => maxPayloadBytes
  .check (¬ actualBytes > budget) (.payloadTooLarge actualBytes budget)

/-! ## Frames -/

/-- The fields of the MAC preimage. -/
def FrameV2.macFields (frame : FrameV2) : List (List UInt8) :=
  [asBytes frameMacPreimageTag, asBytes frame.schema, asBytes frame.sourceNodeId,
    asBytes frame.targetNodeId, asBytes frame.teamId, asBytes frame.sourceWorkspaceId,
    asBytes frame.targetWorkspaceId, asBytes frame.sessionId, asBytes frame.direction.token,
    leBytes 8 frame.counter.toNat, asBytes frame.correlationId, asBytes frame.kind.token,
    asBytes frame.capability.token, leBytes 8 frame.requestedBudgetMs.toNat,
    ((decodeHex32 frame.payloadHash).getD ⟨List.replicate 32 0, length_zeros⟩).1]

/-- `FrameV2::mac_preimage`. -/
def FrameV2.macPreimage (frame : FrameV2) : List UInt8 := lpFields frame.macFields

/-- The source and target of frames that travel in a direction: node, node,
workspace, workspace. -/
def SessionBinding.route (binding : SessionBinding) :
    SessionDirection → String × String × String × String
  | .initiatorToResponder =>
    (binding.initiatorNodeId, binding.responderNodeId, binding.initiatorWorkspaceId,
      binding.responderWorkspaceId)
  | .responderToInitiator =>
    (binding.responderNodeId, binding.initiatorNodeId, binding.responderWorkspaceId,
      binding.initiatorWorkspaceId)

/-- The payload bytes that are hashed and bounded. -/
def serializePayload (serde : FrameSerde) (payload : Json) :
    Except TransportSessionError (List UInt8) :=
  (serde.toVec payload).mapError fun error => .malformedFrame s!"serialize payload: {error}"

/-- The frame of a draft before its tag is set. -/
def FrameDraft.unsigned (draft : FrameDraft) (binding : SessionBinding) (payloadHash : Bytes32) :
    FrameV2 :=
  { schema := transportFrameSchemaV2
    sourceNodeId := (binding.route draft.direction).1
    targetNodeId := (binding.route draft.direction).2.1
    teamId := binding.teamId
    sourceWorkspaceId := (binding.route draft.direction).2.2.1
    targetWorkspaceId := (binding.route draft.direction).2.2.2
    sessionId := binding.sessionId
    direction := draft.direction
    counter := draft.counter
    correlationId := draft.correlationId
    kind := draft.kind
    capability := draft.capability
    requestedBudgetMs := draft.requestedBudgetMs
    payload := draft.payload
    payloadHash := hexLower payloadHash.1
    mac := "" }

/-- `sign_frame`. -/
def signFrame (serde : FrameSerde) (blake3 : Blake3) (binding : SessionBinding)
    (keys : DirectionalSessionKeys) (draft : FrameDraft) :
    Except TransportSessionError FrameV2 := do
  validateFrameBindingShape binding
  validateCorrelationId draft.correlationId
  validateCapabilityToken draft.capability.token
  let payloadBytes ← serializePayload serde draft.payload
  enforcePayloadBudget draft.capability payloadBytes.length
  let frame := draft.unsigned binding (blake3.hash payloadBytes)
  let tag := blake3.keyedHash (keys.forDirection frame.direction) frame.macPreimage
  .ok { frame with mac := hexLower tag.1 }

/-- `decode_frame`. -/
def decodeFrame (serde : FrameSerde) (bytes : List UInt8) :
    Except TransportSessionError FrameV2 := do
  .check (¬ bytes.length > maxFrameBytes) (.frameTooLarge bytes.length)
  let schema ← (serde.schemaProbe bytes).mapError fun error =>
    TransportSessionError.malformedFrame s!"decode frame envelope: {error}"
  .check (schema ≠ transportFrameSchemaV1) .v1Rejected
  .check (schema = transportFrameSchemaV2) (.schemaMismatch schema)
  let frame ← (serde.frame bytes).mapError fun error =>
    TransportSessionError.malformedFrame s!"decode v2 frame: {error}"
  validateFrameWireShape frame
  .ok frame

/-! ## Counters -/

/-- How a counter that is not the expected one violates the discipline. -/
def counterViolation (next observed : UInt64) : CounterViolation :=
  if (if observed = u64Last then u64Last else observed + 1) = next then .duplicate
  else if observed > next then .skipped
  else .regressed

/-- `SessionCounters::accept`. -/
def SessionCounters.accept (observed : UInt64) :
    EStateM TransportSessionError SessionCounters Unit := fun self =>
  if self.exhausted then .error (.replayRejected .exhausted u64Last observed) self
  else if self.closed then .error .sessionClosed self
  else if observed = self.next then
    if self.next = u64Last then .ok () { self with closed := true, exhausted := true }
    else .ok () { self with next := self.next + 1 }
  else
    .error (.replayRejected (counterViolation self.next observed) self.next observed)
      { self with closed := true }

/-! ## Verification -/

/-- The refusal of an extension that was not negotiated. -/
def checkNegotiated (negotiated : NegotiatedExtensions) :
    FrameCapability → Except TransportSessionError Unit
  | .extension name => .check (negotiated.allows name) (.extensionNotNegotiated name)
  | _ => .ok ()

/-- `verify_frame`.  The ledger is the mutable argument. -/
def verifyFrame (serde : FrameSerde) (blake3 : Blake3) (frame : FrameV2)
    (binding : SessionBinding) (expectedDirection : SessionDirection)
    (keys : DirectionalSessionKeys) (negotiated : NegotiatedExtensions) :
    EStateM TransportSessionError SessionCounters VerifiedFrameV2 := do
  .lift (validateFrameWireShape frame)
  .lift (.check (frame.schema ≠ transportFrameSchemaV1) .v1Rejected)
  .lift (.check (frame.schema = transportFrameSchemaV2) (.schemaMismatch frame.schema))
  .lift (.check (frame.teamId = binding.teamId) (.bindingMismatch "team_id"))
  .lift (.check (frame.sessionId = binding.sessionId) (.bindingMismatch "session_id"))
  .lift (.check (frame.direction = expectedDirection) (.bindingMismatch "direction"))
  let expected := binding.route expectedDirection
  .lift (.check (frame.sourceNodeId = expected.1) (.bindingMismatch "source_node_id"))
  .lift (.check (frame.targetNodeId = expected.2.1) (.bindingMismatch "target_node_id"))
  .lift (.check (frame.sourceWorkspaceId = expected.2.2.1)
    (.bindingMismatch "source_workspace_id"))
  .lift (.check (frame.targetWorkspaceId = expected.2.2.2)
    (.bindingMismatch "target_workspace_id"))
  .lift (.check (¬ (frame.sourceWorkspaceId = frame.targetWorkspaceId ∨
    frame.sourceNodeId = frame.targetNodeId)) (.bindingMismatch "source_equals_target"))
  let payloadBytes ← .lift (serializePayload serde frame.payload)
  .lift (enforcePayloadBudget frame.capability payloadBytes.length)
  .lift (.check (constantTimeEqHex frame.payloadHash (blake3.hash payloadBytes))
    .payloadHashMismatch)
  -- the key of the expected direction, whatever the frame says
  .lift (.check (constantTimeEqHex frame.mac
    (blake3.keyedHash (keys.forDirection expectedDirection) frame.macPreimage)) .macMismatch)
  .lift (checkNegotiated negotiated frame.capability)
  SessionCounters.accept frame.counter
  pure ⟨frame⟩

/-! ## What the preimage determines -/

/-- Every field of the preimage is short enough for its length prefix. -/
def FrameV2.Shaped (frame : FrameV2) : Prop := ∀ field ∈ frame.macFields, Fits field

/-- The frames agree on every field that the preimage carries. -/
structure FrameV2.SameMacFields (f g : FrameV2) : Prop where
  schema : f.schema = g.schema
  sourceNodeId : f.sourceNodeId = g.sourceNodeId
  targetNodeId : f.targetNodeId = g.targetNodeId
  teamId : f.teamId = g.teamId
  sourceWorkspaceId : f.sourceWorkspaceId = g.sourceWorkspaceId
  targetWorkspaceId : f.targetWorkspaceId = g.targetWorkspaceId
  sessionId : f.sessionId = g.sessionId
  direction : f.direction = g.direction
  counter : f.counter = g.counter
  correlationId : f.correlationId = g.correlationId
  kind : f.kind = g.kind
  capability : f.capability.token = g.capability.token
  requestedBudgetMs : f.requestedBudgetMs = g.requestedBudgetMs
  payloadHash : ((decodeHex32 f.payloadHash).getD ⟨List.replicate 32 0, length_zeros⟩).1
    = ((decodeHex32 g.payloadHash).getD ⟨List.replicate 32 0, length_zeros⟩).1

theorem SessionDirection.token_injective : Function.Injective SessionDirection.token := by
  intro a b h
  cases a <;> cases b <;> first | rfl | (exact absurd h (by decide))

theorem FrameKind.token_injective : Function.Injective FrameKind.token := by
  intro a b h
  cases a <;> cases b <;> first | rfl | (exact absurd h (by decide))

/-- A 64-bit number is determined by its eight bytes. -/
theorem leBytes_toNat_injective {a b : UInt64}
    (h : leBytes 8 a.toNat = leBytes 8 b.toNat) : a = b := by
  have hv := congrArg leValue h
  rw [leValue_leBytes_of_lt a.toNat_lt, leValue_leBytes_of_lt b.toNat_lt] at hv
  exact UInt64.toNat_inj.mp hv

/-- **The MAC preimage determines the fields it is made of.** -/
theorem macPreimage_inj {f g : FrameV2} (hf : f.Shaped) (hg : g.Shaped)
    (h : f.macPreimage = g.macPreimage) : f.SameMacFields g := by
  have hfields : f.macFields = g.macFields := lpFields_inj hf hg h
  simp only [FrameV2.macFields, List.cons.injEq, and_true, true_and] at hfields
  obtain ⟨h1, h2, h3, h4, h5, h6, h7, h8, h9, h10, h11, h12, h13, h14⟩ := hfields
  exact
    { schema := asBytes_injective h1
      sourceNodeId := asBytes_injective h2
      targetNodeId := asBytes_injective h3
      teamId := asBytes_injective h4
      sourceWorkspaceId := asBytes_injective h5
      targetWorkspaceId := asBytes_injective h6
      sessionId := asBytes_injective h7
      direction := SessionDirection.token_injective (asBytes_injective h8)
      counter := leBytes_toNat_injective h9
      correlationId := asBytes_injective h10
      kind := FrameKind.token_injective (asBytes_injective h11)
      capability := asBytes_injective h12
      requestedBudgetMs := leBytes_toNat_injective h13
      payloadHash := h14 }

/-! ## What the shape checks give -/

theorem fits_of_validateFrameIdentity {field value : String}
    (h : validateFrameIdentity field value = .ok ()) : Fits (asBytes value) := by
  rw [validateFrameIdentity, Except.check_eq_ok_iff, maxSessionBindingFieldBytes] at h
  unfold Fits
  omega

theorem fits_of_validateCorrelationId {value : String}
    (h : validateCorrelationId value = .ok ()) : Fits (asBytes value) := by
  rw [validateCorrelationId, Except.check_eq_ok_iff, maxCorrelationIdBytes] at h
  unfold Fits
  omega

theorem fits_of_validateCapabilityToken {token : String}
    (h : validateCapabilityToken token = .ok ()) : Fits (asBytes token) := by
  rw [validateCapabilityToken, Except.check_eq_ok_iff, validCapabilityToken, Bool.and_eq_true,
    Bool.and_eq_true, decide_eq_true_eq, maxCapabilityTokenBytes] at h
  unfold Fits
  omega

theorem fits_direction_token (d : SessionDirection) : Fits (asBytes d.token) := by
  cases d <;> (unfold Fits; decide +kernel)

theorem fits_kind_token (kind : FrameKind) : Fits (asBytes kind.token) := by
  cases kind <;> (unfold Fits; decide +kernel)

/-- A frame of the current schema is shaped once its texts are. -/
theorem FrameV2.shaped_of_fits {f : FrameV2} (hs : f.schema = transportFrameSchemaV2)
    (ht : ∀ text ∈ [f.sourceNodeId, f.targetNodeId, f.teamId,
      f.sourceWorkspaceId, f.targetWorkspaceId, f.sessionId, f.correlationId,
      f.capability.token], Fits (asBytes text)) : f.Shaped := by
  have hta : Fits (asBytes frameMacPreimageTag) := by unfold Fits; decide +kernel
  have hv2 : Fits (asBytes f.schema) := by rw [hs]; unfold Fits; decide +kernel
  have hc : ∀ n, Fits (leBytes 8 n) := by
    intro n
    unfold Fits
    rw [length_leBytes]
    omega
  have hd : ∀ digest : Bytes32, Fits digest.1 := by
    intro digest
    unfold Fits
    rw [digest.2]
    omega
  simp only [List.forall_mem_cons] at ht
  obtain ⟨h1, h2, h3, h4, h5, h6, h7, h8, -⟩ := ht
  unfold FrameV2.Shaped FrameV2.macFields
  simp only [List.forall_mem_cons]
  exact ⟨hta, hv2, h1, h2, h3, h4, h5, h6, fits_direction_token _, hc _, h7,
    fits_kind_token _, h8, hc _, hd _, by simp⟩

/-- The texts of a frame that passes the wire check fit their length prefixes. -/
theorem fits_of_validateFrameWireShape {f : FrameV2} (h : validateFrameWireShape f = .ok ()) :
    ∀ text ∈ [f.sourceNodeId, f.targetNodeId, f.teamId, f.sourceWorkspaceId,
      f.targetWorkspaceId, f.sessionId, f.correlationId, f.capability.token],
      Fits (asBytes text) := by
  obtain ⟨⟨⟩, hf, h⟩ := Except.bind_eq_ok_iff.mp h
  obtain ⟨⟨⟩, hc, h⟩ := Except.bind_eq_ok_iff.mp h
  obtain ⟨⟨⟩, ht, -⟩ := Except.bind_eq_ok_iff.mp h
  have ha := List.forM_eq_ok_iff.mp hf
  simp only [List.forall_mem_cons] at ha ⊢
  obtain ⟨h1, h2, h3, h4, h5, h6, -⟩ := ha
  exact ⟨fits_of_validateFrameIdentity h1, fits_of_validateFrameIdentity h2,
    fits_of_validateFrameIdentity h3, fits_of_validateFrameIdentity h4,
    fits_of_validateFrameIdentity h5, fits_of_validateFrameIdentity h6,
    fits_of_validateCorrelationId hc, fits_of_validateCapabilityToken ht, by simp⟩

/-- What signing makes and verifying checks: the frame belongs to the session and
travels in the direction, and its hash and its tag are those of its contents. -/
structure FrameV2.Authentic (serde : FrameSerde) (blake3 : Blake3) (binding : SessionBinding)
    (keys : DirectionalSessionKeys) (dir : SessionDirection) (frame : FrameV2) : Prop where
  shaped : frame.Shaped
  schema : frame.schema = transportFrameSchemaV2
  teamId : frame.teamId = binding.teamId
  sessionId : frame.sessionId = binding.sessionId
  direction : frame.direction = dir
  route : (frame.sourceNodeId, frame.targetNodeId, frame.sourceWorkspaceId,
    frame.targetWorkspaceId) = binding.route dir
  payload : ∃ bytes, serde.toVec frame.payload = .ok bytes ∧
    frame.payloadHash = hexLower (blake3.hash bytes).1
  mac : frame.mac = hexLower (blake3.keyedHash (keys.forDirection dir) frame.macPreimage).1

/-! ## Signing -/

/-- What a successful signature is made of. -/
theorem signFrame_inv {s : FrameSerde} {b3 : Blake3} {b : SessionBinding}
    {keys : DirectionalSessionKeys} {draft : FrameDraft} {f : FrameV2}
    (h : signFrame s b3 b keys draft = .ok f) :
    validateFrameBindingShape b = .ok () ∧ validateCorrelationId draft.correlationId = .ok () ∧
      validateCapabilityToken draft.capability.token = .ok () ∧
      ∃ bytes, s.toVec draft.payload = .ok bytes ∧ f = { draft.unsigned b (b3.hash bytes) with
          mac := hexLower (b3.keyedHash (keys.forDirection draft.direction)
            (draft.unsigned b (b3.hash bytes)).macPreimage).1 } := by
  unfold signFrame at h
  obtain ⟨⟨⟩, hb, h⟩ := Except.bind_eq_ok_iff.mp h
  obtain ⟨⟨⟩, hc, h⟩ := Except.bind_eq_ok_iff.mp h
  obtain ⟨⟨⟩, ht, h⟩ := Except.bind_eq_ok_iff.mp h
  obtain ⟨bytes, hby, h⟩ := Except.bind_eq_ok_iff.mp h
  obtain ⟨⟨⟩, -, h⟩ := Except.bind_eq_ok_iff.mp h
  refine ⟨hb, hc, ht, bytes, Except.mapError_eq_ok_iff.mp hby, ?_⟩
  cases h
  rfl

/-- The texts of a binding that signing accepts fit their length prefixes. -/
theorem fits_of_validateFrameBindingShape {b : SessionBinding}
    (h : validateFrameBindingShape b = .ok ()) :
    ∀ text ∈ [b.teamId, b.initiatorNodeId, b.responderNodeId,
      b.initiatorWorkspaceId, b.responderWorkspaceId, b.sessionId],
      Fits (asBytes text) := by
  obtain ⟨⟨⟩, hf, -⟩ := Except.bind_eq_ok_iff.mp h
  have ha := List.forM_eq_ok_iff.mp hf
  simp only [List.forall_mem_cons] at ha ⊢
  obtain ⟨h1, h2, h3, h4, h5, h6, -⟩ := ha
  exact ⟨fits_of_validateFrameIdentity h1, fits_of_validateFrameIdentity h2,
    fits_of_validateFrameIdentity h3, fits_of_validateFrameIdentity h4,
    fits_of_validateFrameIdentity h5, fits_of_validateFrameIdentity h6, by simp⟩

/-- **A signed frame is authentic.** -/
theorem signFrame_authentic {serde : FrameSerde} {blake3 : Blake3} {binding : SessionBinding}
    {keys : DirectionalSessionKeys} {draft : FrameDraft} {frame : FrameV2}
    (h : signFrame serde blake3 binding keys draft = .ok frame) :
    frame.Authentic serde blake3 binding keys draft.direction := by
  obtain ⟨hbinding, hcorrelation, htoken, bytes, hbytes, rfl⟩ := signFrame_inv h
  have hfits := fits_of_validateFrameBindingShape hbinding
  simp only [List.forall_mem_cons] at hfits
  obtain ⟨h1, h2, h3, h4, h5, h6, -⟩ := hfits
  refine
    { shaped := ?_
      schema := rfl
      teamId := rfl
      sessionId := rfl
      direction := rfl
      route := rfl
      payload := ⟨bytes, hbytes, rfl⟩
      mac := rfl }
  apply FrameV2.shaped_of_fits rfl
  have hc := fits_of_validateCorrelationId hcorrelation
  have ht := fits_of_validateCapabilityToken htoken
  simp only [List.forall_mem_cons, FrameDraft.unsigned]
  cases draft.direction with
  | initiatorToResponder => exact ⟨h2, h3, h1, h4, h5, h6, hc, ht, by simp⟩
  | responderToInitiator => exact ⟨h3, h2, h1, h5, h4, h6, hc, ht, by simp⟩

/-! ## Verifying -/

/-- A rejection by the counter ledger. -/
def TransportSessionError.isCounter (error : TransportSessionError) : Prop :=
  error.degradedCode = "mesh_frame_replay_rejected"

/-- What a failed verification may do to the ledger: close it, when the counter is
the reason, and nothing else. -/
def LedgerAfterFailure (e : TransportSessionError) (s s' : SessionCounters) : Prop :=
  (¬ e.isCounter → s' = s) ∧ s'.next = s.next ∧ s'.exhausted = s.exhausted

theorem accept_failsWithin (o : UInt64) :
    (SessionCounters.accept o).FailsWithin LedgerAfterFailure := by
  intro s e s' h
  unfold SessionCounters.accept at h
  split_ifs at h <;> cases h <;> exact ⟨fun hne => absurd rfl hne, rfl, rfl⟩

/-- **A frame that is rejected for anything but its counter leaves the ledger as it
was.** -/
theorem verifyFrame_failsWithin (se : FrameSerde) (b3 : Blake3) (f : FrameV2)
    (b : SessionBinding) (d : SessionDirection) (keys : DirectionalSessionKeys)
    (n : NegotiatedExtensions) :
    (verifyFrame se b3 f b d keys n).FailsWithin
      LedgerAfterFailure := by
  have hr : ∀ e s, LedgerAfterFailure e s s := fun e s => ⟨fun _ => rfl, rfl, rfl⟩
  unfold verifyFrame
  -- every check before the ledger is consulted
  repeat refine EStateM.FailsWithin.lift_bind hr _ fun _ => ?_
  exact (accept_failsWithin f.counter).bind_pure

theorem toNat_add_one_of_ne_last {n : UInt64} (h : n ≠ u64Last) :
    (n + 1).toNat = n.toNat + 1 := by
  have hne : n.toNat ≠ 18446744073709551615 := fun heq => h (UInt64.toNat_inj.mp heq)
  have hlt := n.toNat_lt
  rw [UInt64.toNat_add]
  simp only [UInt64.reduceToNat]
  omega

/-- The ledger takes exactly the expected counter, and moves on unless it was the
last one. -/
theorem accept_inv {o : UInt64} {s s' : SessionCounters}
    (h : SessionCounters.accept o s = .ok () s') :
    s.exhausted = false ∧ o = s.next ∧
      (s'.exhausted = false → s'.next.toNat = s.next.toNat + 1) := by
  unfold SessionCounters.accept at h
  split_ifs at h with hex hclosed hnext hlast
  · cases h
    exact ⟨by simpa using hex, hnext, by simp⟩
  · cases h
    exact ⟨by simpa using hex, hnext, fun _ => toNat_add_one_of_ne_last hlast⟩

/-- What an accepted frame passed: it is authentic, and the ledger took its counter. -/
theorem verifyFrame_inv {serde : FrameSerde} {blake3 : Blake3} {frame : FrameV2}
    {binding : SessionBinding} {direction : SessionDirection} {keys : DirectionalSessionKeys}
    {negotiated : NegotiatedExtensions} {s s' : SessionCounters} {verified : VerifiedFrameV2}
    (h : verifyFrame serde blake3 frame binding direction keys negotiated s = .ok verified s') :
    verified.frame = frame ∧ frame.Authentic serde blake3 binding keys direction ∧
      SessionCounters.accept frame.counter s = .ok () s' := by
  unfold verifyFrame at h
  obtain ⟨⟨⟩, hshape, h⟩ := EStateM.lift_bind_eq_ok_iff.mp h
  obtain ⟨⟨⟩, -, h⟩ := EStateM.lift_bind_eq_ok_iff.mp h
  obtain ⟨⟨⟩, hschema, h⟩ := EStateM.lift_bind_eq_ok_iff.mp h
  obtain ⟨⟨⟩, hteam, h⟩ := EStateM.lift_bind_eq_ok_iff.mp h
  obtain ⟨⟨⟩, hsession, h⟩ := EStateM.lift_bind_eq_ok_iff.mp h
  obtain ⟨⟨⟩, hdirection, h⟩ := EStateM.lift_bind_eq_ok_iff.mp h
  obtain ⟨⟨⟩, hsource, h⟩ := EStateM.lift_bind_eq_ok_iff.mp h
  obtain ⟨⟨⟩, htarget, h⟩ := EStateM.lift_bind_eq_ok_iff.mp h
  obtain ⟨⟨⟩, hsourceWs, h⟩ := EStateM.lift_bind_eq_ok_iff.mp h
  obtain ⟨⟨⟩, htargetWs, h⟩ := EStateM.lift_bind_eq_ok_iff.mp h
  obtain ⟨⟨⟩, -, h⟩ := EStateM.lift_bind_eq_ok_iff.mp h
  obtain ⟨bytes, hbytes, h⟩ := EStateM.lift_bind_eq_ok_iff.mp h
  obtain ⟨⟨⟩, -, h⟩ := EStateM.lift_bind_eq_ok_iff.mp h
  obtain ⟨⟨⟩, hhash, h⟩ := EStateM.lift_bind_eq_ok_iff.mp h
  obtain ⟨⟨⟩, hmac, h⟩ := EStateM.lift_bind_eq_ok_iff.mp h
  obtain ⟨⟨⟩, -, h⟩ := EStateM.lift_bind_eq_ok_iff.mp h
  obtain ⟨⟨⟩, haccept, rfl⟩ := EStateM.bind_pure_eq_ok_iff.mp h
  rw [Except.check_eq_ok_iff] at hschema hteam hsession hdirection hhash hmac
  rw [Except.check_eq_ok_iff] at hsource htarget hsourceWs htargetWs
  refine ⟨rfl, ?_, haccept⟩
  exact
    { shaped := FrameV2.shaped_of_fits hschema (fits_of_validateFrameWireShape hshape)
      schema := hschema
      teamId := hteam
      sessionId := hsession
      direction := hdirection
      route := by rw [hsource, htarget, hsourceWs, htargetWs]
      payload := ⟨bytes, Except.mapError_eq_ok_iff.mp hbytes, constantTimeEqHex_iff.mp hhash⟩
      mac := constantTimeEqHex_iff.mp hmac }

/-! ## The known-answer session

The binding, the keys and the first frame that the tests pin, with the digests that the
reference implementation gives for them. -/

/-- A digest from its text. -/
def digest (text : String) : Bytes32 :=
  (decodeHex32 text).getD ⟨List.replicate 32 0, length_zeros⟩

def katBinding : SessionBinding :=
  { teamId := "team-kat"
    tailnetId := "tailnet-kat.ts.net"
    initiatorNodeId := "node-init"
    responderNodeId := "node-resp"
    initiatorWorkspaceId := "ws-init"
    responderWorkspaceId := "ws-resp"
    initiatorStableId := "stable-init"
    responderStableId := "stable-resp"
    sessionId := "sess-0001" }

def katKeys : DirectionalSessionKeys :=
  ⟨digest "a1b31732edd1597b49ec1ac73df6269db5083382defad08a415847d0d4bd9c23",
    digest "5a34c82a845b7c212b6465427484caf1cf9a0fb54f6b462ef196d88ac2348768"⟩

def katDraft : FrameDraft :=
  { direction := .initiatorToResponder
    counter := 1
    correlationId := "corr-0001"
    kind := .request
    capability := .hello
    requestedBudgetMs := 30000
    payload := .object [] }

/-- The digest of the empty object. -/
def katPayloadHash : Bytes32 :=
  digest "6e46dd10defc9b56c29a6ec56b508c21f54c08192194e4df25bf36f0c9c3c279"

def katFrame : FrameV2 :=
  { katDraft.unsigned katBinding katPayloadHash with
    mac := "a139a76c75b6272f52e3b143f483e018889f3dd5c9e456974950a55e35863c82" }

/-- `blake3` on the inputs of the known-answer frame. -/
def katBlake3 : Blake3 where
  hash bytes := if bytes = asBytes "\x7b\x7d" then katPayloadHash else digest ""
  keyedHash key bytes :=
    if bytes = katFrame.macPreimage then
      if key = katKeys.initiatorToResponder then
        digest "a139a76c75b6272f52e3b143f483e018889f3dd5c9e456974950a55e35863c82"
      else if key = katKeys.responderToInitiator then
        digest "11df09b19c83424f0450057ec9d76922b9283e00ae28f60c254de92eba9e532a"
      else digest ""
    else digest ""
  deriveKey _ _ := digest ""

end TransportSession
