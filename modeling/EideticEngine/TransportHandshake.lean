/-
# The session handshake

`mesh/transport_session.rs`: three messages by which two endpoints that hold one pair
key agree on a session.  Everything an endpoint authenticates is a function of its
`HandshakeView`: the binding, both nonces, the key generation and the observed node
keys.  The confirmation MACs hash the view through two nested length-prefixed
encodings, so that equal MACs mean equal views as long as `blake3` does not collide on
the inputs of the views at hand.
-/
import EideticEngine.TransportSession

namespace TransportSession

open RustText Hex LengthPrefixed

/-! ## Constants and messages -/

def sessionOpenSchemaV1 : String := "ee.mesh.session_open.v1"
def sessionConfirmSchemaV1 : String := "ee.mesh.session_confirm.v1"
def sessionFinishSchemaV1 : String := "ee.mesh.session_finish.v1"
def sessionConfirmKeyContext : String := "ee.team.session.confirm.v1"
def sessionConfirmMacTag : String := "ee.mesh.session_confirm_mac.v1"
def maxHandshakeMessageBytes : ℕ := 4096
def maxNodePubkeyBytes : ℕ := 256

/-- `HandshakeObservations`. -/
structure HandshakeObservations where
  initiatorNodePubkey : String
  responderNodePubkey : String
  deriving DecidableEq

/-- `HandshakeRole`. -/
inductive HandshakeRole where
  | initiator
  | responder
  deriving DecidableEq

def HandshakeRole.token : HandshakeRole → String
  | .initiator => "initiator"
  | .responder => "responder"

/-- `SessionOpenV1`. -/
structure SessionOpenV1 where
  schema : String
  teamId : String
  tailnetId : String
  initiatorNodeId : String
  responderNodeId : String
  initiatorWorkspaceId : String
  responderWorkspaceId : String
  initiatorStableId : String
  responderStableId : String
  sessionId : String
  pairKeyGeneration : UInt64
  initiatorNonce : String
  deriving DecidableEq

/-- `SessionConfirmV1`. -/
structure SessionConfirmV1 where
  schema : String
  sessionId : String
  responderNonce : String
  confirmMac : String
  deriving DecidableEq

/-- `SessionFinishV1`. -/
structure SessionFinishV1 where
  schema : String
  sessionId : String
  finishMac : String
  deriving DecidableEq

/-- `serde_json::to_vec` of the three messages. -/
structure HandshakeSerde where
  openMessage : SessionOpenV1 → Except String (List UInt8)
  confirmMessage : SessionConfirmV1 → Except String (List UInt8)
  finishMessage : SessionFinishV1 → Except String (List UInt8)

/-- `HandshakeError`. -/
inductive HandshakeError where
  | malformedMessage (message : String)
  | messageTooLarge (actualBytes : ℕ)
  | schemaMismatch (observed : String)
  | bindingMismatch (field : String)
  | generationMismatch (expected observed : UInt64)
  | badNonce (field : String)
  | invalidObservation (field : String)
  | confirmationFailed (role : String)
  | sessionIdMismatch
  deriving DecidableEq

/-- `ResponderExpectations`. -/
structure ResponderExpectations where
  teamId : String
  tailnetId : String
  responderNodeId : String
  responderWorkspaceId : String
  responderStableId : String
  initiatorNodeId : String
  initiatorStableId : String
  pairKeyGeneration : UInt64
  deriving DecidableEq

/-! ## Shape checks -/

/-- The texts of a binding, each with the name that its error reports. -/
def SessionBinding.namedFields (binding : SessionBinding) : List (String × String) :=
  [("team_id", binding.teamId), ("tailnet_id", binding.tailnetId),
    ("initiator_node_id", binding.initiatorNodeId),
    ("responder_node_id", binding.responderNodeId),
    ("initiator_workspace_id", binding.initiatorWorkspaceId),
    ("responder_workspace_id", binding.responderWorkspaceId),
    ("initiator_stable_id", binding.initiatorStableId),
    ("responder_stable_id", binding.responderStableId), ("session_id", binding.sessionId)]

/-- `validate_binding_shape`. -/
def validateBindingShape (binding : SessionBinding) : Except HandshakeError Unit := do
  forM binding.namedFields fun entry =>
    .check (¬ ((asBytes (trim entry.2)).isEmpty ∨
      (asBytes entry.2).length > maxSessionBindingFieldBytes)) (.bindingMismatch entry.1)
  .check (¬ (binding.initiatorNodeId = binding.responderNodeId ∨
    binding.initiatorWorkspaceId = binding.responderWorkspaceId))
    (.bindingMismatch "source_equals_target")

/-- `validate_observations`. -/
def validateObservations (observations : HandshakeObservations) : Except HandshakeError Unit :=
  forM [("initiator_node_pubkey", observations.initiatorNodePubkey),
    ("responder_node_pubkey", observations.responderNodePubkey)] fun entry =>
    .check (¬ ((asBytes (trim entry.2)).isEmpty ∨ (asBytes entry.2).length > maxNodePubkeyBytes))
      (.invalidObservation entry.1)

/-- `validate_nonce`. -/
def validateNonce (nonce : Bytes32) (field : String) : Except HandshakeError Unit :=
  .check (¬ nonce.1.all fun byte => byte == 0) (.badNonce field)

/-- `decode_nonce`. -/
def decodeNonce (value field : String) : Except HandshakeError Bytes32 := do
  let nonce ← (decodeHex32 value).elim (.error (.badNonce field)) .ok
  validateNonce nonce field
  .ok nonce

/-- `ensure_handshake_size` on what `to_vec` gives. -/
def ensureHandshakeSize (encoded : Except String (List UInt8)) : Except HandshakeError Unit := do
  let bytes ← encoded.mapError fun error =>
    HandshakeError.malformedMessage s!"serialize handshake message: {error}"
  .check (¬ bytes.length > maxHandshakeMessageBytes) (.messageTooLarge bytes.length)

/-- `validate_handshake_session_id`. -/
def validateHandshakeSessionId (sessionId : String) : Except HandshakeError Unit :=
  .check (¬ ((asBytes sessionId).isEmpty ∨
    (asBytes sessionId).length > maxSessionBindingFieldBytes)) (.bindingMismatch "session_id")

/-- `validate_handshake_mac`. -/
def validateHandshakeMac (value field : String) : Except HandshakeError Unit :=
  .check (decodeHex32 value).isSome
    (.malformedMessage s!"{field} must contain exactly 64 lowercase hexadecimal characters")

/-- The binding that an open message claims. -/
def SessionOpenV1.claimed (message : SessionOpenV1) : SessionBinding :=
  { teamId := message.teamId
    tailnetId := message.tailnetId
    initiatorNodeId := message.initiatorNodeId
    responderNodeId := message.responderNodeId
    initiatorWorkspaceId := message.initiatorWorkspaceId
    responderWorkspaceId := message.responderWorkspaceId
    initiatorStableId := message.initiatorStableId
    responderStableId := message.responderStableId
    sessionId := message.sessionId }

/-- `validate_session_open_wire_shape`. -/
def validateSessionOpenWireShape (message : SessionOpenV1) : Except HandshakeError Unit := do
  validateBindingShape message.claimed
  .check (message.pairKeyGeneration ≠ 0) (.generationMismatch 1 0)
  let _ ← decodeNonce message.initiatorNonce "initiator_nonce"
  .ok ()

/-- `validate_session_confirm_wire_shape`. -/
def validateSessionConfirmWireShape (confirm : SessionConfirmV1) :
    Except HandshakeError Unit := do
  validateHandshakeSessionId confirm.sessionId
  let _ ← decodeNonce confirm.responderNonce "responder_nonce"
  validateHandshakeMac confirm.confirmMac "confirm_mac"

/-- `validate_session_finish_wire_shape`. -/
def validateSessionFinishWireShape (finish : SessionFinishV1) : Except HandshakeError Unit := do
  validateHandshakeSessionId finish.sessionId
  validateHandshakeMac finish.finishMac "finish_mac"

/-! ## Confirmation MACs -/

/-- `session_transcript_hash`. -/
def sessionTranscriptHash (blake3 : Blake3) (binding : SessionBinding)
    (initiatorNonce responderNonce : Bytes32) : Bytes32 :=
  blake3.deriveKey sessionTranscriptContext
    (binding.transcriptBytes initiatorNonce responderNonce)

/-- `derive_confirm_key`. -/
def deriveConfirmKey (blake3 : Blake3) (pairKey transcriptHash : Bytes32) : Bytes32 :=
  blake3.deriveKey sessionConfirmKeyContext (lpFields [pairKey.1, transcriptHash.1])

/-- The preimage of `confirmation_mac`. -/
def confirmationPreimage (transcriptHash : Bytes32) (pairKeyGeneration : UInt64)
    (role : HandshakeRole) (observations : HandshakeObservations) : List UInt8 :=
  lpFields [asBytes sessionConfirmMacTag, transcriptHash.1, leBytes 8 pairKeyGeneration.toNat,
    asBytes role.token, asBytes observations.initiatorNodePubkey,
    asBytes observations.responderNodePubkey]

/-- `confirmation_mac`. -/
def confirmationMac (blake3 : Blake3) (confirmKey transcriptHash : Bytes32)
    (pairKeyGeneration : UInt64) (role : HandshakeRole) (observations : HandshakeObservations) :
    Bytes32 :=
  blake3.keyedHash confirmKey
    (confirmationPreimage transcriptHash pairKeyGeneration role observations)

/-! ## The initiator -/

/-- `InitiatorHandshake`. -/
structure InitiatorHandshake where
  binding : SessionBinding
  initiatorNonce : Bytes32
  pairKeyGeneration : UInt64
  observations : HandshakeObservations
  deriving DecidableEq

/-- The message that `InitiatorHandshake::open` authors. -/
def openMessage (binding : SessionBinding) (initiatorNonce : Bytes32)
    (pairKeyGeneration : UInt64) : SessionOpenV1 :=
  { schema := sessionOpenSchemaV1
    teamId := binding.teamId
    tailnetId := binding.tailnetId
    initiatorNodeId := binding.initiatorNodeId
    responderNodeId := binding.responderNodeId
    initiatorWorkspaceId := binding.initiatorWorkspaceId
    responderWorkspaceId := binding.responderWorkspaceId
    initiatorStableId := binding.initiatorStableId
    responderStableId := binding.responderStableId
    sessionId := binding.sessionId
    pairKeyGeneration
    initiatorNonce := hexLower initiatorNonce.1 }

/-- `InitiatorHandshake::open`. -/
def InitiatorHandshake.openSession (serde : HandshakeSerde) (binding : SessionBinding)
    (initiatorNonce : Bytes32) (pairKeyGeneration : UInt64)
    (observations : HandshakeObservations) :
    Except HandshakeError (InitiatorHandshake × SessionOpenV1) := do
  validateBindingShape binding
  validateObservations observations
  validateNonce initiatorNonce "initiator_nonce"
  .check (pairKeyGeneration ≠ 0) (.generationMismatch 1 0)
  let message := openMessage binding initiatorNonce pairKeyGeneration
  ensureHandshakeSize (serde.openMessage message)
  .ok (⟨binding, initiatorNonce, pairKeyGeneration, observations⟩, message)

/-- `InitiatorHandshake::finish`. -/
def InitiatorHandshake.finish (serde : HandshakeSerde) (blake3 : Blake3)
    (self : InitiatorHandshake) (pairKey : Bytes32) (confirm : SessionConfirmV1) :
    Except HandshakeError (SessionFinishV1 × EstablishedSession) := do
  validateSessionConfirmWireShape confirm
  .check (confirm.schema = sessionConfirmSchemaV1) (.schemaMismatch confirm.schema)
  .check (confirm.sessionId = self.binding.sessionId) .sessionIdMismatch
  let responderNonce ← decodeNonce confirm.responderNonce "responder_nonce"
  let transcriptHash :=
    sessionTranscriptHash blake3 self.binding self.initiatorNonce responderNonce
  let confirmKey := deriveConfirmKey blake3 pairKey transcriptHash
  let expectedResponder := confirmationMac blake3 confirmKey transcriptHash
    self.pairKeyGeneration .responder self.observations
  .check (constantTimeEqHex confirm.confirmMac expectedResponder)
    (.confirmationFailed "responder")
  let finishTag := confirmationMac blake3 confirmKey transcriptHash self.pairKeyGeneration
    .initiator self.observations
  let finish : SessionFinishV1 :=
    ⟨sessionFinishSchemaV1, self.binding.sessionId, hexLower finishTag.1⟩
  ensureHandshakeSize (serde.finishMessage finish)
  let keys := deriveSessionKeys blake3 pairKey self.binding self.initiatorNonce responderNonce
  .ok (finish, ⟨self.binding, keys, .new, 1⟩)

/-! ## The responder -/

/-- `ResponderPendingSession`. -/
structure ResponderPendingSession where
  binding : SessionBinding
  initiatorNonce : Bytes32
  responderNonce : Bytes32
  pairKeyGeneration : UInt64
  observations : HandshakeObservations
  deriving DecidableEq

/-- The binding that the responder reconstructs: expectations, and the two fields that it
takes from the open message. -/
def ResponderExpectations.reconstruct (expectations : ResponderExpectations)
    (message : SessionOpenV1) : SessionBinding :=
  { teamId := expectations.teamId
    tailnetId := expectations.tailnetId
    initiatorNodeId := expectations.initiatorNodeId
    responderNodeId := expectations.responderNodeId
    initiatorWorkspaceId := message.initiatorWorkspaceId
    responderWorkspaceId := expectations.responderWorkspaceId
    initiatorStableId := expectations.initiatorStableId
    responderStableId := expectations.responderStableId
    sessionId := message.sessionId }

/-- `responder_accept_open`. -/
def responderAcceptOpen (serde : HandshakeSerde) (blake3 : Blake3) (message : SessionOpenV1)
    (expectations : ResponderExpectations) (responderNonce : Bytes32)
    (observations : HandshakeObservations) (pairKey : Bytes32) :
    Except HandshakeError (ResponderPendingSession × SessionConfirmV1) := do
  validateSessionOpenWireShape message
  validateObservations observations
  validateNonce responderNonce "responder_nonce"
  .check (expectations.pairKeyGeneration ≠ 0) (.generationMismatch 1 0)
  .check (message.schema = sessionOpenSchemaV1) (.schemaMismatch message.schema)
  .check (message.teamId = expectations.teamId) (.bindingMismatch "team_id")
  .check (message.tailnetId = expectations.tailnetId) (.bindingMismatch "tailnet_id")
  .check (message.responderNodeId = expectations.responderNodeId)
    (.bindingMismatch "responder_node_id")
  .check (message.responderWorkspaceId = expectations.responderWorkspaceId)
    (.bindingMismatch "responder_workspace_id")
  .check (message.responderStableId = expectations.responderStableId)
    (.bindingMismatch "responder_stable_id")
  .check (message.initiatorNodeId = expectations.initiatorNodeId)
    (.bindingMismatch "initiator_node_id")
  .check (message.initiatorStableId = expectations.initiatorStableId)
    (.bindingMismatch "initiator_stable_id")
  .check (message.pairKeyGeneration = expectations.pairKeyGeneration)
    (.generationMismatch expectations.pairKeyGeneration message.pairKeyGeneration)
  .check (¬ (asBytes message.sessionId).isEmpty) (.bindingMismatch "session_id")
  .check (¬ ((asBytes message.initiatorWorkspaceId).isEmpty ∨
    message.initiatorWorkspaceId = message.responderWorkspaceId))
    (.bindingMismatch "initiator_workspace_id")
  let initiatorNonce ← decodeNonce message.initiatorNonce "initiator_nonce"
  .check (initiatorNonce ≠ responderNonce) (.badNonce "nonce_reuse")
  let binding := expectations.reconstruct message
  validateBindingShape binding
  let transcriptHash := sessionTranscriptHash blake3 binding initiatorNonce responderNonce
  let confirmKey := deriveConfirmKey blake3 pairKey transcriptHash
  let confirmTag := confirmationMac blake3 confirmKey transcriptHash
    expectations.pairKeyGeneration .responder observations
  let confirm : SessionConfirmV1 :=
    ⟨sessionConfirmSchemaV1, binding.sessionId, hexLower responderNonce.1,
      hexLower confirmTag.1⟩
  ensureHandshakeSize (serde.confirmMessage confirm)
  .ok (⟨binding, initiatorNonce, responderNonce, expectations.pairKeyGeneration, observations⟩,
    confirm)

/-- `ResponderPendingSession::complete`. -/
def ResponderPendingSession.complete (blake3 : Blake3) (self : ResponderPendingSession)
    (pairKey : Bytes32) (finish : SessionFinishV1) :
    Except HandshakeError EstablishedSession := do
  validateSessionFinishWireShape finish
  .check (finish.schema = sessionFinishSchemaV1) (.schemaMismatch finish.schema)
  .check (finish.sessionId = self.binding.sessionId) .sessionIdMismatch
  let transcriptHash :=
    sessionTranscriptHash blake3 self.binding self.initiatorNonce self.responderNonce
  let confirmKey := deriveConfirmKey blake3 pairKey transcriptHash
  let expectedInitiator := confirmationMac blake3 confirmKey transcriptHash
    self.pairKeyGeneration .initiator self.observations
  .check (constantTimeEqHex finish.finishMac expectedInitiator) (.confirmationFailed "initiator")
  let keys :=
    deriveSessionKeys blake3 pairKey self.binding self.initiatorNonce self.responderNonce
  .ok ⟨self.binding, keys, .new, 1⟩

/-! ## Views

What an endpoint authenticates, and the hash inputs that it makes of it. -/

/-- Everything that a confirmation MAC vouches for. -/
structure HandshakeView where
  binding : SessionBinding
  initiatorNonce : Bytes32
  responderNonce : Bytes32
  pairKeyGeneration : UInt64
  observations : HandshakeObservations
  deriving DecidableEq

/-- The view of an initiator once it knows the nonce of the responder. -/
def InitiatorHandshake.view (self : InitiatorHandshake) (responderNonce : Bytes32) :
    HandshakeView :=
  ⟨self.binding, self.initiatorNonce, responderNonce, self.pairKeyGeneration, self.observations⟩

/-- The view of a responder. -/
def ResponderPendingSession.view (self : ResponderPendingSession) : HandshakeView :=
  ⟨self.binding, self.initiatorNonce, self.responderNonce, self.pairKeyGeneration,
    self.observations⟩

namespace HandshakeView

def transcriptBytes (v : HandshakeView) : List UInt8 :=
  v.binding.transcriptBytes v.initiatorNonce v.responderNonce

def transcriptHash (blake3 : Blake3) (v : HandshakeView) : Bytes32 :=
  sessionTranscriptHash blake3 v.binding v.initiatorNonce v.responderNonce

/-- The key and the message of the confirmation MAC of a role. -/
def macInput (blake3 : Blake3) (pairKey : Bytes32) (role : HandshakeRole) (v : HandshakeView) :
    Bytes32 × List UInt8 :=
  (deriveConfirmKey blake3 pairKey (v.transcriptHash blake3),
    confirmationPreimage (v.transcriptHash blake3) v.pairKeyGeneration role v.observations)

/-- The confirmation MAC of a role. -/
def mac (blake3 : Blake3) (pairKey : Bytes32) (role : HandshakeRole) (v : HandshakeView) :
    Bytes32 :=
  blake3.keyedHash (v.macInput blake3 pairKey role).1 (v.macInput blake3 pairKey role).2

/-- The session that the view leads to. -/
def session (blake3 : Blake3) (pairKey : Bytes32) (v : HandshakeView) : EstablishedSession :=
  ⟨v.binding, deriveSessionKeys blake3 pairKey v.binding v.initiatorNonce v.responderNonce,
    .new, 1⟩

/-- The checks that both endpoints make on the texts of a view. -/
structure Valid (v : HandshakeView) : Prop where
  binding : validateBindingShape v.binding = .ok ()
  observations : validateObservations v.observations = .ok ()

/-- `blake3` is injective on the inputs that the views bring up: a 32-byte digest cannot
be injective on all strings. -/
structure CollisionFree (blake3 : Blake3) (pairKey : Bytes32) (views : Set HandshakeView) :
    Prop where
  deriveKey : Set.InjOn (blake3.deriveKey sessionTranscriptContext) (transcriptBytes '' views)
  keyedHash : Set.InjOn (fun input => blake3.keyedHash input.1 input.2)
    {input | ∃ v ∈ views, ∃ role, input = v.macInput blake3 pairKey role}

end HandshakeView

/-! ## Equal MACs, equal views -/

theorem HandshakeRole.token_injective : Function.Injective HandshakeRole.token := by
  intro a b h
  cases a <;> cases b <;> first | rfl | exact absurd h (by decide)

theorem fits_bytes32 (bytes : Bytes32) : Fits bytes.1 := by
  unfold Fits
  rw [bytes.2]
  omega

theorem fits_of_validateBindingShape {b : SessionBinding} (h : validateBindingShape b = .ok ()) :
    ∀ en ∈ b.namedFields, Fits (asBytes en.2) := by
  obtain ⟨⟨⟩, hf, -⟩ := Except.bind_eq_ok_iff.mp h
  intro en he
  have hc := List.forM_eq_ok_iff.mp hf en he
  rw [Except.check_eq_ok_iff, maxSessionBindingFieldBytes] at hc
  unfold Fits
  omega

theorem fits_of_validateObservations {os : HandshakeObservations}
    (h : validateObservations os = .ok ()) :
    Fits (asBytes os.initiatorNodePubkey) ∧ Fits (asBytes os.responderNodePubkey) := by
  have ha := List.forM_eq_ok_iff.mp h
  simp only [List.forall_mem_cons] at ha
  obtain ⟨h1, h2, -⟩ := ha
  rw [Except.check_eq_ok_iff, maxNodePubkeyBytes] at h1 h2
  unfold Fits
  omega

/-- **The transcript determines the binding and both nonces.** -/
theorem transcriptBytes_inj {b b' : SessionBinding} {ni nr ni' nr' : Bytes32}
    (hb : validateBindingShape b = .ok ()) (hb' : validateBindingShape b' = .ok ())
    (h : b.transcriptBytes ni nr = b'.transcriptBytes ni' nr') :
    b = b' ∧ ni = ni' ∧ nr = nr' := by
  have hfi : ∀ {b : SessionBinding} (ni nr : Bytes32), validateBindingShape b = .ok () →
      ∀ field ∈ b.transcriptFields ni nr, Fits field := by
    intro b ni nr hb
    have ha := fits_of_validateBindingShape hb
    have ht : Fits (asBytes sessionTranscriptTag) := by unfold Fits; decide +kernel
    simp only [SessionBinding.namedFields, List.forall_mem_cons] at ha
    obtain ⟨h1, h2, h3, h4, h5, h6, h7, h8, h9, -⟩ := ha
    simp only [SessionBinding.transcriptFields, List.forall_mem_cons]
    exact ⟨ht, h1, h2, h3, h4, h5, h6, h7, h8, h9, fits_bytes32 ni, fits_bytes32 nr, by simp⟩
  have hf := lpFields_inj (hfi ni nr hb) (hfi ni' nr' hb') h
  simp only [SessionBinding.transcriptFields, List.cons.injEq, and_true, true_and] at hf
  obtain ⟨h1, h2, h3, h4, h5, h6, h7, h8, h9, hni, hnr⟩ := hf
  refine ⟨?_, Subtype.ext hni, Subtype.ext hnr⟩
  obtain ⟨⟩ := b
  obtain ⟨⟩ := b'
  rw [SessionBinding.mk.injEq]
  exact ⟨asBytes_injective h1, asBytes_injective h2, asBytes_injective h3, asBytes_injective h4,
    asBytes_injective h5, asBytes_injective h6, asBytes_injective h7, asBytes_injective h8,
    asBytes_injective h9⟩

/-- The preimage of a confirmation MAC determines what it is made of. -/
theorem confirmationPreimage_inj {t t' : Bytes32} {g g' : UInt64} {r r' : HandshakeRole}
    {o o' : HandshakeObservations} (ho : validateObservations o = .ok ())
    (ho' : validateObservations o' = .ok ())
    (h : confirmationPreimage t g r o = confirmationPreimage t' g' r' o') :
    t = t' ∧ g = g' ∧ r = r' ∧ o = o' := by
  have hta : Fits (asBytes sessionConfirmMacTag) := by unfold Fits; decide +kernel
  have hro : ∀ ro : HandshakeRole, Fits (asBytes ro.token) := by
    intro ro
    cases ro <;> (unfold Fits; decide +kernel)
  have hge : ∀ n : UInt64, Fits (leBytes 8 n.toNat) := by
    intro n
    unfold Fits
    rw [length_leBytes]
    omega
  have hfi : ∀ (t : Bytes32) (g : UInt64) (r : HandshakeRole) {o : HandshakeObservations},
      validateObservations o = .ok () →
      ∀ field ∈ [asBytes sessionConfirmMacTag, t.1, leBytes 8 g.toNat, asBytes r.token,
        asBytes o.initiatorNodePubkey, asBytes o.responderNodePubkey], Fits field := by
    intro t g r o ho
    obtain ⟨hi, hr⟩ := fits_of_validateObservations ho
    simp only [List.forall_mem_cons]
    exact ⟨hta, fits_bytes32 t, hge g, hro r, hi, hr, by simp⟩
  have hf := lpFields_inj (hfi t g r ho) (hfi t' g' r' ho') h
  simp only [List.cons.injEq, and_true, true_and] at hf
  obtain ⟨ht, hg, hr, hi, hre⟩ := hf
  refine ⟨Subtype.ext ht, leBytes_toNat_injective hg,
    HandshakeRole.token_injective (asBytes_injective hr), ?_⟩
  obtain ⟨⟩ := o
  obtain ⟨⟩ := o'
  rw [HandshakeObservations.mk.injEq]
  exact ⟨asBytes_injective hi, asBytes_injective hre⟩

/-- **Equal confirmation MACs mean equal views and equal roles.** -/
theorem HandshakeView.eq_of_mac_eq {blake3 : Blake3} {pairKey : Bytes32}
    {vs : Set HandshakeView} (hf : CollisionFree blake3 pairKey vs)
    {v w : HandshakeView} (hv : v ∈ vs) (hw : w ∈ vs) (hvv : v.Valid) (hwv : w.Valid)
    {r r' : HandshakeRole} (h : v.mac blake3 pairKey r = w.mac blake3 pairKey r') :
    v = w ∧ r = r' := by
  have hi : v.macInput blake3 pairKey r = w.macInput blake3 pairKey r' :=
    hf.keyedHash ⟨v, hv, r, rfl⟩ ⟨w, hw, r', rfl⟩ h
  obtain ⟨hh, hg, hr, ho⟩ :=
    confirmationPreimage_inj hvv.observations hwv.observations (congrArg Prod.snd hi)
  have ht : v.transcriptBytes = w.transcriptBytes := hf.deriveKey ⟨v, hv, rfl⟩ ⟨w, hw, rfl⟩ hh
  obtain ⟨hb, hni, hnr⟩ := transcriptBytes_inj hvv.binding hwv.binding ht
  refine ⟨?_, hr⟩
  obtain ⟨⟩ := v
  obtain ⟨⟩ := w
  rw [HandshakeView.mk.injEq]
  exact ⟨hb, hni, hnr, hg, ho⟩

/-! ## What each step of the handshake establishes -/

theorem decodeNonce_inv {value field : String} {nonce : Bytes32}
    (h : decodeNonce value field = .ok nonce) :
    decodeHex32 value = some nonce ∧ validateNonce nonce field = .ok () := by
  unfold decodeNonce at h
  obtain ⟨n', hd, h⟩ := Except.bind_eq_ok_iff.mp h
  obtain ⟨⟨⟩, hv, h⟩ := Except.bind_eq_ok_iff.mp h
  cases h
  cases hh : decodeHex32 value with
  | none => simp [hh] at hd
  | some n' =>
    rw [hh] at hd
    cases hd
    exact ⟨rfl, hv⟩

theorem openSession_inv {serde : HandshakeSerde} {b : SessionBinding} {ni : Bytes32}
    {g : UInt64} {os : HandshakeObservations} {hs : InitiatorHandshake}
    {message : SessionOpenV1}
    (h : InitiatorHandshake.openSession serde b ni g os = .ok (hs, message)) :
    hs = ⟨b, ni, g, os⟩ ∧ ∀ nr, (hs.view nr).Valid := by
  unfold InitiatorHandshake.openSession at h
  obtain ⟨⟨⟩, hb, h⟩ := Except.bind_eq_ok_iff.mp h
  obtain ⟨⟨⟩, ho, h⟩ := Except.bind_eq_ok_iff.mp h
  obtain ⟨⟨⟩, -, h⟩ := Except.bind_eq_ok_iff.mp h
  obtain ⟨⟨⟩, -, h⟩ := Except.bind_eq_ok_iff.mp h
  obtain ⟨⟨⟩, -, h⟩ := Except.bind_eq_ok_iff.mp h
  cases h
  exact ⟨rfl, fun _ => ⟨hb, ho⟩⟩

/-- An accepted confirm message carries the responder MAC of the view of the initiator. -/
theorem finish_inv {serde : HandshakeSerde} {blake3 : Blake3} {hs : InitiatorHandshake}
    {pairKey : Bytes32} {c : SessionConfirmV1} {finish : SessionFinishV1}
    {session : EstablishedSession}
    (h : hs.finish serde blake3 pairKey c = .ok (finish, session)) :
    ∃ nr, decodeHex32 c.responderNonce = some nr ∧
      c.confirmMac = hexLower ((hs.view nr).mac blake3 pairKey .responder).1 ∧
      finish.finishMac = hexLower ((hs.view nr).mac blake3 pairKey .initiator).1 ∧
      session = (hs.view nr).session blake3 pairKey := by
  unfold InitiatorHandshake.finish at h
  obtain ⟨⟨⟩, -, h⟩ := Except.bind_eq_ok_iff.mp h
  obtain ⟨⟨⟩, -, h⟩ := Except.bind_eq_ok_iff.mp h
  obtain ⟨⟨⟩, -, h⟩ := Except.bind_eq_ok_iff.mp h
  obtain ⟨nr, hnr, h⟩ := Except.bind_eq_ok_iff.mp h
  obtain ⟨⟨⟩, hm, h⟩ := Except.bind_eq_ok_iff.mp h
  obtain ⟨⟨⟩, -, h⟩ := Except.bind_eq_ok_iff.mp h
  cases h
  exact ⟨nr, (decodeNonce_inv hnr).1,
    constantTimeEqHex_iff.mp (Except.check_eq_ok_iff.mp hm), rfl, rfl⟩

/-- A responder that accepts an open message answers with the responder MAC of its own
view. -/
theorem responderAcceptOpen_inv {serde : HandshakeSerde} {blake3 : Blake3}
    {message : SessionOpenV1} {expectations : ResponderExpectations} {nr pairKey : Bytes32}
    {os : HandshakeObservations} {pending : ResponderPendingSession}
    {c : SessionConfirmV1}
    (h : responderAcceptOpen serde blake3 message expectations nr os pairKey = .ok (pending, c)) :
    pending.view.Valid ∧
      c.confirmMac = hexLower (pending.view.mac blake3 pairKey .responder).1 := by
  unfold responderAcceptOpen at h
  obtain ⟨⟨⟩, -, h⟩ := Except.bind_eq_ok_iff.mp h
  obtain ⟨⟨⟩, ho, h⟩ := Except.bind_eq_ok_iff.mp h
  -- the nonce and the twelve comparisons with local knowledge
  iterate 13 obtain ⟨⟨⟩, -, h⟩ := Except.bind_eq_ok_iff.mp h
  obtain ⟨ni, -, h⟩ := Except.bind_eq_ok_iff.mp h
  obtain ⟨⟨⟩, -, h⟩ := Except.bind_eq_ok_iff.mp h
  obtain ⟨⟨⟩, hb, h⟩ := Except.bind_eq_ok_iff.mp h
  obtain ⟨⟨⟩, -, h⟩ := Except.bind_eq_ok_iff.mp h
  cases h
  exact ⟨⟨hb, ho⟩, rfl⟩

/-- An accepted finish message carries the initiator MAC of the view of the responder. -/
theorem complete_inv {blake3 : Blake3} {pending : ResponderPendingSession} {pairKey : Bytes32}
    {finish : SessionFinishV1} {session : EstablishedSession}
    (h : pending.complete blake3 pairKey finish = .ok session) :
    finish.finishMac = hexLower (pending.view.mac blake3 pairKey .initiator).1 ∧
      session = pending.view.session blake3 pairKey := by
  unfold ResponderPendingSession.complete at h
  obtain ⟨⟨⟩, -, h⟩ := Except.bind_eq_ok_iff.mp h
  obtain ⟨⟨⟩, -, h⟩ := Except.bind_eq_ok_iff.mp h
  obtain ⟨⟨⟩, -, h⟩ := Except.bind_eq_ok_iff.mp h
  obtain ⟨⟨⟩, hm, h⟩ := Except.bind_eq_ok_iff.mp h
  cases h
  exact ⟨constantTimeEqHex_iff.mp (Except.check_eq_ok_iff.mp hm), rfl⟩

/-! ## Completeness -/

/-- The expectations of a responder that knows the binding. -/
def SessionBinding.expectations (binding : SessionBinding) (pairKeyGeneration : UInt64) :
    ResponderExpectations :=
  { teamId := binding.teamId
    tailnetId := binding.tailnetId
    responderNodeId := binding.responderNodeId
    responderWorkspaceId := binding.responderWorkspaceId
    responderStableId := binding.responderStableId
    initiatorNodeId := binding.initiatorNodeId
    initiatorStableId := binding.initiatorStableId
    pairKeyGeneration }

/-- The confirm message of a view. -/
def HandshakeView.confirmMessage (blake3 : Blake3) (pairKey : Bytes32) (v : HandshakeView) :
    SessionConfirmV1 :=
  ⟨sessionConfirmSchemaV1, v.binding.sessionId, hexLower v.responderNonce.1,
    hexLower (v.mac blake3 pairKey .responder).1⟩

/-- The finish message of a view. -/
def HandshakeView.finishMessage (blake3 : Blake3) (pairKey : Bytes32) (v : HandshakeView) :
    SessionFinishV1 :=
  ⟨sessionFinishSchemaV1, v.binding.sessionId, hexLower (v.mac blake3 pairKey .initiator).1⟩

/-- The three messages of a view fit the size cap. -/
structure HandshakeView.MessagesFit (serde : HandshakeSerde) (blake3 : Blake3)
    (pairKey : Bytes32) (v : HandshakeView) : Prop where
  openMessage : ensureHandshakeSize
    (serde.openMessage (openMessage v.binding v.initiatorNonce v.pairKeyGeneration)) = .ok ()
  confirm : ensureHandshakeSize (serde.confirmMessage (v.confirmMessage blake3 pairKey)) = .ok ()
  finish : ensureHandshakeSize (serde.finishMessage (v.finishMessage blake3 pairKey)) = .ok ()

theorem validateNonce_field {nonce : Bytes32} {field f' : String}
    (h : validateNonce nonce field = .ok ()) : validateNonce nonce f' = .ok () := by
  rw [validateNonce, Except.check_eq_ok_iff] at h ⊢
  exact h

/-- A written nonce is read back. -/
theorem decodeNonce_hexLower {nonce : Bytes32} {field f' : String}
    (h : validateNonce nonce f' = .ok ()) :
    decodeNonce (hexLower nonce.1) field = .ok nonce := by
  unfold decodeNonce
  rw [decodeHex32_hexLower]
  refine Except.then_of_ok rfl ?_
  exact Except.then_of_ok (validateNonce_field h) rfl

/-- A text that is not blank is not empty. -/
theorem asBytes_ne_nil_of_trim {s : String} (h : ¬ (asBytes (trim s)).isEmpty) :
    ¬ (asBytes s).isEmpty := by
  intro he
  apply h
  have hs : s = "" := asBytes_injective (List.isEmpty_iff.mp he)
  subst hs
  decide

theorem not_empty_of_namedFields {b : SessionBinding}
    (h : validateBindingShape b = .ok ()) {en : String × String}
    (he : en ∈ b.namedFields) :
    ¬ (asBytes en.2).isEmpty ∧ (asBytes en.2).length ≤ maxSessionBindingFieldBytes := by
  obtain ⟨⟨⟩, hf, -⟩ := Except.bind_eq_ok_iff.mp h
  have hc := List.forM_eq_ok_iff.mp hf en he
  rw [Except.check_eq_ok_iff, not_or, not_lt] at hc
  exact ⟨asBytes_ne_nil_of_trim hc.1, hc.2⟩

/-- A valid session identifier passes the wire check. -/
theorem validateHandshakeSessionId_of_binding {b : SessionBinding}
    (h : validateBindingShape b = .ok ()) :
    validateHandshakeSessionId b.sessionId = .ok () := by
  have hs := not_empty_of_namedFields h
    (show ("session_id", b.sessionId) ∈ b.namedFields by
      simp [SessionBinding.namedFields])
  rw [validateHandshakeSessionId, Except.check_eq_ok_iff, not_or, not_lt]
  exact hs

theorem validateHandshakeMac_hexLower (digest : Bytes32) (field : String) :
    validateHandshakeMac (hexLower digest.1) field = .ok () := by
  rw [validateHandshakeMac, Except.check_eq_ok_iff, decodeHex32_hexLower]
  rfl

section Completeness

variable {serde : HandshakeSerde} {blake3 : Blake3} {pairKey : Bytes32} {v : HandshakeView}

theorem openSession_ok (hv : v.Valid)
    (hni : validateNonce v.initiatorNonce "initiator_nonce" = .ok ())
    (hg : v.pairKeyGeneration ≠ 0) (hf : v.MessagesFit serde blake3 pairKey) :
    InitiatorHandshake.openSession serde v.binding v.initiatorNonce v.pairKeyGeneration
        v.observations
      = .ok (⟨v.binding, v.initiatorNonce, v.pairKeyGeneration, v.observations⟩,
        openMessage v.binding v.initiatorNonce v.pairKeyGeneration) := by
  unfold InitiatorHandshake.openSession
  refine Except.then_of_ok hv.binding ?_
  refine Except.then_of_ok hv.observations ?_
  refine Except.then_of_ok hni ?_
  refine Except.check_then hg ?_
  exact Except.then_of_ok hf.openMessage rfl

theorem validateSessionOpenWireShape_ok (hv : v.Valid)
    (hni : validateNonce v.initiatorNonce "initiator_nonce" = .ok ())
    (hg : v.pairKeyGeneration ≠ 0) :
    validateSessionOpenWireShape (openMessage v.binding v.initiatorNonce v.pairKeyGeneration)
      = .ok () := by
  unfold validateSessionOpenWireShape
  refine Except.then_of_ok hv.binding ?_
  refine Except.check_then hg ?_
  exact Except.then_of_ok (decodeNonce_hexLower hni) rfl

theorem responderAcceptOpen_ok (hv : v.Valid)
    (hni : validateNonce v.initiatorNonce "initiator_nonce" = .ok ())
    (hnr : validateNonce v.responderNonce "responder_nonce" = .ok ())
    (hne : v.initiatorNonce ≠ v.responderNonce) (hg : v.pairKeyGeneration ≠ 0)
    (hf : v.MessagesFit serde blake3 pairKey) :
    responderAcceptOpen serde blake3 (openMessage v.binding v.initiatorNonce v.pairKeyGeneration)
        (v.binding.expectations v.pairKeyGeneration) v.responderNonce v.observations pairKey
      = .ok (⟨v.binding, v.initiatorNonce, v.responderNonce, v.pairKeyGeneration,
          v.observations⟩, v.confirmMessage blake3 pairKey) := by
  have hs := not_empty_of_namedFields hv.binding
    (show ("session_id", v.binding.sessionId) ∈ v.binding.namedFields by
      simp [SessionBinding.namedFields])
  have hw := not_empty_of_namedFields hv.binding
    (show ("initiator_workspace_id", v.binding.initiatorWorkspaceId) ∈ v.binding.namedFields by
      simp [SessionBinding.namedFields])
  have hd : v.binding.initiatorWorkspaceId ≠ v.binding.responderWorkspaceId := by
    obtain ⟨⟨⟩, -, hse⟩ := Except.bind_eq_ok_iff.mp hv.binding
    exact fun h => Except.check_eq_ok_iff.mp hse (.inr h)
  unfold responderAcceptOpen
  refine Except.then_of_ok (validateSessionOpenWireShape_ok hv hni hg) ?_
  refine Except.then_of_ok hv.observations ?_
  refine Except.then_of_ok hnr ?_
  refine Except.check_then hg ?_
  -- the open message claims what the expectations say
  iterate 9 refine Except.check_then rfl ?_
  refine Except.check_then hs.1 ?_
  refine Except.check_then (not_or.mpr ⟨hw.1, hd⟩) ?_
  refine Except.then_of_ok (decodeNonce_hexLower hni) ?_
  refine Except.check_then hne ?_
  refine Except.then_of_ok hv.binding ?_
  exact Except.then_of_ok hf.confirm rfl

theorem finish_ok (hv : v.Valid)
    (hnr : validateNonce v.responderNonce "responder_nonce" = .ok ())
    (hf : v.MessagesFit serde blake3 pairKey) :
    InitiatorHandshake.finish serde blake3
        ⟨v.binding, v.initiatorNonce, v.pairKeyGeneration, v.observations⟩ pairKey
        (v.confirmMessage blake3 pairKey)
      = .ok (v.finishMessage blake3 pairKey, v.session blake3 pairKey) := by
  have hs : validateSessionConfirmWireShape (v.confirmMessage blake3 pairKey) = .ok () := by
    unfold validateSessionConfirmWireShape
    refine Except.then_of_ok (validateHandshakeSessionId_of_binding hv.binding) ?_
    refine Except.then_of_ok (decodeNonce_hexLower hnr) ?_
    exact validateHandshakeMac_hexLower _ _
  unfold InitiatorHandshake.finish
  refine Except.then_of_ok hs ?_
  refine Except.check_then rfl ?_
  refine Except.check_then rfl ?_
  refine Except.then_of_ok (decodeNonce_hexLower hnr) ?_
  refine Except.check_then (constantTimeEqHex_iff.mpr rfl) ?_
  exact Except.then_of_ok hf.finish rfl

theorem complete_ok (blake3 : Blake3) (pairKey : Bytes32) (hv : v.Valid) :
    ResponderPendingSession.complete blake3
        ⟨v.binding, v.initiatorNonce, v.responderNonce, v.pairKeyGeneration, v.observations⟩
        pairKey (v.finishMessage blake3 pairKey)
      = .ok (v.session blake3 pairKey) := by
  have hs : validateSessionFinishWireShape (v.finishMessage blake3 pairKey) = .ok () := by
    unfold validateSessionFinishWireShape
    refine Except.then_of_ok (validateHandshakeSessionId_of_binding hv.binding) ?_
    exact validateHandshakeMac_hexLower _ _
  unfold ResponderPendingSession.complete
  refine Except.then_of_ok hs ?_
  refine Except.check_then rfl ?_
  refine Except.check_then rfl ?_
  exact Except.check_then (constantTimeEqHex_iff.mpr rfl) rfl

end Completeness

/-! ## Agreement -/

/-- Equal views are equal in each part. -/
theorem ResponderPendingSession.of_view_eq (pending : ResponderPendingSession)
    {b : SessionBinding} {ni nr : Bytes32} {g : UInt64}
    {os : HandshakeObservations}
    (h : (⟨b, ni, g, os⟩ : InitiatorHandshake).view nr = pending.view) :
    pending.binding = b ∧ pending.initiatorNonce = ni ∧ pending.responderNonce = nr ∧
      pending.pairKeyGeneration = g ∧ pending.observations = os := by
  simp only [InitiatorHandshake.view, ResponderPendingSession.view, HandshakeView.mk.injEq] at h
  exact ⟨h.1.symm, h.2.1.symm, h.2.2.1.symm, h.2.2.2.1.symm, h.2.2.2.2.symm⟩

/-- **The handshake is complete and agrees.**  Endpoints with one view and valid
observations establish one session.  An initiator that accepts the MAC of a responder
shares its view, a responder that accepts the MAC of an initiator shares its view, and
the MAC of a responder is never accepted in the place of the one of an initiator. -/
theorem handshake_agreement (serde : HandshakeSerde) (blake3 : Blake3) (pairKey : Bytes32) :
    (∀ (binding : SessionBinding) (generation : UInt64) (observations : HandshakeObservations)
      (ni nr : Bytes32), validateBindingShape binding = .ok () →
      validateObservations observations = .ok () → 0 < generation →
      ¬ (ni.1.all fun byte => byte == 0) → ¬ (nr.1.all fun byte => byte == 0) → ni ≠ nr →
      HandshakeView.MessagesFit serde blake3 pairKey ⟨binding, ni, nr, generation, observations⟩ →
      ∃ hs message pending confirm finish sessionI sessionR,
        InitiatorHandshake.openSession serde binding ni generation observations
          = .ok (hs, message) ∧
        responderAcceptOpen serde blake3 message (binding.expectations generation) nr observations
          pairKey = .ok (pending, confirm) ∧
        hs.finish serde blake3 pairKey confirm = .ok (finish, sessionI) ∧
        pending.complete blake3 pairKey finish = .ok sessionR ∧
        sessionI.binding = binding ∧ sessionR.binding = binding ∧
        sessionI.keys = sessionR.keys) ∧
    ∀ (binding : SessionBinding) (ni : Bytes32) (generation : UInt64)
      (observations : HandshakeObservations) (hs : InitiatorHandshake) (message : SessionOpenV1)
      (received : SessionOpenV1) (expectations : ResponderExpectations) (nr : Bytes32)
      (observed : HandshakeObservations) (pending : ResponderPendingSession)
      (confirm : SessionConfirmV1),
      InitiatorHandshake.openSession serde binding ni generation observations = .ok (hs, message) →
      responderAcceptOpen serde blake3 received expectations nr observed pairKey
        = .ok (pending, confirm) →
      (∀ accepted finish session, hs.finish serde blake3 pairKey accepted = .ok (finish, session) →
        ∀ nonce, decodeHex32 accepted.responderNonce = some nonce →
        HandshakeView.CollisionFree blake3 pairKey {hs.view nonce, pending.view} →
        (accepted.confirmMac = confirm.confirmMac → pending.binding = binding ∧
          pending.initiatorNonce = ni ∧ pending.responderNonce = nonce ∧
          pending.pairKeyGeneration = generation ∧ pending.observations = observations) ∧
        ∀ received' session', pending.complete blake3 pairKey received' = .ok session' →
          received'.finishMac = finish.finishMac → pending.binding = binding ∧
          pending.initiatorNonce = ni ∧ pending.responderNonce = nonce ∧
          pending.pairKeyGeneration = generation ∧ pending.observations = observations) ∧
      ∀ (received' : SessionOpenV1) (expectations' : ResponderExpectations) (nr' : Bytes32)
        (observed' : HandshakeObservations) (pending' : ResponderPendingSession)
        (confirm' : SessionConfirmV1),
        responderAcceptOpen serde blake3 received' expectations' nr' observed' pairKey
          = .ok (pending', confirm') →
        HandshakeView.CollisionFree blake3 pairKey {pending.view, pending'.view} →
        ∀ reflected session, reflected.finishMac = confirm'.confirmMac →
          pending.complete blake3 pairKey reflected ≠ .ok session := by
  refine ⟨?_, ?_⟩
  · intro binding generation observations ni nr hb ho hg hni hnr hne hfit
    have hv : HandshakeView.Valid ⟨binding, ni, nr, generation, observations⟩ := ⟨hb, ho⟩
    have hge : generation ≠ 0 := by
      rintro rfl
      exact absurd hg (by decide)
    have h' : validateNonce ni "initiator_nonce" = .ok () := Except.check_eq_ok_iff.mpr hni
    have hnr' : validateNonce nr "responder_nonce" = .ok () := Except.check_eq_ok_iff.mpr hnr
    have hop := openSession_ok hv h' hge hfit
    have ha := responderAcceptOpen_ok hv h' hnr' hne hge hfit
    have hf := finish_ok hv hnr' hfit
    have hc := complete_ok blake3 pairKey hv
    exact ⟨_, _, _, _, _, _, _, hop, ha, hf, hc, rfl, rfl, rfl⟩
  · intro binding ni generation observations hs message received expectations nr observed pending
      confirm hop ha
    obtain ⟨rfl, hva⟩ := openSession_inv hop
    obtain ⟨hp, hco⟩ := responderAcceptOpen_inv ha
    refine ⟨?_, ?_⟩
    · intro accepted finish session hf nonce hn hfr
      obtain ⟨n', hn', hma, hfi, -⟩ := finish_inv hf
      obtain rfl : n' = nonce := Option.some.inj (hn'.symm.trans hn)
      refine ⟨?_, ?_⟩
      · intro hsa
        have hm := hexLower_inj (hma.symm.trans (hsa.trans hco))
        obtain ⟨hvi, -⟩ := HandshakeView.eq_of_mac_eq hfr (by simp) (by simp) (hva n') hp hm
        exact pending.of_view_eq hvi
      · intro received' session' hc hsa
        obtain ⟨hre, -⟩ := complete_inv hc
        have hm := hexLower_inj (hfi.symm.trans (hsa.symm.trans hre))
        obtain ⟨hvi, -⟩ := HandshakeView.eq_of_mac_eq hfr (by simp) (by simp) (hva n') hp hm
        exact pending.of_view_eq hvi
    · intro received' expectations' nr' observed' pending' confirm' ha' hfr reflected session hsa hc
      obtain ⟨hp', hc'⟩ := responderAcceptOpen_inv ha'
      obtain ⟨hr, -⟩ := complete_inv hc
      have hm := hexLower_inj (hr.symm.trans (hsa.trans hc'))
      obtain ⟨-, hro⟩ := HandshakeView.eq_of_mac_eq hfr (by simp) (by simp) hp hp' hm
      cases hro

/-! ## The known-answer handshake -/

def katPairKey : Bytes32 :=
  digest "000102030405060708090a0b0c0d0e0f101112131415161718191a1b1c1d1e1f"

/-- The view of the known-answer handshake under some observations. -/
def katView (observations : HandshakeObservations) : HandshakeView :=
  ⟨katBinding, digest "1111111111111111111111111111111111111111111111111111111111111111",
    digest "2222222222222222222222222222222222222222222222222222222222222222", 1, observations⟩

def katObservations : HandshakeObservations :=
  ⟨"nodekey:kat-init-observed", "nodekey:kat-resp-observed"⟩

def katTranscriptHash : Bytes32 :=
  digest "1eabfe34b812d5ee51de0076ce8466fd4b7962052585a8ee6147c2a5d1fdd305"

def katConfirmKey : Bytes32 :=
  digest "6d8ed8231ad759cdb9bb6c93b32189d6857a1985fe9200d66ea537e2aedfd969"

/-- `blake3` on the inputs of the known-answer handshake. -/
def katHandshakeBlake3 : Blake3 where
  hash := katBlake3.hash
  deriveKey context material :=
    if context = sessionTranscriptContext then
      if material = (katView katObservations).transcriptBytes then katTranscriptHash
      else digest ""
    else if material = lpFields [katPairKey.1, katTranscriptHash.1] then
      if context = sessionKeyI2rContext then katKeys.initiatorToResponder
      else if context = sessionKeyR2iContext then katKeys.responderToInitiator
      else if context = sessionConfirmKeyContext then katConfirmKey
      else digest ""
    else digest ""
  keyedHash key bytes :=
    if key = katConfirmKey then
      if bytes = confirmationPreimage katTranscriptHash 1 .responder katObservations then
        digest "2068c3c915bc8340bd41fe5213ca43b26da731730f6076f3cdf6ee6453d0d530"
      else if bytes = confirmationPreimage katTranscriptHash 1 .initiator katObservations then
        digest "b1a79dedfdcd717737454c4958cf5bdf0749114f411fb05500180883b87f1e2c"
      else digest ""
    else digest ""

/-- The JSON texts of messages whose strings need no escapes. -/
def plainHandshakeSerde : HandshakeSerde where
  openMessage m := .ok <| asBytes <| Serde.Json.compact <| .object
    [("schema", .string m.schema), ("teamId", .string m.teamId),
      ("tailnetId", .string m.tailnetId), ("initiatorNodeId", .string m.initiatorNodeId),
      ("responderNodeId", .string m.responderNodeId),
      ("initiatorWorkspaceId", .string m.initiatorWorkspaceId),
      ("responderWorkspaceId", .string m.responderWorkspaceId),
      ("initiatorStableId", .string m.initiatorStableId),
      ("responderStableId", .string m.responderStableId), ("sessionId", .string m.sessionId),
      ("pairKeyGeneration", .number (toString m.pairKeyGeneration)),
      ("initiatorNonce", .string m.initiatorNonce)]
  confirmMessage m := .ok <| asBytes <| Serde.Json.compact <| .object
    [("schema", .string m.schema), ("sessionId", .string m.sessionId),
      ("responderNonce", .string m.responderNonce), ("confirmMac", .string m.confirmMac)]
  finishMessage m := .ok <| asBytes <| Serde.Json.compact <| .object
    [("schema", .string m.schema), ("sessionId", .string m.sessionId),
      ("finishMac", .string m.finishMac)]

/-- The messages of the known-answer handshake fit, whatever was observed. -/
theorem katView_messagesFit (os : HandshakeObservations)
    (h : os = katObservations ∨ os = ⟨"", ""⟩) :
    (katView os).MessagesFit plainHandshakeSerde katHandshakeBlake3 katPairKey := by
  rcases h with rfl | rfl
  · exact ⟨by decide +kernel, by decide +kernel, by decide +kernel⟩
  · exact ⟨by decide +kernel, by decide +kernel, by decide +kernel⟩

/-- The two MACs of the known-answer handshake do not collide. -/
theorem katView_collisionFree : HandshakeView.CollisionFree katHandshakeBlake3 katPairKey
      {katView katObservations, katView katObservations} := by
  have hm : (katView katObservations).mac katHandshakeBlake3 katPairKey .responder ≠
      (katView katObservations).mac katHandshakeBlake3 katPairKey .initiator := by
    decide +kernel
  refine ⟨?_, ?_⟩
  · rw [Set.pair_eq_singleton, Set.image_singleton]
    exact Set.injOn_singleton _ _
  · rintro _ ⟨v, hv, r, rfl⟩ _ ⟨w, hw, r', rfl⟩ h
    rw [Set.pair_eq_singleton, Set.mem_singleton_iff] at hv hw
    subst hv hw
    by_cases hr : r = r'
    · rw [hr]
    · cases r with
      | initiator =>
        cases r' with
        | initiator => exact absurd rfl hr
        | responder => exact absurd h.symm hm
      | responder =>
        cases r' with
        | initiator => exact absurd h hm
        | responder => exact absurd rfl hr

/-- Without observed node keys the handshake does not begin, though everything else is
as completeness asks. -/
theorem handshake_needs_observations :
    validateBindingShape (katView ⟨"", ""⟩).binding = .ok () ∧
      0 < (katView ⟨"", ""⟩).pairKeyGeneration ∧
      ¬ ((katView ⟨"", ""⟩).initiatorNonce.1.all fun byte => byte == 0) ∧
      ¬ ((katView ⟨"", ""⟩).responderNonce.1.all fun byte => byte == 0) ∧
      (katView ⟨"", ""⟩).initiatorNonce ≠ (katView ⟨"", ""⟩).responderNonce ∧
      (katView ⟨"", ""⟩).MessagesFit plainHandshakeSerde katHandshakeBlake3 katPairKey ∧
      InitiatorHandshake.openSession plainHandshakeSerde (katView ⟨"", ""⟩).binding
        (katView ⟨"", ""⟩).initiatorNonce (katView ⟨"", ""⟩).pairKeyGeneration ⟨"", ""⟩
        = .error (.invalidObservation "initiator_node_pubkey") := by
  refine ⟨by decide +kernel, by decide +kernel, by decide +kernel, by decide +kernel,
    by decide +kernel, katView_messagesFit _ (.inr rfl), by decide +kernel⟩

theorem katView_valid : (katView katObservations).Valid :=
  ⟨by decide +kernel, by decide +kernel⟩

/-- The known-answer handshake completes, and its initiator and its responder accept each
other with one view. -/
theorem handshake_agreement_kat : (∃ hs message pending confirm finish sessionI sessionR,
      InitiatorHandshake.openSession plainHandshakeSerde katBinding
        (katView katObservations).initiatorNonce 1 katObservations = .ok (hs, message) ∧
      responderAcceptOpen plainHandshakeSerde katHandshakeBlake3 message
        (katBinding.expectations 1) (katView katObservations).responderNonce katObservations
        katPairKey = .ok (pending, confirm) ∧
      hs.finish plainHandshakeSerde katHandshakeBlake3 katPairKey confirm = .ok (finish, sessionI) ∧
      pending.complete katHandshakeBlake3 katPairKey finish = .ok sessionR ∧
      sessionI.binding = katBinding ∧ sessionR.binding = katBinding ∧
      sessionI.keys = sessionR.keys) ∧
    (katView katObservations).responderNonce
      = digest "2222222222222222222222222222222222222222222222222222222222222222" := by
  obtain ⟨hc, hag⟩ := handshake_agreement plainHandshakeSerde katHandshakeBlake3 katPairKey
  have hni : validateNonce (katView katObservations).initiatorNonce "initiator_nonce" = .ok () := by
    decide +kernel
  have hnr : validateNonce (katView katObservations).responderNonce "responder_nonce" = .ok () := by
    decide +kernel
  have hf := katView_messagesFit katObservations (.inl rfl)
  refine ⟨?_, ?_⟩
  · exact hc katBinding 1 katObservations
      (katView katObservations).initiatorNonce (katView katObservations).responderNonce
      katView_valid.binding katView_valid.observations (by decide +kernel) (by decide +kernel)
      (by decide +kernel) (by decide +kernel) hf
  · have ho := openSession_ok katView_valid hni (by decide) hf
    have ha := responderAcceptOpen_ok katView_valid hni hnr (by decide +kernel) (by decide) hf
    have hfi := finish_ok katView_valid hnr hf
    exact (((hag _ _ _ _ _ _ _ _ _ _ _ _ ho ha).1 _ _ _ hfi _
      (decodeHex32_hexLower _) katView_collisionFree).1 rfl).2.2.1

end TransportSession
