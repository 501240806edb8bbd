/-
# An established session on a hostile network

Two endpoints share a binding and the directional keys.  Each signs frames with its
own counter and verifies what arrives; the network hands any byte string to either
endpoint, at any time and any number of times.  What keeps it honest is the keyed
hash: `World.macLog` holds every pair of key and preimage that an honest endpoint has
signed, in this session or in another one, and an admissible delivery carries a valid
tag only for a logged pair.  Then each side accepts a prefix of what the other signed.
-/
import EideticEngine.TransportSession

namespace TransportSession

open RustText Hex LengthPrefixed Serde

/-! ## Endpoints -/

/-- `SessionRole`. -/
inductive SessionRole where
  | initiator
  | responder
  deriving DecidableEq

def SessionRole.outboundDirection : SessionRole → SessionDirection
  | .initiator => .initiatorToResponder
  | .responder => .responderToInitiator

def SessionRole.inboundDirection : SessionRole → SessionDirection
  | .initiator => .responderToInitiator
  | .responder => .initiatorToResponder

/-- The other endpoint. -/
def SessionRole.peer : SessionRole → SessionRole
  | .initiator => .responder
  | .responder => .initiator

@[simp] theorem SessionRole.outboundDirection_peer (r : SessionRole) :
    r.peer.outboundDirection = r.inboundDirection := by
  cases r <;> rfl

theorem SessionRole.outboundDirection_injective :
    Function.Injective SessionRole.outboundDirection := by
  intro a b h
  cases a <;> cases b <;> first | rfl | cases h

theorem SessionRole.peer_ne (r : SessionRole) : r.peer ≠ r := by
  cases r <;> decide

theorem SessionRole.peer_of_ne {r ro : SessionRole} (h : r ≠ ro) : r.peer = ro := by
  cases r <;> cases ro <;> first | rfl | exact absurd rfl h

/-- `SessionMessage`. -/
structure SessionMessage where
  correlationId : String
  capability : FrameCapability
  requestedBudgetMs : UInt64
  payload : Json

/-- An endpoint of the session, with the frames it has signed and accepted so far. -/
structure Endpoint where
  established : EstablishedSession
  outboundExhausted : Bool
  negotiated : NegotiatedExtensions
  signed : List FrameV2
  accepted : List FrameV2

/-- An endpoint that has just completed the handshake. -/
def Endpoint.start (binding : SessionBinding) (keys : DirectionalSessionKeys)
    (negotiated : NegotiatedExtensions) : Endpoint :=
  ⟨⟨binding, keys, .new, 1⟩, false, negotiated, [], []⟩

/-- The draft of the next frame of an endpoint. -/
def Endpoint.draft (e : Endpoint) (role : SessionRole) (kind : FrameKind)
    (message : SessionMessage) : FrameDraft :=
  { direction := role.outboundDirection
    counter := e.established.nextOutbound
    correlationId := message.correlationId
    kind
    capability := message.capability
    requestedBudgetMs := message.requestedBudgetMs
    payload := message.payload }

/-- `send_message` up to the write: the next frame under the next counter. -/
def Endpoint.sendMessage (serde : FrameSerde) (blake3 : Blake3) (role : SessionRole)
    (kind : FrameKind) (message : SessionMessage) (e : Endpoint) :
    Except TransportSessionError (FrameV2 × Endpoint) := do
  .check (¬ e.outboundExhausted) (.replayRejected .exhausted u64Last u64Last)
  let frame ← signFrame serde blake3 e.established.binding e.established.keys
    (e.draft role kind message)
  let e' := { e with signed := e.signed ++ [frame] }
  if e.established.nextOutbound = u64Last then .ok (frame, { e' with outboundExhausted := true })
  else .ok (frame, { e' with
    established := { e.established with nextOutbound := e.established.nextOutbound + 1 } })

/-- `receive_verified` on one byte string: decode it, then verify it. -/
def Endpoint.receive (serde : FrameSerde) (blake3 : Blake3) (role : SessionRole)
    (bytes : List UInt8) (e : Endpoint) : Endpoint :=
  match decodeFrame serde bytes with
  | .error _ => e
  | .ok frame =>
    match verifyFrame serde blake3 frame e.established.binding role.inboundDirection
      e.established.keys e.negotiated e.established.inbound with
    | .ok verified inbound =>
      { e with
        established := { e.established with inbound }
        accepted := e.accepted ++ [verified.frame] }
    | .error _ inbound => { e with established := { e.established with inbound } }

/-! ## The network -/

/-- Both endpoints, and every pair of key and preimage that an honest endpoint signed. -/
structure World where
  endpoint : SessionRole → Endpoint
  macLog : List (Bytes32 × List UInt8)

def World.start (binding : SessionBinding) (keys : DirectionalSessionKeys)
    (negotiated : SessionRole → NegotiatedExtensions) : World :=
  ⟨fun role => .start binding keys (negotiated role), []⟩

/-- What may happen next: an endpoint signs a frame; the network hands a byte string
to an endpoint; an honest endpoint signs a frame in another session. -/
inductive NetworkEvent where
  | send (role : SessionRole) (kind : FrameKind) (message : SessionMessage)
  | deliver (role : SessionRole) (bytes : List UInt8)
  | elsewhere (binding : SessionBinding) (keys : DirectionalSessionKeys) (draft : FrameDraft)

def World.step (serde : FrameSerde) (blake3 : Blake3) (w : World) : NetworkEvent → World
  | .send role kind message =>
    match (w.endpoint role).sendMessage serde blake3 role kind message with
    | .error _ => w
    | .ok (frame, e) =>
      { endpoint := Function.update w.endpoint role e
        macLog := w.macLog ++
          [((w.endpoint role).established.keys.forDirection role.outboundDirection,
            frame.macPreimage)] }
  | .deliver role bytes =>
    { w with
      endpoint := Function.update w.endpoint role
        ((w.endpoint role).receive serde blake3 role bytes) }
  | .elsewhere binding keys draft =>
    match signFrame serde blake3 binding keys draft with
    | .error _ => w
    | .ok frame =>
      { w with macLog := w.macLog ++ [(keys.forDirection draft.direction, frame.macPreimage)] }

def World.run (serde : FrameSerde) (blake3 : Blake3) (w : World) (events : List NetworkEvent) :
    World :=
  events.foldl (World.step serde blake3) w

/-- Two sessions are told apart by their identifiers or by their keys. -/
def OtherSession (binding : SessionBinding) (keys : DirectionalSessionKeys)
    (binding' : SessionBinding) (keys' : DirectionalSessionKeys) : Prop :=
  binding'.sessionId ≠ binding.sessionId ∨
    ∀ direction, keys'.forDirection direction ≠ keys.forDirection direction

/-- The keyed hash is ideal at this event: a delivered frame has a valid tag only if an
honest endpoint signed its preimage under that key. -/
def IdealAt (serde : FrameSerde) (blake3 : Blake3) (binding : SessionBinding)
    (keys : DirectionalSessionKeys) (w : World) : NetworkEvent → Prop
  | .send _ _ _ => True
  | .deliver _ bytes => ∀ frame, decodeFrame serde bytes = .ok frame → ∀ direction,
      constantTimeEqHex frame.mac
        (blake3.keyedHash (keys.forDirection direction) frame.macPreimage) →
      (keys.forDirection direction, frame.macPreimage) ∈ w.macLog
  | .elsewhere binding' keys' _ => OtherSession binding keys binding' keys'

/-- The keyed hash is ideal along a run. -/
def IdealRun (serde : FrameSerde) (blake3 : Blake3) (binding : SessionBinding)
    (keys : DirectionalSessionKeys) : World → List NetworkEvent → Prop
  | _, [] => True
  | w, event :: events =>
    IdealAt serde blake3 binding keys w event ∧
      IdealRun serde blake3 binding keys (w.step serde blake3 event) events

/-- The payload bytes that an event brings up. -/
def NetworkEvent.payloads (serde : FrameSerde) : NetworkEvent → Set (List UInt8)
  | .send _ _ message => {bytes | serde.toVec message.payload = .ok bytes}
  | .deliver _ encoded =>
    {bytes | ∃ frame, decodeFrame serde encoded = .ok frame ∧
      serde.toVec frame.payload = .ok bytes}
  | .elsewhere _ _ draft => {bytes | serde.toVec draft.payload = .ok bytes}

/-- A frame with its capability replaced by the token that stands for it. -/
def FrameV2.byToken (frame : FrameV2) : FrameV2 :=
  { frame with capability := .extension frame.capability.token }

/-! ## Authentic frames with one preimage -/

/-- **Authentic frames of one session with the same preimage are the same frame**, up to
how the capability is spelled, when their payloads do not collide. -/
theorem FrameV2.Authentic.byToken_eq {serde : FrameSerde} {blake3 : Blake3}
    {binding : SessionBinding} {keys : DirectionalSessionKeys} {dir : SessionDirection}
    {f g : FrameV2} (hf : f.Authentic serde blake3 binding keys dir)
    (hg : g.Authentic serde blake3 binding keys dir) (hpr : f.macPreimage = g.macPreimage)
    (hpri : ∀ v w bytes, serde.toVec v = .ok bytes → serde.toVec w = .ok bytes → v = w)
    (hh : ∀ a b, serde.toVec f.payload = .ok a → serde.toVec g.payload = .ok b →
      blake3.hash a = blake3.hash b → a = b) : f.byToken = g.byToken := by
  have hs := macPreimage_inj hf.shaped hg.shaped hpr
  obtain ⟨a, ha, hfa⟩ := hf.payload
  obtain ⟨b, hb, hgb⟩ := hg.payload
  -- the preimage carries the decoded payload hashes
  have hd : blake3.hash a = blake3.hash b := by
    have h := hs.payloadHash
    rw [hfa, hgb, decodeHex32_hexLower, decodeHex32_hexLower] at h
    exact Subtype.ext h
  have hab : a = b := hh a b ha hb hd
  have hpa : f.payload = g.payload := hpri _ _ a ha (hab ▸ hb)
  have hp : f.payloadHash = g.payloadHash := by rw [hfa, hgb, hab]
  have hm : f.mac = g.mac := by rw [hf.mac, hg.mac, hpr]
  obtain ⟨⟩ := f
  obtain ⟨⟩ := g
  simp only [FrameV2.byToken, FrameV2.mk.injEq, FrameCapability.extension.injEq]
  exact ⟨hs.schema, hs.sourceNodeId, hs.targetNodeId, hs.teamId,
    hs.sourceWorkspaceId, hs.targetWorkspaceId, hs.sessionId, hs.direction,
    hs.counter, hs.correlationId, hs.kind, hs.capability, hs.requestedBudgetMs,
    hpa, hp, hm⟩

/-! ## The invariant -/

/-- A logged pair that was signed in another session. -/
def SignedElsewhere (serde : FrameSerde) (blake3 : Blake3) (binding : SessionBinding)
    (keys : DirectionalSessionKeys) (entry : Bytes32 × List UInt8) : Prop :=
  ∃ binding' keys' draft frame, OtherSession binding keys binding' keys' ∧
    signFrame serde blake3 binding' keys' draft = .ok frame ∧
    entry = (keys'.forDirection draft.direction, frame.macPreimage)

/-- What one endpoint keeps: its counters are those of the frames it has signed and
accepted. -/
structure Endpoint.Inv (serde : FrameSerde) (blake3 : Blake3) (binding : SessionBinding)
    (keys : DirectionalSessionKeys) (payloads : Set (List UInt8)) (role : SessionRole)
    (e : Endpoint) : Prop where
  binding_eq : e.established.binding = binding
  keys_eq : e.established.keys = keys
  counters : (e.signed.map fun frame => frame.counter.toNat) = List.range' 1 e.signed.length
  outbound : e.outboundExhausted = false →
    e.established.nextOutbound.toNat = e.signed.length + 1
  authentic : ∀ frame ∈ e.signed,
    frame.Authentic serde blake3 binding keys role.outboundDirection
  payloads_mem : ∀ frame ∈ e.signed, ∀ bytes, serde.toVec frame.payload = .ok bytes →
    bytes ∈ payloads
  inbound : e.established.inbound.exhausted = false →
    e.established.inbound.next.toNat = e.accepted.length + 1

/-- What holds in every world that an ideal run reaches. -/
structure World.Inv (serde : FrameSerde) (blake3 : Blake3) (binding : SessionBinding)
    (keys : DirectionalSessionKeys) (payloads : Set (List UInt8)) (w : World) : Prop where
  endpoint : ∀ role, (w.endpoint role).Inv serde blake3 binding keys payloads role
  logged : ∀ entry ∈ w.macLog,
    (∃ role, ∃ frame ∈ (w.endpoint role).signed,
      entry = (keys.forDirection role.outboundDirection, frame.macPreimage)) ∨
    SignedElsewhere serde blake3 binding keys entry
  delivered : ∀ role, (w.endpoint role).accepted.map FrameV2.byToken <+:
    (w.endpoint role.peer).signed.map FrameV2.byToken

section Runs

variable {serde : FrameSerde} {blake3 : Blake3} {binding : SessionBinding}
  {keys : DirectionalSessionKeys} {payloads : Set (List UInt8)} {w : World}

/-- The invariant holds before the first frame. -/
theorem World.inv_start (negotiated : SessionRole → NegotiatedExtensions) :
    (World.start binding keys negotiated).Inv serde blake3 binding keys payloads where
  endpoint role :=
    { binding_eq := rfl
      keys_eq := rfl
      counters := rfl
      outbound := fun _ => rfl
      authentic := by simp [World.start, Endpoint.start]
      payloads_mem := by simp [World.start, Endpoint.start]
      inbound := fun _ => rfl }
  logged := by simp [World.start]
  delivered role := by simp [World.start, Endpoint.start]

/-! ## Signing the next frame -/

/-- What a successful `sendMessage` does. -/
theorem Endpoint.sendMessage_inv {r : SessionRole} {kind : FrameKind}
    {message : SessionMessage} {e e' : Endpoint} {f : FrameV2}
    (h : e.sendMessage serde blake3 r kind message = .ok (f, e')) :
    e.outboundExhausted = false ∧ signFrame serde blake3 e.established.binding e.established.keys
        (e.draft r kind message) = .ok f ∧
      e'.signed = e.signed ++ [f] ∧ e'.accepted = e.accepted ∧
      e'.established.binding = e.established.binding ∧
      e'.established.keys = e.established.keys ∧
      e'.established.inbound = e.established.inbound ∧
      (e'.outboundExhausted = false →
        e'.established.nextOutbound.toNat = e.established.nextOutbound.toNat + 1) := by
  unfold Endpoint.sendMessage at h
  obtain ⟨⟨⟩, hex, h⟩ := Except.bind_eq_ok_iff.mp h
  obtain ⟨f', hs, h⟩ := Except.bind_eq_ok_iff.mp h
  rw [Except.check_eq_ok_iff] at hex
  split at h
  next hl =>
    cases h
    exact ⟨by simpa using hex, hs, rfl, rfl, rfl, rfl, rfl, by simp⟩
  next hl =>
    cases h
    refine ⟨by simpa using hex, hs, rfl, rfl, rfl, rfl, rfl, fun _ => ?_⟩
    exact toNat_add_one_of_ne_last hl

/-- Signing the next frame keeps the invariant of the endpoint. -/
theorem Endpoint.Inv.sendMessage {role : SessionRole} {kind : FrameKind}
    {message : SessionMessage} {e e' : Endpoint} {frame : FrameV2}
    (hinv : e.Inv serde blake3 binding keys payloads role)
    (hpayload : {bytes | serde.toVec message.payload = .ok bytes} ⊆ payloads)
    (h : e.sendMessage serde blake3 role kind message = .ok (frame, e')) :
    e'.Inv serde blake3 binding keys payloads role := by
  obtain ⟨hex, hsign, hsigned, haccepted, hb, hk, hin, hnext⟩ := Endpoint.sendMessage_inv h
  rw [hinv.binding_eq, hinv.keys_eq] at hsign
  have hauth := signFrame_authentic hsign
  obtain ⟨-, -, -, bytes, -, hframe⟩ := signFrame_inv hsign
  have hcounter : frame.counter = e.established.nextOutbound := by rw [hframe]; rfl
  have hpay : frame.payload = message.payload := by rw [hframe]; rfl
  have hout := hinv.outbound hex
  refine
    { binding_eq := hb.trans hinv.binding_eq
      keys_eq := hk.trans hinv.keys_eq
      counters := ?_
      outbound := ?_
      authentic := ?_
      payloads_mem := ?_
      inbound := ?_ }
  · rw [hsigned, List.map_append, hinv.counters, List.length_append, List.length_singleton,
      List.range'_1_concat, List.map_singleton, hcounter, hout, Nat.add_comm]
  · intro hex'
    rw [hnext hex', hout, hsigned, List.length_append, List.length_singleton]
  · intro f hf
    rw [hsigned, List.mem_append, List.mem_singleton] at hf
    rcases hf with hf | rfl
    · exact hinv.authentic f hf
    · exact hauth
  · intro f hf b hfb
    rw [hsigned, List.mem_append, List.mem_singleton] at hf
    rcases hf with hf | rfl
    · exact hinv.payloads_mem f hf b hfb
    · exact hpayload (hpay ▸ hfb)
  · rw [hin, haccepted]
    exact hinv.inbound

/-! ## Receiving a byte string -/

/-- What `receive` does: nothing but perhaps close the ledger, or accept an authentic
frame under the expected counter. -/
theorem Endpoint.receive_cases (serde : FrameSerde) (blake3 : Blake3) (r : SessionRole)
    (en : List UInt8) {e : Endpoint} (hb : e.established.binding = binding)
    (hk : e.established.keys = keys) :
    (∃ inbound, e.receive serde blake3 r en
        = { e with established := { e.established with inbound } } ∧
      inbound.next = e.established.inbound.next ∧
      inbound.exhausted = e.established.inbound.exhausted) ∨
    ∃ f inbound, decodeFrame serde en = .ok f ∧
      f.Authentic serde blake3 binding keys r.inboundDirection ∧
      SessionCounters.accept f.counter e.established.inbound = .ok () inbound ∧
      e.receive serde blake3 r en = { e with
            established := { e.established with inbound }
            accepted := e.accepted ++ [f] } := by
  subst hb hk
  unfold Endpoint.receive
  cases hd : decodeFrame serde en with
  | error err => exact .inl ⟨e.established.inbound, rfl, rfl, rfl⟩
  | ok f =>
    simp only
    cases hv : verifyFrame serde blake3 f e.established.binding r.inboundDirection
        e.established.keys e.negotiated e.established.inbound with
    | ok v inbound =>
      obtain ⟨hf, hau, ha⟩ := verifyFrame_inv hv
      right
      exact ⟨f, inbound, rfl, hau, ha, by simp only [hf]⟩
    | error err inbound =>
      obtain ⟨-, hn, he⟩ := verifyFrame_failsWithin _ _ _ _ _ _ _ _ _ _ hv
      exact .inl ⟨inbound, rfl, hn, he⟩

/-- Receiving keeps the invariant of the endpoint. -/
theorem Endpoint.Inv.receive {r : SessionRole} {e : Endpoint}
    (hi : e.Inv serde blake3 binding keys payloads r) (en : List UInt8) :
    (e.receive serde blake3 r en).Inv serde blake3 binding keys payloads r := by
  rcases e.receive_cases serde blake3 r en hi.binding_eq hi.keys_eq with
    ⟨inbound, heq, hn, he⟩ | ⟨f, inbound, -, -, ha, heq⟩
  · rw [heq]
    refine { hi with inbound := ?_ }
    intro hex
    rw [hn]
    exact hi.inbound (he ▸ hex)
  · rw [heq]
    obtain ⟨hex, -, hn⟩ := accept_inv ha
    refine { hi with inbound := ?_ }
    intro h'
    rw [hn h', hi.inbound hex, List.length_append, List.length_singleton]

theorem Endpoint.receive_signed {r : SessionRole} {e : Endpoint} (en : List UInt8) :
    (e.receive serde blake3 r en).signed = e.signed := by
  rcases e.receive_cases serde blake3 r en rfl rfl with
    ⟨inbound, heq, -⟩ | ⟨f, inbound, -, -, -, heq⟩ <;> rw [heq]

/-! ## What an accepted frame is -/

/-- A frame that verifies with a logged tag was signed by the peer in this session. -/
theorem World.Inv.signed_of_logged (hi : w.Inv serde blake3 binding keys payloads)
    {r : SessionRole} {f : FrameV2}
    (ha : f.Authentic serde blake3 binding keys r.inboundDirection)
    (hl : (keys.forDirection r.inboundDirection, f.macPreimage) ∈ w.macLog) :
    ∃ g ∈ (w.endpoint r.peer).signed, f.macPreimage = g.macPreimage := by
  rcases hi.logged _ hl with
    ⟨r', g, hg, he⟩ | ⟨b', k', draft, g, ho, hsi, he⟩
  · obtain ⟨-, hp⟩ := Prod.mk.injEq _ _ _ _ ▸ he
    have hga := (hi.endpoint r').authentic g hg
    have hd : r'.outboundDirection = r.peer.outboundDirection := by
      rw [SessionRole.outboundDirection_peer, ← hga.direction, ← ha.direction]
      exact (macPreimage_inj ha.shaped hga.shaped hp).direction.symm
    rw [SessionRole.outboundDirection_injective hd] at hg
    exact ⟨g, hg, hp⟩
  · -- a frame of another session differs in its session identifier or in its key
    obtain ⟨hke, hp⟩ := Prod.mk.injEq _ _ _ _ ▸ he
    have hga := signFrame_authentic hsi
    have hsa := macPreimage_inj ha.shaped hga.shaped hp
    rcases ho with hs | hk
    · exact absurd (by rw [← hga.sessionId, ← ha.sessionId, hsa.sessionId]) hs
    · have hd : draft.direction = r.inboundDirection := by
        rw [← hga.direction, ← ha.direction, hsa.direction]
      exact absurd (hd ▸ hke.symm) (hk _)

/-- The element after a prefix extends it. -/
theorem prefix_concat_of_getElem? {α : Type} {l m : List α} {x : α} (h : l <+: m)
    (hx : m[l.length]? = some x) : l ++ [x] <+: m := by
  obtain ⟨t, rfl⟩ := h
  rw [List.getElem?_append_right (Nat.le_refl _), Nat.sub_self] at hx
  cases t with
  | nil => cases hx
  | cons y t =>
    cases hx
    exact ⟨t, by simp⟩

/-- A signed frame stands at the place that its counter names. -/
theorem Endpoint.Inv.getElem?_signed {e : Endpoint} {r : SessionRole}
    (hinv : e.Inv serde blake3 binding keys payloads r) {g : FrameV2} (hg : g ∈ e.signed)
    {n : ℕ} (hn : g.counter.toNat = n + 1) : e.signed[n]? = some g := by
  obtain ⟨i, hi, hgi⟩ := List.mem_iff_getElem.mp hg
  have hc : (e.signed.map fun f => f.counter.toNat)[i]? = some (n + 1) := by
    rw [List.getElem?_map, List.getElem?_eq_getElem hi, hgi, Option.map_some, hn]
  rw [hinv.counters, List.getElem?_range' hi] at hc
  have hin : i = n := by
    have := Option.some.inj hc
    omega
  rw [← hin, List.getElem?_eq_getElem hi, hgi]

/-- **The next accepted frame is the next frame that the peer signed.** -/
theorem World.Inv.accepted_next (hi : w.Inv serde blake3 binding keys payloads)
    (hpri : ∀ v w bytes, serde.toVec v = .ok bytes → serde.toVec w = .ok bytes → v = w)
    (hh : Set.InjOn blake3.hash payloads) {r : SessionRole} {en : List UInt8}
    {f : FrameV2} {inbound : SessionCounters}
    (hpa : (NetworkEvent.deliver r en).payloads serde ⊆ payloads)
    (hid : IdealAt serde blake3 binding keys w (.deliver r en))
    (hd : decodeFrame serde en = .ok f)
    (hau : f.Authentic serde blake3 binding keys r.inboundDirection)
    (hac : SessionCounters.accept f.counter (w.endpoint r).established.inbound = .ok () inbound) :
    ((w.endpoint r).accepted ++ [f]).map FrameV2.byToken <+:
      (w.endpoint r.peer).signed.map FrameV2.byToken := by
  have hl := hid f hd r.inboundDirection (constantTimeEqHex_iff.mpr hau.mac)
  obtain ⟨g, hg, hpr⟩ := hi.signed_of_logged hau hl
  have hp := hi.endpoint r.peer
  have hga := hp.authentic g hg
  rw [SessionRole.outboundDirection_peer] at hga
  have hs := macPreimage_inj hau.shaped hga.shaped hpr
  have hby : f.byToken = g.byToken := by
    refine hau.byToken_eq hga hpr hpri ?_
    intro a b ha hb hab
    exact hh (hpa ⟨f, hd, ha⟩) (hp.payloads_mem g hg b hb) hab
  obtain ⟨hex, hn, -⟩ := accept_inv hac
  have hc : g.counter.toNat = (w.endpoint r).accepted.length + 1 := by
    rw [← hs.counter, hn, (hi.endpoint r).inbound hex]
  rw [List.map_append, List.map_singleton]
  apply prefix_concat_of_getElem? (hi.delivered r)
  rw [List.length_map, List.getElem?_map, hp.getElem?_signed hg hc, Option.map_some, hby]

/-! ## Steps and runs -/

/-- Replacing one endpoint keeps the invariant when the frames it signed only grow, what
it accepted is still a prefix, and the log gains entries of this endpoint only. -/
theorem World.Inv.update (hinv : w.Inv serde blake3 binding keys payloads) {role : SessionRole}
    {e : Endpoint} (extra : List (Bytes32 × List UInt8))
    (he : e.Inv serde blake3 binding keys payloads role)
    (hsigned : (w.endpoint role).signed <+: e.signed)
    (hextra : ∀ entry ∈ extra, ∃ frame ∈ e.signed,
      entry = (keys.forDirection role.outboundDirection, frame.macPreimage))
    (hdelivered : e.accepted.map FrameV2.byToken <+:
      (w.endpoint role.peer).signed.map FrameV2.byToken) :
    World.Inv serde blake3 binding keys payloads
      ⟨Function.update w.endpoint role e, w.macLog ++ extra⟩ := by
  refine
    { endpoint := ?_
      logged := ?_
      delivered := ?_ }
  · intro r
    by_cases hr : r = role
    · subst hr
      simpa only [Function.update_self] using he
    · simpa only [Function.update_of_ne hr] using hinv.endpoint r
  · intro entry hentry
    rcases List.mem_append.mp hentry with hmem | hmem
    · rcases hinv.logged entry hmem with ⟨r, g, hg, heq⟩ | helse
      · refine .inl ⟨r, g, ?_, heq⟩
        by_cases hr : r = role
        · subst hr
          simpa only [Function.update_self] using hsigned.subset hg
        · simpa only [Function.update_of_ne hr] using hg
      · exact .inr helse
    · obtain ⟨frame, hframe, heq⟩ := hextra entry hmem
      exact .inl ⟨role, frame, by simpa only [Function.update_self] using hframe, heq⟩
  · intro r
    by_cases hr : r = role
    · subst hr
      simp only [Function.update_self, Function.update_of_ne r.peer_ne]
      exact hdelivered
    · -- the other endpoint receives from the one that was replaced
      have hpeer : r.peer = role := SessionRole.peer_of_ne hr
      simp only [Function.update_of_ne hr, hpeer, Function.update_self]
      have h := hinv.delivered r
      rw [hpeer] at h
      exact h.trans (hsigned.map _)

/-- Signing a frame keeps the invariant. -/
theorem World.Inv.step_send (hi : w.Inv serde blake3 binding keys payloads)
    {r : SessionRole} {kind : FrameKind} {message : SessionMessage}
    (hp : (NetworkEvent.send r kind message).payloads serde ⊆ payloads) :
    (w.step serde blake3 (.send r kind message)).Inv serde blake3 binding keys payloads := by
  simp only [World.step]
  cases hse : (w.endpoint r).sendMessage serde blake3 r kind message with
  | error err => exact hi
  | ok re =>
    obtain ⟨f, e⟩ := re
    obtain ⟨-, -, hs, ha, -, -, -, -⟩ := Endpoint.sendMessage_inv hse
    refine hi.update _ ((hi.endpoint r).sendMessage hp hse) ?_ ?_ ?_
    · rw [hs]
      exact List.prefix_append _ _
    · intro en he
      rw [List.mem_singleton] at he
      refine ⟨f, by simp [hs], ?_⟩
      rw [he, (hi.endpoint r).keys_eq]
    · rw [ha]
      exact hi.delivered r

/-- Whatever the network delivers, the invariant is kept while the keyed hash is ideal. -/
theorem World.Inv.step_deliver (hi : w.Inv serde blake3 binding keys payloads)
    (hpr : ∀ v w bytes, serde.toVec v = .ok bytes → serde.toVec w = .ok bytes → v = w)
    (hh : Set.InjOn blake3.hash payloads) {r : SessionRole} {en : List UInt8}
    (hp : (NetworkEvent.deliver r en).payloads serde ⊆ payloads)
    (hid : IdealAt serde blake3 binding keys w (.deliver r en)) :
    (w.step serde blake3 (.deliver r en)).Inv serde blake3 binding keys payloads := by
  have hu := hi.update [] ((hi.endpoint r).receive en)
  simp only [Endpoint.receive_signed, List.append_nil] at hu
  refine hu List.prefix_rfl (by simp) ?_
  rcases (w.endpoint r).receive_cases serde blake3 r en
    (hi.endpoint r).binding_eq (hi.endpoint r).keys_eq with
    ⟨inbound, heq, -, -⟩ | ⟨frame, inbound, hdec, hauth, haccept, heq⟩
  · rw [heq]
    exact hi.delivered r
  · rw [heq]
    exact hi.accepted_next hpr hh hp hid hdec hauth haccept

/-- A frame signed in another session keeps the invariant. -/
theorem World.Inv.step_elsewhere (hi : w.Inv serde blake3 binding keys payloads)
    {b' : SessionBinding} {k' : DirectionalSessionKeys} {draft : FrameDraft}
    (ho : OtherSession binding keys b' k') :
    (w.step serde blake3 (.elsewhere b' k' draft)).Inv serde blake3 binding keys
      payloads := by
  simp only [World.step]
  cases hs : signFrame serde blake3 b' k' draft with
  | error err => exact hi
  | ok f =>
    refine { hi with logged := ?_ }
    intro en he
    rcases List.mem_append.mp he with hm | hm
    · exact hi.logged en hm
    · rw [List.mem_singleton] at hm
      exact .inr ⟨b', k', draft, f, ho, hs, hm⟩

/-- Every event of an ideal run keeps the invariant. -/
theorem World.Inv.step (hin : w.Inv serde blake3 binding keys payloads)
    (hpr : ∀ v w bytes, serde.toVec v = .ok bytes → serde.toVec w = .ok bytes → v = w)
    (hh : Set.InjOn blake3.hash payloads) {event : NetworkEvent}
    (hp : event.payloads serde ⊆ payloads)
    (hi : IdealAt serde blake3 binding keys w event) :
    (w.step serde blake3 event).Inv serde blake3 binding keys payloads := by
  cases event with
  | send r kind message => exact hin.step_send hp
  | deliver r en => exact hin.step_deliver hpr hh hp hi
  | elsewhere b' k' draft => exact hin.step_elsewhere hi

/-- Every ideal run keeps the invariant. -/
theorem World.Inv.run
    (hpr : ∀ v w bytes, serde.toVec v = .ok bytes → serde.toVec w = .ok bytes → v = w)
    (hh : Set.InjOn blake3.hash payloads) :
    ∀ (es : List NetworkEvent) {w : World}, w.Inv serde blake3 binding keys payloads →
      (∀ event ∈ es, event.payloads serde ⊆ payloads) →
      IdealRun serde blake3 binding keys w es →
      (w.run serde blake3 es).Inv serde blake3 binding keys payloads := by
  intro es
  induction es with
  | nil => intro w hin _ _; exact hin
  | cons event es ih =>
    intro w hin hp hi
    rw [List.forall_mem_cons] at hp
    exact ih (hin.step hpr hh hp.1 hi.1) hp.2 hi.2

end Runs

/-- **An authenticated session delivers a prefix.**  On every network, as long as the
keyed hash is ideal and the payloads that come up do not collide, the frames that an
endpoint accepts are a prefix of the frames that its peer signed in that direction with
the counters 1, 2, 3 and so on; and a frame that is rejected for anything but its
counter leaves the ledger as it was. -/
theorem accepted_prefix_signed (serde : FrameSerde) (blake3 : Blake3)
    (hprint : ∀ v w bytes, serde.toVec v = .ok bytes → serde.toVec w = .ok bytes → v = w)
    (binding : SessionBinding) (keys : DirectionalSessionKeys)
    (negotiated : SessionRole → NegotiatedExtensions) (events : List NetworkEvent)
    (hideal : IdealRun serde blake3 binding keys (.start binding keys negotiated) events)
    (hhash : Set.InjOn blake3.hash (⋃ event ∈ events, event.payloads serde)) :
    (∀ role, let w := (World.start binding keys negotiated).run serde blake3 events
      (w.endpoint role).accepted.map FrameV2.byToken <+:
          (w.endpoint role.peer).signed.map FrameV2.byToken ∧
        (∀ frame ∈ (w.endpoint role.peer).signed, frame.direction = role.inboundDirection) ∧
        ((w.endpoint role.peer).signed.map fun frame => frame.counter.toNat)
          = List.range' 1 (w.endpoint role.peer).signed.length) ∧
    ∀ frame direction extensions counters error counters',
      verifyFrame serde blake3 frame binding direction keys extensions counters
        = .error error counters' →
      error.degradedCode ≠ "mesh_frame_replay_rejected" → counters' = counters := by
  refine ⟨?_, ?_⟩
  · intro role w
    have hi := World.Inv.run hprint hhash events (World.inv_start negotiated)
      (fun event hm => Set.subset_biUnion_of_mem hm) hideal
    have hp := hi.endpoint role.peer
    refine ⟨hi.delivered role, ?_, hp.counters⟩
    intro frame hf
    rw [(hp.authentic frame hf).direction, SessionRole.outboundDirection_peer]
  · intro frame direction extensions counters error counters' h he
    exact (verifyFrame_failsWithin _ _ _ _ _ _ _ _ _ _ h).1 he

/-- The wire form of the known-answer frame. -/
def katBytes : List UInt8 := asBytes <|
  "\x7b\"schema\":\"ee.mesh.tailscale_transport_frame.v2\",\"sourceNodeId\":\"node-init\","
    ++ "\"targetNodeId\":\"node-resp\",\"teamId\":\"team-kat\",\"sourceWorkspaceId\":\"ws-init\","
    ++ "\"targetWorkspaceId\":\"ws-resp\",\"sessionId\":\"sess-0001\","
    ++ "\"direction\":\"initiator_to_responder\",\"counter\":1,\"correlationId\":\"corr-0001\","
    ++ "\"kind\":\"request\",\"capability\":\"hello\",\"requestedBudgetMs\":30000,"
    ++ "\"payload\":\x7b\x7d,"
    ++ "\"payloadHash\":\"6e46dd10defc9b56c29a6ec56b508c21f54c08192194e4df25bf36f0c9c3c279\","
    ++ "\"mac\":\"a139a76c75b6272f52e3b143f483e018889f3dd5c9e456974950a55e35863c82\"\x7d"

/-- The codec on the known-answer frame and on the empty object. -/
def katSerde : FrameSerde where
  print
    | .object [] => .ok "\x7b\x7d"
    | _ => .error "value"
  parse _ := .error "text"
  schemaProbe bytes :=
    if bytes = katBytes then .ok transportFrameSchemaV2 else .error "expected value"
  frame bytes := if bytes = katBytes then .ok katFrame else .error "expected value"

/-- The initiator signs a frame; the network delivers it, reflects it and repeats it. -/
def katEvents : List NetworkEvent :=
  [.send .initiator .request ⟨"corr-0001", .hello, 30000, .object []⟩,
    .deliver .responder katBytes, .deliver .initiator katBytes, .deliver .responder katBytes]

theorem katSerde_toVec {v : Json} {bytes : List UInt8} (h : katSerde.toVec v = .ok bytes) :
    v = .object [] := by
  obtain ⟨text, ht, -⟩ := Except.map_eq_ok_iff.mp h
  unfold katSerde at ht
  simp only at ht
  split at ht
  · rfl
  · cases ht

theorem decodeFrame_katBytes {f : FrameV2} (h : decodeFrame katSerde katBytes = .ok f) :
    f = katFrame := by
  unfold decodeFrame at h
  obtain ⟨⟨⟩, -, h⟩ := Except.bind_eq_ok_iff.mp h
  obtain ⟨schema, -, h⟩ := Except.bind_eq_ok_iff.mp h
  obtain ⟨⟨⟩, -, h⟩ := Except.bind_eq_ok_iff.mp h
  obtain ⟨⟨⟩, -, h⟩ := Except.bind_eq_ok_iff.mp h
  obtain ⟨f', hf, h⟩ := Except.bind_eq_ok_iff.mp h
  obtain ⟨⟨⟩, -, h⟩ := Except.bind_eq_ok_iff.mp h
  cases h
  have := Except.mapError_eq_ok_iff.mp hf
  simp only [katSerde, ↓reduceIte, Except.ok.injEq] at this
  exact this.symm

/-- The tag of the known-answer frame is valid under the key of its direction only. -/
theorem katFrame_tag {d : SessionDirection} (h : constantTimeEqHex katFrame.mac
      (katBlake3.keyedHash (katKeys.forDirection d) katFrame.macPreimage) = true) :
    d = .initiatorToResponder := by
  revert h
  cases d
  · intro _
    rfl
  · decide +kernel

/-- The world that the run of the known-answer frame reaches. -/
def katWorld : World :=
  (World.start katBinding katKeys fun _ => ⟨[]⟩).run katSerde katBlake3 katEvents

theorem katEvents_ideal : IdealRun katSerde katBlake3 katBinding katKeys
      (.start katBinding katKeys fun _ => ⟨[]⟩) katEvents := by
  have hl : (katKeys.forDirection .initiatorToResponder, katFrame.macPreimage) ∈
      ((World.start katBinding katKeys fun _ => ⟨[]⟩).step katSerde katBlake3
        (.send .initiator .request ⟨"corr-0001", .hello, 30000, .object []⟩)).macLog := by
    decide +kernel
  have hd : ∀ f, decodeFrame katSerde katBytes = .ok f → ∀ d, constantTimeEqHex f.mac
        (katBlake3.keyedHash (katKeys.forDirection d) f.macPreimage) →
      (katKeys.forDirection d, f.macPreimage) ∈
        ((World.start katBinding katKeys fun _ => ⟨[]⟩).step katSerde katBlake3
          (.send .initiator .request ⟨"corr-0001", .hello, 30000, .object []⟩)).macLog := by
    intro f hf d ht
    rw [decodeFrame_katBytes hf] at ht ⊢
    rw [katFrame_tag ht]
    exact hl
  exact ⟨trivial, hd, hd, hd, trivial⟩

/-- Every payload of the run is the empty object. -/
theorem katEvents_payloads {event : NetworkEvent} {bytes : List UInt8}
    (h : bytes ∈ event.payloads katSerde) : katSerde.toVec (.object []) = .ok bytes := by
  cases event with
  | send r kind message => exact katSerde_toVec h ▸ h
  | deliver r en =>
    obtain ⟨f, -, hf⟩ := h
    exact katSerde_toVec hf ▸ hf
  | elsewhere binding keys draft => exact katSerde_toVec h ▸ h

/-- The known-answer frame is accepted once; the reflected and the repeated copy are
not. -/
theorem accepted_prefix_signed_kat :
    (katWorld.endpoint .responder).accepted.length = 1 ∧
      (katWorld.endpoint .initiator).accepted.length = 0 ∧
      (katWorld.endpoint .responder).accepted.map FrameV2.byToken <+:
        (katWorld.endpoint .initiator).signed.map FrameV2.byToken := by
  refine ⟨by decide +kernel, by decide +kernel, ?_⟩
  refine ((accepted_prefix_signed katSerde katBlake3 ?_ katBinding katKeys (fun _ => ⟨[]⟩)
    katEvents katEvents_ideal ?_).1 .responder).1
  · intro v w bytes hv hw
    rw [katSerde_toVec hv, katSerde_toVec hw]
  · intro a ha b hb _
    simp only [Set.mem_iUnion] at ha hb
    obtain ⟨_, _, ha⟩ := ha
    obtain ⟨_, _, hb⟩ := hb
    have hab := (katEvents_payloads ha).symm.trans (katEvents_payloads hb)
    exact Except.ok.inj hab

end TransportSession
