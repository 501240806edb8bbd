/-
# Requests and responses of a session (`src/mesh/transport_session.rs`)

An `AuthenticatedTransportSession` remembers the requests it has sent and received until
they are answered, and keeps verified frames that nobody asked for yet.  Every call takes
the session by `&mut`, so a run is a sequence of calls.  A call ends with a value, with an
error, or not at all: its future is dropped while it waits for the socket.

What the socket does is an argument of the call: the packets that its reads yield and how
its write ends.  The `blake3` crate and the JSON codecs are parameters.
-/
import EideticEngine.MachineInt
import EideticEngine.OrderedMap
import EideticEngine.ResponderBroker

namespace SessionChannel

open RustText Serde TransportSession
open ResponderBroker (SessionChannelError PendingRequest Processing maxBufferedSessionMessages)

/-! ## Data -/

/-- What the channel takes from other libraries. -/
structure Codec where
  serde : FrameSerde
  blake3 : Blake3
  /-- `serde_json::to_vec` of a frame. -/
  frameToVec : FrameV2 → Except String (List UInt8)
  /-- The format `{:?}` of a text. -/
  debug : String → String

/-- `SessionCapabilities`. -/
structure SessionCapabilities where
  tokens : List String

namespace SessionCapabilities

/-- `SessionCapabilities::allows`. -/
def allows (capabilities : SessionCapabilities) (capability : FrameCapability) : Bool :=
  capabilities.tokens.any fun token => token = capability.token

/-- `SessionCapabilities::extensions`. -/
def extensions (capabilities : SessionCapabilities) : NegotiatedExtensions where
  names := capabilities.tokens.filter fun token =>
    token ∉ ["hello", "summary", "event_fetch", "body_fetch"]

end SessionCapabilities

/-- `SessionChannelLimits` without its deadlines. -/
structure SessionChannelLimits where
  maxRequestedBudgetMs : UInt64
  maxAuthenticatedFrames : ℕ
  maxAuthenticatedBytes : ℕ

/-- The requests under way in both directions and what was received too early. -/
structure Tables where
  pendingOutbound : Std.ExtTreeMap String PendingRequest compare
  pendingInbound : Std.ExtTreeMap String PendingRequest compare
  bufferedRequests : List SessionMessage
  bufferedResponses : Std.ExtTreeMap String SessionMessage compare

/-- What a session has asked of its socket: how many packets to read, and which to write. -/
structure Traffic where
  reads : ℕ
  writes : List (List UInt8)

/-- `AuthenticatedTransportSession`. -/
structure Session extends Tables where
  stream : Traffic
  established : EstablishedSession
  role : SessionRole
  capabilities : SessionCapabilities
  limits : SessionChannelLimits
  outboundExhausted : Bool
  authenticatedFrames : ℕ
  authenticatedWireBytes : ℕ
  writeClosed : Bool
  peerWriteClosed : Bool
  closed : Bool

/-- `AuthenticatedTransportSession::new`. -/
def Session.new (established : EstablishedSession) (role : SessionRole)
    (capabilities : SessionCapabilities) (limits : SessionChannelLimits) : Session where
  pendingOutbound := ∅
  pendingInbound := ∅
  bufferedRequests := []
  bufferedResponses := ∅
  stream := ⟨0, []⟩
  established := established
  role := role
  capabilities := capabilities
  limits := limits
  outboundExhausted := false
  authenticatedFrames := 0
  authenticatedWireBytes := 0
  writeClosed := false
  peerWriteClosed := false
  closed := false

/-- `close`. -/
def Session.close (s : Session) : Session :=
  { s with closed := true, writeClosed := true, peerWriteClosed := true }

/-- How a call ends without a value. -/
inductive Exit where
  | failed (error : SessionChannelError)
  /-- The caller drops the future while it waits for the socket. -/
  | dropped

/-- A call on a session. -/
abbrev Channel := EStateM Exit Session

/-- `fail`: close the session and report. -/
def fail {α : Type} (error : SessionChannelError) : Channel α := fun s =>
  .error (.failed error) s.close

/-- `match .. { Ok(value) => value, Err(error) => return self.fail(error) }`. -/
def orFail {α : Type} (value : Session → Except SessionChannelError α) : Channel α := fun s =>
  match value s with
  | .ok a => .ok a s
  | .error error => .error (.failed error) s.close

/-! ## The socket -/

/-- How `read_packet` ends. -/
inductive ReadOutcome where
  | packet (encoded : List UInt8)
  | endOfStream
  | failed (error : SessionChannelError)

/-- How `await_io` ends on a write. -/
inductive WriteOutcome where
  | written
  | failed (error : SessionChannelError)
  | dropped

/-- `read_packet`, with `none` for a packet that does not come while the caller waits. -/
def readPacket (read : Option ReadOutcome) : Channel (Option (List UInt8)) := do
  modify fun s => { s with stream := { s.stream with reads := s.stream.reads + 1 } }
  match read with
  | none => throw .dropped
  | some (.packet encoded) => pure (some encoded)
  | some .endOfStream => pure none
  | some (.failed error) => fail error

/-- `write_packet`; a packet counts as soon as it is handed to the socket. -/
def writePacket (encoded : List UInt8) (write : WriteOutcome) : Channel Unit := do
  orFail fun _ => .check (¬ (maxFrameBytes < encoded.length ∨ u32Max < encoded.length))
    (.frame (.frameTooLarge encoded.length))
  modify fun s => { s with stream := { s.stream with writes := s.stream.writes ++ [encoded] } }
  match write with
  | .written => pure ()
  | .failed error => fail error
  | .dropped => throw .dropped

/-- `reserve_authenticated_frame`. -/
def Session.reserveAuthenticatedFrame (s : Session) (bodyBytes : ℕ) :
    Except SessionChannelError Session := do
  .check (s.authenticatedFrames + 1 ≤ u64Max) (.sessionBudgetExhausted "frame")
  .check (s.authenticatedFrames + 1 ≤ s.limits.maxAuthenticatedFrames)
    (.sessionBudgetExhausted "frame")
  .check (bodyBytes ≤ u64Max ∧ bodyBytes + 4 ≤ u64Max) (.sessionBudgetExhausted "byte")
  .check (s.authenticatedWireBytes + (bodyBytes + 4) ≤ u64Max) (.sessionBudgetExhausted "byte")
  .check (s.authenticatedWireBytes + (bodyBytes + 4) ≤ s.limits.maxAuthenticatedBytes)
    (.sessionBudgetExhausted "byte")
  .ok { s with
    authenticatedFrames := s.authenticatedFrames + 1
    authenticatedWireBytes := s.authenticatedWireBytes + (bodyBytes + 4) }

/-- `reserve_authenticated_frame` or `fail`. -/
def reserve (bodyBytes : ℕ) : Channel Unit := do
  let s ← orFail fun s => s.reserveAuthenticatedFrame bodyBytes
  set s

/-! ## Sending -/

/-- `validate_application_message`. -/
def validateApplicationMessage (codec : Codec) (message : SessionMessage) (s : Session) :
    Except SessionChannelError Unit := do
  .check (¬ (s.closed ∨ s.writeClosed)) .closed
  .check (¬ ((asBytes message.correlationId).isEmpty ∨
      maxCorrelationIdBytes < (asBytes message.correlationId).length))
    (.authentication s!"correlation id must contain 1..={maxCorrelationIdBytes} bytes")
  .check (s.capabilities.allows message.capability)
    (.authentication ("capability " ++ codec.debug message.capability.token
      ++ " was not selected for this session"))
  .check (message.requestedBudgetMs ≤ s.limits.maxRequestedBudgetMs)
    (.authentication "requested application budget exceeds the session limit")

/-- The draft of the next frame. -/
def Session.draft (s : Session) (kind : FrameKind) (message : SessionMessage) : FrameDraft where
  direction := s.role.outboundDirection
  counter := s.established.nextOutbound
  correlationId := message.correlationId
  kind := kind
  capability := message.capability
  requestedBudgetMs := message.requestedBudgetMs
  payload := message.payload

/-- The counter moves on after a write. -/
def Session.advance (s : Session) : Session :=
  if s.established.nextOutbound = u64Last then { s with outboundExhausted := true }
  else { s with
    established := { s.established with nextOutbound := s.established.nextOutbound + 1 } }

/-- `send_message`. -/
def sendMessage (codec : Codec) (kind : FrameKind) (message : SessionMessage)
    (write : WriteOutcome) : Channel Unit := do
  orFail fun s => .check (¬ s.outboundExhausted)
    (.frame (.replayRejected .exhausted u64Last u64Last))
  let frame ← orFail fun s => (signFrame codec.serde codec.blake3 s.established.binding
    s.established.keys (s.draft kind message)).mapError .frame
  let encoded ← orFail fun _ => (codec.frameToVec frame).mapError fun error =>
    .frame (.malformedFrame s!"serialize frame: {error}")
  reserve encoded.length
  writePacket encoded write
  modify Session.advance

/-- `send_request`. -/
def sendRequest (codec : Codec) (message : SessionMessage) (write : WriteOutcome) :
    Channel Unit := do
  orFail (validateApplicationMessage codec message)
  orFail fun s => .check (message.correlationId ∉ s.pendingOutbound)
    (.authentication "duplicate outstanding request correlation")
  orFail fun s => .check (¬ maxBufferedSessionMessages ≤ s.pendingOutbound.size)
    (.authentication "outstanding outbound request ledger exceeded its bounded capacity")
  sendMessage codec .request message write
  modify fun s => { s with
    pendingOutbound := s.pendingOutbound.insert message.correlationId ⟨message.capability⟩ }

/-- `send_response`. -/
def sendResponse (codec : Codec) (message : SessionMessage) (write : WriteOutcome) :
    Channel Unit := do
  orFail (validateApplicationMessage codec message)
  orFail fun s =>
    match s.pendingInbound[message.correlationId]? with
    | none => .error
        (.authentication "response correlation does not name a verified inbound request")
    | some pending => .check (pending.capability = message.capability)
        (.authentication "response capability does not match the correlated request")
  sendMessage codec .response message write
  modify fun s => { s with pendingInbound := s.pendingInbound.erase message.correlationId }

/-! ## Receiving -/

/-- `verify_frame` on the session's own ledger, or `fail`. -/
def verifyInbound (codec : Codec) (frame : FrameV2) : Channel VerifiedFrameV2 := fun s =>
  match verifyFrame codec.serde codec.blake3 frame s.established.binding
    s.role.inboundDirection s.established.keys s.capabilities.extensions
    s.established.inbound with
  | .ok verified inbound =>
    .ok verified { s with established := { s.established with inbound } }
  | .error error inbound =>
    fail (.frame error) { s with established := { s.established with inbound } }

/-- `receive_verified`. -/
def receiveVerified (codec : Codec) (read : Option ReadOutcome) :
    Channel (Option VerifiedFrameV2) := do
  let s ← get
  -- reported without closing what is still open
  if s.closed ∨ s.peerWriteClosed then throw (.failed .closed)
  else
    match ← readPacket read with
    | none => do
      modify fun s => { s with peerWriteClosed := true }
      pure none
    | some encoded => do
      let frame ← orFail fun _ => (decodeFrame codec.serde encoded).mapError .frame
      let verified ← verifyInbound codec frame
      orFail fun s => .check (s.capabilities.allows verified.frame.capability)
        (.frame (.extensionNotNegotiated verified.frame.capability.token))
      orFail fun s => .check (verified.frame.requestedBudgetMs ≤ s.limits.maxRequestedBudgetMs)
        (.frame (.malformedFrame "requested application budget exceeds the session limit"))
      reserve encoded.length
      pure (some verified)

/-- `session_message_from_frame`. -/
def sessionMessageFromFrame (frame : FrameV2) : SessionMessage where
  correlationId := frame.correlationId
  capability := frame.capability
  requestedBudgetMs := frame.requestedBudgetMs
  payload := frame.payload

/-- `accept_inbound_request`; a duplicate has replaced the entry when it is refused. -/
def acceptInboundRequest (frame : FrameV2) : Channel SessionMessage := do
  let message := sessionMessageFromFrame frame
  orFail fun s => .check (¬ maxBufferedSessionMessages ≤ s.pendingInbound.size)
    (.authentication "outstanding inbound request ledger exceeded its bounded capacity")
  let s ← get
  set { s with
    pendingInbound := s.pendingInbound.insert message.correlationId ⟨message.capability⟩ }
  orFail fun _ => .check (message.correlationId ∉ s.pendingInbound)
    (.authentication "duplicate outstanding inbound correlation")
  pure message

/-- `accept_inbound_response`. -/
def acceptInboundResponse (frame : FrameV2) : Channel SessionMessage := do
  let message := sessionMessageFromFrame frame
  orFail fun s =>
    match s.pendingOutbound[message.correlationId]? with
    | none => .error
        (.authentication "response correlation does not name an outstanding request")
    | some pending => .check (pending.capability = message.capability)
        (.authentication "response capability does not match the correlated request")
  pure message

/-- `buffer_request`. -/
def bufferRequest (message : SessionMessage) : Channel Unit := do
  orFail fun s => .check (¬ maxBufferedSessionMessages ≤ s.bufferedRequests.length)
    (.authentication "authenticated request inbox exceeded its bounded capacity")
  modify fun s => { s with bufferedRequests := s.bufferedRequests ++ [message] }

/-- `buffer_response`; a duplicate has replaced the entry when it is refused. -/
def bufferResponse (message : SessionMessage) : Channel Unit := do
  orFail fun s => .check (¬ maxBufferedSessionMessages ≤ s.bufferedResponses.size)
    (.authentication "authenticated response inbox is full or duplicated")
  let s ← get
  set { s with bufferedResponses := s.bufferedResponses.insert message.correlationId message }
  orFail fun _ => .check (message.correlationId ∉ s.bufferedResponses)
    (.authentication "authenticated response inbox is full or duplicated")

/-- The loop of `receive_request`, over the packets that come while it waits. -/
def receiveRequestLoop (codec : Codec) : List ReadOutcome → Channel (Option SessionMessage)
  | [] => do
    -- a read that yields nothing does not return
    let _ ← receiveVerified codec none
    pure none
  | read :: reads => do
    match ← receiveVerified codec (some read) with
    | none => do
      orFail fun s => .check s.pendingOutbound.isEmpty .unexpectedHalfClose
      pure none
    | some verified =>
      match verified.frame.kind with
      | .request => some <$> acceptInboundRequest verified.frame
      | .response => do
        let message ← acceptInboundResponse verified.frame
        bufferResponse message
        receiveRequestLoop codec reads

/-- `receive_request`. -/
def receiveRequest (codec : Codec) (reads : List ReadOutcome) :
    Channel (Option SessionMessage) := fun s =>
  match s.bufferedRequests with
  | message :: rest => .ok (some message) { s with bufferedRequests := rest }
  | [] => receiveRequestLoop codec reads s

/-- The loop of `receive_response`. -/
def receiveResponseLoop (codec : Codec) (correlationId : String) :
    List ReadOutcome → Channel SessionMessage
  | [] => do
    let _ ← receiveVerified codec none
    fail .unexpectedHalfClose
  | read :: reads => do
    match ← receiveVerified codec (some read) with
    | none => fail .unexpectedHalfClose
    | some verified =>
      match verified.frame.kind with
      | .request => do
        let message ← acceptInboundRequest verified.frame
        bufferRequest message
        receiveResponseLoop codec correlationId reads
      | .response => do
        let message ← acceptInboundResponse verified.frame
        if message.correlationId = correlationId then do
          modify fun s => { s with pendingOutbound := s.pendingOutbound.erase correlationId }
          pure message
        else do
          bufferResponse message
          receiveResponseLoop codec correlationId reads

/-- `receive_response`. -/
def receiveResponse (codec : Codec) (correlationId : String) (reads : List ReadOutcome) :
    Channel SessionMessage := do
  orFail fun s => .check (correlationId ∈ s.pendingOutbound)
    (.authentication "response wait does not name an outstanding request")
  let s ← get
  match s.bufferedResponses[correlationId]? with
  | some message => do
    set { s with
      bufferedResponses := s.bufferedResponses.erase correlationId
      pendingOutbound := s.pendingOutbound.erase correlationId }
    pure message
  | none => receiveResponseLoop codec correlationId reads

/-! ## Processing and closing -/

/-- `process_request` up to the value of the processing future. -/
def processRequest (request : SessionMessage) (p : Processing) : Channel Unit := do
  orFail fun s =>
    match s.pendingInbound[request.correlationId]? with
    | none => .error (.authentication "processing input is not a verified outstanding request")
    | some pending => .check (¬ (pending.capability ≠ request.capability ∨
          request.requestedBudgetMs = 0))
        (.authentication "processing input does not match its authenticated request metadata")
  match p.before with
  | some message => fail (.cancelled "request processing" message)
  | none =>
    match p.elapsed, p.after with
    | false, none => pure ()
    | true, none => fail (.timeout "request processing")
    | _, some message => fail (.cancelled "request processing" message)

/-- `shutdown_write`. -/
def shutdownWrite (write : WriteOutcome) : Channel Unit := do
  let s ← get
  if s.closed then throw (.failed .closed)
  else if s.writeClosed then pure ()
  else
    match write with
    | .written => set { s with writeClosed := true }
    | .failed error => fail error
    | .dropped => throw .dropped

/-! ## Steps of a call -/

section Steps

variable {α : Type} {s : Session} {Q : α → Session → Prop} {E : Exit → Session → Prop}

theorem post_fail {error : SessionChannelError} :
    (fail error : Channel α).Post s Q E ↔ E (.failed error) s.close := Iff.rfl

/-- A failed check closes the session. -/
theorem post_orFail {value : Session → Except SessionChannelError α} :
    (orFail value).Post s Q E ↔ (∀ a, value s = .ok a → Q a s) ∧
      ∀ error, value s = .error error → E (.failed error) s.close := by
  unfold EStateM.Post orFail
  cases value s <;> simp

/-- A check that closes the session when it fails. -/
theorem post_orFail_check {P : Session → Prop} [DecidablePred P] {error : SessionChannelError}
    {Q : Unit → Session → Prop} :
    (orFail fun s => .check (P s) error).Post s Q E ↔
      (P s → Q () s) ∧ (¬ P s → E (.failed error) s.close) := by
  rw [post_orFail]
  unfold Except.check
  by_cases h : P s
  · rw [if_pos h]
    simp only [forall_const, reduceCtorEq, false_implies, implies_true, and_true,
      h, not_true_eq_false]
    exact ⟨fun hq => hq (), fun hq _ => hq⟩
  · rw [if_neg h]
    simp only [reduceCtorEq, false_implies, implies_true, Except.error.injEq, forall_eq', true_and,
      h, not_false_eq_true, forall_const]

/-- The part of a session that only the four public calls change. -/
structure Kept (s s' : Session) : Prop where
  tables : s'.toTables = s.toTables
  closed : s'.closed = s.closed
  peerWriteClosed : s'.peerWriteClosed = s.peerWriteClosed

theorem Kept.refl (s : Session) : Kept s s := ⟨rfl, rfl, rfl⟩

theorem Kept.trans {s₁ s₂ s₃ : Session} (h : Kept s₁ s₂) (h' : Kept s₂ s₃) : Kept s₁ s₃ :=
  ⟨h'.tables.trans h.tables, h'.closed.trans h.closed,
    h'.peerWriteClosed.trans h.peerWriteClosed⟩

/-- A call that does not return has kept the tables, and has closed the session unless its
future was dropped. -/
def Broken (s : Session) (exit : Exit) (s' : Session) : Prop :=
  s'.toTables = s.toTables ∧ (exit = .dropped ∨ s'.closed = true)

theorem broken_close (s : Session) (ex : Exit) : Broken s ex s.close := ⟨rfl, .inr rfl⟩

theorem Broken.of_kept {s₁ s₂ s₃ : Session} {ex : Exit} (h : Kept s₁ s₂)
    (h' : Broken s₂ ex s₃) : Broken s₁ ex s₃ := ⟨h'.1.trans h.tables, h'.2⟩

/-- A step that keeps the rest or breaks the call. -/
abbrev Quiet (x : Channel α) : Prop := ∀ s, x.Post s (fun _ s' => Kept s s') (Broken s)

/-- Two quiet calls in a row are quiet. -/
theorem Quiet.bind {β : Type} {x : Channel α} {f : α → Channel β} (hx : Quiet x)
    (hf : ∀ a, Quiet (f a)) : Quiet (x >>= f) := by
  intro s
  refine (hx s).bind ?_
  intro a s' hkept
  exact (hf a s').mono (fun _ _ h => hkept.trans h) fun _ _ h => h.of_kept hkept

theorem quiet_pure (a : α) : Quiet (pure a : Channel α) := fun s => Kept.refl s

theorem quiet_orFail (value : Session → Except SessionChannelError α) : Quiet (orFail value) := by
  intro s
  rw [post_orFail]
  exact ⟨fun _ _ => Kept.refl s, fun _ _ => broken_close s _⟩

theorem quiet_modify {g : Session → Session} (hg : ∀ s, Kept s (g s)) :
    Quiet (modify g : Channel Unit) := hg

theorem quiet_reserve (bbs : ℕ) : Quiet (reserve bbs) := by
  intro s
  unfold reserve
  rw [EStateM.post_bind, post_orFail]
  refine ⟨?_, fun _ _ => broken_close s _⟩
  intro s' hs'
  unfold Session.reserveAuthenticatedFrame at hs'
  obtain ⟨-, -, hs'⟩ := Except.bind_eq_ok_iff.mp hs'
  obtain ⟨-, -, hs'⟩ := Except.bind_eq_ok_iff.mp hs'
  obtain ⟨-, -, hs'⟩ := Except.bind_eq_ok_iff.mp hs'
  obtain ⟨-, -, hs'⟩ := Except.bind_eq_ok_iff.mp hs'
  obtain ⟨-, -, hs'⟩ := Except.bind_eq_ok_iff.mp hs'
  cases hs'
  exact ⟨rfl, rfl, rfl⟩

theorem quiet_writePacket (encoded : List UInt8) (write : WriteOutcome) :
    Quiet (writePacket encoded write) := by
  refine (quiet_orFail _).bind fun _ => Quiet.bind (quiet_modify ?_) fun _ => ?_
  · exact fun s => ⟨rfl, rfl, rfl⟩
  · cases write with
    | written => exact quiet_pure ()
    | failed error => exact fun s => broken_close s _
    | dropped => exact fun s => ⟨rfl, .inl rfl⟩

/-- Sending a frame keeps the tables. -/
theorem quiet_sendMessage (codec : Codec) (kind : FrameKind) (message : SessionMessage)
    (write : WriteOutcome) : Quiet (sendMessage codec kind message write) := by
  refine (quiet_orFail _).bind fun _ => (quiet_orFail _).bind fun frame =>
    (quiet_orFail _).bind fun encoded => (quiet_reserve _).bind fun _ =>
    (quiet_writePacket _ _).bind fun _ => quiet_modify ?_
  intro s
  unfold Session.advance
  split <;> exact ⟨rfl, rfl, rfl⟩

theorem quiet_readPacket (read : Option ReadOutcome) : Quiet (readPacket read) := by
  unfold readPacket
  refine Quiet.bind (quiet_modify ?_) fun _ => ?_
  · exact fun s => ⟨rfl, rfl, rfl⟩
  · cases read with
    | none => exact fun s => ⟨rfl, .inl rfl⟩
    | some read =>
      cases read with
      | packet encoded => exact quiet_pure _
      | endOfStream => exact quiet_pure _
      | failed error => exact fun s => broken_close s _

theorem quiet_verifyInbound (c : Codec) (f : FrameV2) : Quiet (verifyInbound c f) := by
  intro s
  unfold EStateM.Post verifyInbound
  cases verifyFrame c.serde c.blake3 f s.established.binding s.role.inboundDirection
    s.established.keys s.capabilities.extensions s.established.inbound with
  | ok v inbound => exact ⟨rfl, rfl, rfl⟩
  | error error inbound => exact ⟨rfl, .inr rfl⟩

/-- The end of a receive without a frame: the tables are kept, and the session is closed
unless the future was dropped or the peer had closed its half before. -/
def Unread (s : Session) (exit : Exit) (s' : Session) : Prop :=
  s'.toTables = s.toTables ∧ (exit = .dropped ∨ s'.closed = true ∨
    (exit = .failed .closed ∧ s.peerWriteClosed = true))

/-- A read keeps the tables, and the flags too when it yields a frame. -/
theorem receiveVerified_post (c : Codec) (read : Option ReadOutcome) (s : Session) :
    (receiveVerified c read).Post s (fun v s' => s'.toTables = s.toTables ∧ (v.isSome → Kept s s'))
      (Unread s) := by
  have hb : ∀ {ex s'}, Broken s ex s' → Unread s ex s' := fun h => ⟨h.1, h.2.imp_right Or.inl⟩
  unfold receiveVerified
  rw [EStateM.post_get_bind]
  by_cases hc : s.closed = true ∨ s.peerWriteClosed = true
  · rw [if_pos hc]
    exact ⟨rfl, .inr (hc.imp_right fun h => ⟨rfl, h⟩)⟩
  · rw [if_neg hc]
    refine ((quiet_readPacket read s).mono (fun _ _ h => h) fun _ _ => hb).bind ?_
    intro p s' hk
    cases p with
    | none => exact ⟨hk.tables, by simp⟩
    | some en =>
      have hq : Quiet (do
          let f ← orFail fun _ => (decodeFrame c.serde en).mapError .frame
          let v ← verifyInbound c f
          orFail fun s => .check (s.capabilities.allows v.frame.capability)
            (.frame (.extensionNotNegotiated v.frame.capability.token))
          orFail fun s => .check (v.frame.requestedBudgetMs ≤ s.limits.maxRequestedBudgetMs)
            (.frame (.malformedFrame "requested application budget exceeds the session limit"))
          reserve en.length
          pure (some v)) :=
        (quiet_orFail _).bind fun f => (quiet_verifyInbound c f).bind fun _ =>
          (quiet_orFail _).bind fun _ => (quiet_orFail _).bind fun _ =>
          (quiet_reserve _).bind fun _ => quiet_pure _
      refine (hq s').mono ?_ ?_
      · intro v s'' h
        exact ⟨h.tables.trans hk.tables, fun _ => hk.trans h⟩
      · intro ex s'' h
        exact hb (h.of_kept hk)

end Steps

/-! ## The tables -/

/-- Buffered responses name outstanding requests, with their capability, and no table holds
more than its bound. -/
structure Tables.Inv (t : Tables) : Prop where
  buffered : ∀ (id : String) (message : SessionMessage), t.bufferedResponses[id]? = some message →
    message.correlationId = id ∧ t.pendingOutbound[id]? = some ⟨message.capability⟩
  outbound_le : t.pendingOutbound.size ≤ maxBufferedSessionMessages
  inbound_le : t.pendingInbound.size ≤ maxBufferedSessionMessages
  requests_le : t.bufferedRequests.length ≤ maxBufferedSessionMessages
  responses_le : t.bufferedResponses.size ≤ maxBufferedSessionMessages

theorem Session.inv_new (es : EstablishedSession) (r : SessionRole)
    (cs : SessionCapabilities) (limits : SessionChannelLimits) :
    (Session.new es r cs limits).toTables.Inv := by
  refine ⟨?_, ?_, ?_, ?_, ?_⟩ <;> simp [Session.new, maxBufferedSessionMessages]

/-- What a call that sends and answers nothing does to the tables. -/
structure Tables.Next (t t' : Tables) : Prop where
  inv : t'.Inv
  outbound : t'.pendingOutbound = t.pendingOutbound

theorem Tables.Inv.next {t : Tables} (h : t.Inv) : t.Next t := ⟨h, rfl⟩

theorem Tables.Next.trans {t₁ t₂ t₃ : Tables} (h : t₁.Next t₂) (h' : t₂.Next t₃) : t₁.Next t₃ :=
  ⟨h'.inv, h'.outbound.trans h.outbound⟩

/-- Accepting a request enters it, within the bound. -/
theorem acceptInboundRequest_post (f : FrameV2) {s : Session} (h : s.toTables.Inv) :
    (acceptInboundRequest f).Post s
      (fun _ s' => s.toTables.Next s'.toTables ∧ s'.bufferedResponses = s.bufferedResponses ∧
        s'.peerWriteClosed = s.peerWriteClosed)
      (fun _ s' => s.toTables.Next s'.toTables ∧ s'.closed = true) := by
  unfold acceptInboundRequest
  rw [EStateM.post_bind, post_orFail_check]
  refine ⟨?_, fun _ => ⟨h.next, rfl⟩⟩
  intro hr
  set message := sessionMessageFromFrame f
  have hi : (s.pendingInbound.insert message.correlationId ⟨message.capability⟩).size
      ≤ maxBufferedSessionMessages := by
    have hle := Std.ExtTreeMap.size_insert_le (t := s.pendingInbound) (k := message.correlationId)
      (v := PendingRequest.mk message.capability)
    omega
  have hn : s.toTables.Next { s.toTables with
      pendingInbound := s.pendingInbound.insert message.correlationId ⟨message.capability⟩ } :=
    ⟨⟨h.buffered, h.outbound_le, hi, h.requests_le, h.responses_le⟩, rfl⟩
  rw [EStateM.post_get_bind, EStateM.post_set_bind, EStateM.post_bind, post_orFail_check]
  exact ⟨fun _ => ⟨hn, rfl, rfl⟩, fun _ => ⟨hn, rfl⟩⟩

/-- An accepted response names an outstanding request with its capability. -/
theorem acceptInboundResponse_post (f : FrameV2) (s : Session) : (acceptInboundResponse f).Post s
      (fun message s' => s' = s ∧
        s.pendingOutbound[message.correlationId]? = some ⟨message.capability⟩)
      (fun _ s' => s' = s.close) := by
  unfold acceptInboundResponse
  rw [EStateM.post_bind, post_orFail]
  refine ⟨?_, fun _ _ => rfl⟩
  intro _ ha
  rw [EStateM.post_pure]
  refine ⟨rfl, ?_⟩
  split at ha
  · cases ha
  · rename_i pending hp
    rw [Except.check_eq_ok_iff] at ha
    rw [hp, ← ha]

theorem bufferRequest_post (message : SessionMessage) {s : Session} (h : s.toTables.Inv) :
    (bufferRequest message).Post s
      (fun _ s' => s.toTables.Next s'.toTables ∧ s'.bufferedResponses = s.bufferedResponses ∧
        s'.peerWriteClosed = s.peerWriteClosed)
      (fun _ s' => s.toTables.Next s'.toTables ∧ s'.closed = true) := by
  unfold bufferRequest
  rw [EStateM.post_bind, post_orFail_check]
  refine ⟨?_, fun _ => ⟨h.next, rfl⟩⟩
  intro hr
  rw [EStateM.post_modify]
  refine ⟨⟨⟨h.buffered, h.outbound_le, h.inbound_le, ?_, h.responses_le⟩, rfl⟩, rfl, rfl⟩
  change (s.bufferedRequests ++ [message]).length ≤ _
  rw [List.length_append, List.length_singleton]
  omega

/-- An accepted response is buffered under the request that it names. -/
theorem bufferResponse_post {message : SessionMessage} {s : Session} (h : s.toTables.Inv)
    (hna : s.pendingOutbound[message.correlationId]? = some ⟨message.capability⟩) :
    (bufferResponse message).Post s (fun _ s' => s.toTables.Next s'.toTables ∧
        s'.bufferedResponses = s.bufferedResponses.insert message.correlationId message ∧
        s'.peerWriteClosed = s.peerWriteClosed)
      (fun _ s' => s.toTables.Next s'.toTables ∧ s'.closed = true) := by
  unfold bufferResponse
  rw [EStateM.post_bind, post_orFail_check]
  refine ⟨?_, fun _ => ⟨h.next, rfl⟩⟩
  intro hr
  have hn : s.toTables.Next { s.toTables with
      bufferedResponses := s.bufferedResponses.insert message.correlationId message } := by
    refine ⟨⟨?_, h.outbound_le, h.inbound_le, h.requests_le, ?_⟩, rfl⟩
    · intro id b hb
      rw [Std.ExtTreeMap.getElem?_insert_ite] at hb
      split at hb
      · rename_i hid
        cases hb
        exact ⟨hid, hid ▸ hna⟩
      · exact h.buffered id b hb
    · have hle := Std.ExtTreeMap.size_insert_le (t := s.bufferedResponses)
        (k := message.correlationId) (v := message)
      change (s.bufferedResponses.insert message.correlationId message).size ≤ _
      omega
  rw [EStateM.post_get_bind, EStateM.post_set_bind, post_orFail_check]
  exact ⟨fun _ => ⟨hn, rfl, rfl⟩, fun _ => ⟨hn, rfl⟩⟩

/-- The end of a receive: the tables go on, and the session is closed unless the future was
dropped or the peer had closed its half before. -/
def Ended (s : Session) (exit : Exit) (s' : Session) : Prop :=
  s.toTables.Next s'.toTables ∧ (exit = .dropped ∨ s'.closed = true ∨
    (exit = .failed .closed ∧ s.peerWriteClosed = true))

theorem Ended.of_next {s₁ s₂ s₃ : Session} {ex : Exit} (h : s₁.toTables.Next s₂.toTables)
    (hf : s₂.peerWriteClosed = s₁.peerWriteClosed) (h' : Ended s₂ ex s₃) :
    Ended s₁ ex s₃ :=
  ⟨h.trans h'.1, by rw [← hf]; exact h'.2⟩

theorem Unread.ended {s s' : Session} {ex : Exit} (h : s.toTables.Inv)
    (hr : Unread s ex s') : Ended s ex s' :=
  ⟨by rw [hr.1]; exact h.next, hr.2⟩

/-- Waiting for a request answers nothing. -/
theorem receiveRequestLoop_post (c : Codec) (rs : List ReadOutcome) {s : Session}
    (h : s.toTables.Inv) :
    (receiveRequestLoop c rs).Post s (fun _ s' => s.toTables.Next s'.toTables) (Ended s) := by
  induction rs generalizing s with
  | nil =>
    refine ((receiveVerified_post c none s).mono (fun _ _ hr => hr)
      fun _ _ hr => hr.ended h).bind ?_
    intro _ s' hr
    rw [EStateM.post_pure, hr.1]
    exact h.next
  | cons read rs ih =>
    refine ((receiveVerified_post c (some read) s).mono (fun _ _ hr => hr)
      fun _ _ hr => hr.ended h).bind ?_
    rintro v s₁ ⟨ht, hke⟩
    have h₁ : s₁.toTables.Inv := ht ▸ h
    have hn : s.toTables.Next s₁.toTables := ht ▸ h.next
    cases v with
    | none =>
      simp only
      rw [EStateM.post_bind, post_orFail_check]
      exact ⟨fun _ => hn, fun _ => ⟨hn, .inr (.inl rfl)⟩⟩
    | some v =>
      have hf := (hke rfl).peerWriteClosed
      cases hk : v.frame.kind with
      | request =>
        simp only [hk]
        rw [EStateM.post_map]
        refine (acceptInboundRequest_post v.frame h₁).mono ?_ ?_
        · exact fun _ _ ha => hn.trans ha.1
        · exact fun _ _ ha => ⟨hn.trans ha.1, .inr (.inl ha.2)⟩
      | response =>
        simp only [hk]
        refine ((acceptInboundResponse_post v.frame s₁).mono (fun _ _ ha => ha) ?_).bind ?_
        · rintro _ _ rfl
          exact ⟨hn, .inr (.inl rfl)⟩
        · rintro message _ ⟨rfl, hna⟩
          refine ((bufferResponse_post h₁ hna).mono (fun _ _ hb => hb) ?_).bind ?_
          · exact fun _ _ hb => ⟨hn.trans hb.1, .inr (.inl hb.2)⟩
          · rintro _ s₂ ⟨hb, -, hf₂⟩
            refine (ih hb.inv).mono (fun _ _ hre => (hn.trans hb).trans hre) ?_
            exact fun _ _ hre => hre.of_next (hn.trans hb) (hf₂.trans hf)

theorem receiveRequest_post (c : Codec) (rs : List ReadOutcome) {s : Session} (h : s.toTables.Inv) :
    (receiveRequest c rs).Post s (fun _ s' => s.toTables.Next s'.toTables) (Ended s) := by
  cases hb : s.bufferedRequests with
  | nil =>
    have hlo : receiveRequest c rs s = receiveRequestLoop c rs s := by
      unfold receiveRequest
      rw [hb]
    unfold EStateM.Post
    rw [hlo]
    exact receiveRequestLoop_post c rs h
  | cons message r =>
    have hp : receiveRequest c rs s = .ok (some message) { s with bufferedRequests := r } := by
      unfold receiveRequest
      rw [hb]
    have hl : r.length ≤ maxBufferedSessionMessages := by
      have hle := h.requests_le
      rw [hb, List.length_cons] at hle
      omega
    unfold EStateM.Post
    rw [hp]
    exact ⟨⟨h.buffered, h.outbound_le, h.inbound_le, hl, h.responses_le⟩, rfl⟩

/-- What a returned response does: it answers the outstanding request it was awaited for. -/
structure AnswersRequest (s : Session) (id : String) (message : SessionMessage) (s' : Session) :
    Prop where
  inv : s'.toTables.Inv
  id_eq : message.correlationId = id
  pending : s.pendingOutbound[id]? = some ⟨message.capability⟩
  outbound : s'.pendingOutbound = s.pendingOutbound.erase id

/-- Forgetting a request that no buffered response names. -/
theorem Tables.Inv.erase {t : Tables} (h : t.Inv) {id : String} (hid : id ∉ t.bufferedResponses) :
    Tables.Inv { t with pendingOutbound := t.pendingOutbound.erase id } := by
  refine ⟨?_, ?_, h.inbound_le, h.requests_le, h.responses_le⟩
  · intro other message hb
    obtain ⟨hn, hp⟩ := h.buffered other message hb
    refine ⟨hn, ?_⟩
    have hne : id ≠ other := by
      rintro rfl
      exact hid (Std.ExtTreeMap.mem_iff_isSome_getElem?.mpr (by rw [hb]; rfl))
    rw [Std.ExtTreeMap.getElem?_erase_ite, if_neg hne]
    exact hp
  · exact Std.ExtTreeMap.size_erase_le.trans h.outbound_le

/-- While a response is awaited none is buffered under its name. -/
theorem receiveResponseLoop_post (c : Codec) (id : String) (rs : List ReadOutcome)
    {s : Session} (h : s.toTables.Inv) (hid : id ∉ s.bufferedResponses) :
    (receiveResponseLoop c id rs).Post s (AnswersRequest s id) (Ended s) := by
  induction rs generalizing s with
  | nil =>
    refine ((receiveVerified_post c none s).mono (fun _ _ hr => hr)
      fun _ _ hr => hr.ended h).bind ?_
    intro _ s' hr
    rw [post_fail]
    exact ⟨hr.1 ▸ h.next, .inr (.inl rfl)⟩
  | cons read rs ih =>
    refine ((receiveVerified_post c (some read) s).mono (fun _ _ hr => hr)
      fun _ _ hr => hr.ended h).bind ?_
    rintro v s₁ ⟨ht, hke⟩
    have h₁ : s₁.toTables.Inv := ht ▸ h
    have hn : s.toTables.Next s₁.toTables := ht ▸ h.next
    have hi₁ : id ∉ s₁.bufferedResponses := ht ▸ hid
    -- what the rest of the loop says, seen from the start
    have hre : ∀ {s₂ : Session}, s₁.toTables.Next s₂.toTables →
        s₂.peerWriteClosed = s₁.peerWriteClosed → v.isSome → id ∉ s₂.bufferedResponses →
        (receiveResponseLoop c id rs).Post s₂ (AnswersRequest s id) (Ended s) := by
      intro s₂ hn₂ hf₂ hso h₂
      have hn₂ := hn.trans hn₂
      refine (ih hn₂.inv h₂).mono ?_ ?_
      · intro message s₃ han
        exact ⟨han.inv, han.id_eq, hn₂.outbound ▸ han.pending, hn₂.outbound ▸ han.outbound⟩
      · intro ex s₃ he
        exact he.of_next hn₂ (hf₂.trans (hke hso).peerWriteClosed)
    cases v with
    | none => exact ⟨hn, .inr (.inl rfl)⟩
    | some v =>
      cases hk : v.frame.kind with
      | request =>
        simp only [hk]
        refine ((acceptInboundRequest_post v.frame h₁).mono (fun _ _ ha => ha) ?_).bind ?_
        · exact fun _ _ ha => ⟨hn.trans ha.1, .inr (.inl ha.2)⟩
        · rintro message s₂ ⟨hn₂, hb₂, hf₂⟩
          refine ((bufferRequest_post message hn₂.inv).mono (fun _ _ hb => hb) ?_).bind ?_
          · exact fun _ _ hb => ⟨(hn.trans hn₂).trans hb.1, .inr (.inl hb.2)⟩
          · rintro _ s₃ ⟨hn₃, hb₃, hf₃⟩
            refine hre (hn₂.trans hn₃) (hf₃.trans hf₂) rfl ?_
            rw [hb₃, hb₂]
            exact hi₁
      | response =>
        simp only [hk]
        refine ((acceptInboundResponse_post v.frame s₁).mono (fun _ _ ha => ha) ?_).bind ?_
        · rintro _ _ rfl
          exact ⟨hn, .inr (.inl rfl)⟩
        · rintro message _ ⟨rfl, hna⟩
          by_cases hs : message.correlationId = id
          · rw [if_pos hs, EStateM.post_bind, EStateM.post_modify, EStateM.post_pure]
            rw [hs] at hna
            exact ⟨h₁.erase hi₁, hs, hn.outbound ▸ hna, hn.outbound ▸ rfl⟩
          · rw [if_neg hs]
            refine ((bufferResponse_post h₁ hna).mono (fun _ _ hb => hb) ?_).bind ?_
            · exact fun _ _ hb => ⟨hn.trans hb.1, .inr (.inl hb.2)⟩
            · rintro _ s₂ ⟨hn₂, hb₂, hf₂⟩
              refine hre hn₂ hf₂ rfl ?_
              rw [hb₂, Std.ExtTreeMap.mem_insert_iff]
              exact fun hm => hm.elim hs hi₁

/-- A response is returned for an outstanding request, which it answers. -/
theorem receiveResponse_post (c : Codec) (id : String) (rs : List ReadOutcome)
    {s : Session} (h : s.toTables.Inv) :
    (receiveResponse c id rs).Post s (AnswersRequest s id) (Ended s) := by
  unfold receiveResponse
  rw [EStateM.post_bind, post_orFail_check]
  refine ⟨?_, fun _ => ⟨h.next, .inr (.inl rfl)⟩⟩
  intro _
  rw [EStateM.post_get_bind]
  cases hb : s.bufferedResponses[id]? with
  | none =>
    refine receiveResponseLoop_post c id rs h ?_
    rw [Std.ExtTreeMap.mem_iff_isSome_getElem?, hb]
    exact Bool.false_ne_true
  | some message =>
    simp only
    rw [EStateM.post_set_bind, EStateM.post_pure]
    obtain ⟨hn, hp⟩ := h.buffered id message hb
    refine ⟨?_, hn, hp, rfl⟩
    have hpo : Tables.Inv { s.toTables with
        bufferedResponses := s.bufferedResponses.erase id } := by
      refine ⟨?_, h.outbound_le, h.inbound_le, h.requests_le,
        Std.ExtTreeMap.size_erase_le.trans h.responses_le⟩
      intro other message ho
      rw [Std.ExtTreeMap.getElem?_erase_ite] at ho
      split at ho
      · cases ho
      · exact h.buffered other message ho
    refine hpo.erase ?_
    rw [Std.ExtTreeMap.mem_iff_isSome_getElem?, Std.ExtTreeMap.getElem?_erase_self]
    exact Bool.false_ne_true

/-- What a sent request does: it becomes outstanding under a free name. -/
structure SendsRequest (s : Session) (message : SessionMessage) (s' : Session) : Prop where
  inv : s'.toTables.Inv
  outbound : s'.pendingOutbound
    = s.pendingOutbound.insert message.correlationId ⟨message.capability⟩

theorem sendRequest_post (c : Codec) (message : SessionMessage) (write : WriteOutcome)
    {s : Session} (h : s.toTables.Inv) :
    (sendRequest c message write).Post s (fun _ s' => SendsRequest s message s') (Broken s) := by
  unfold sendRequest
  rw [EStateM.post_bind, post_orFail]
  refine ⟨?_, fun _ _ => broken_close s _⟩
  intro _ _
  rw [EStateM.post_bind, post_orFail_check]
  refine ⟨?_, fun _ => broken_close s _⟩
  intro hf
  rw [EStateM.post_bind, post_orFail_check]
  refine ⟨?_, fun _ => broken_close s _⟩
  intro hr
  refine (quiet_sendMessage c .request message write s).bind ?_
  intro _ s' hk
  rw [EStateM.post_modify]
  obtain ⟨ht, -, -⟩ := hk
  have ho : s'.pendingOutbound = s.pendingOutbound := by rw [ht]
  have h' : s'.toTables.Inv := ht ▸ h
  have hi : Tables.Inv { s'.toTables with
      pendingOutbound := s'.pendingOutbound.insert message.correlationId
        ⟨message.capability⟩ } := by
    refine ⟨?_, ?_, h'.inbound_le, h'.requests_le, h'.responses_le⟩
    · intro id b hb
      obtain ⟨hn, hp⟩ := h'.buffered id b hb
      refine ⟨hn, ?_⟩
      -- the new request has a free name, and no response is buffered under a free name
      have hne : message.correlationId ≠ id := by
        rintro rfl
        apply hf
        rw [Std.ExtTreeMap.mem_iff_isSome_getElem?, ← ho, hp]
        rfl
      rw [Std.ExtTreeMap.getElem?_insert_ite, if_neg hne]
      exact hp
    · have hle := Std.ExtTreeMap.size_insert_le (t := s'.pendingOutbound)
        (k := message.correlationId) (v := PendingRequest.mk message.capability)
      change (s'.pendingOutbound.insert message.correlationId ⟨message.capability⟩).size ≤ _
      rw [ho] at hle ⊢
      omega
  exact ⟨hi, congrArg (fun t => t.insert message.correlationId ⟨message.capability⟩) ho⟩

/-- Shrinking the ledger of received requests. -/
theorem Tables.Inv.eraseInbound {t : Tables} (h : t.Inv) (id : String) :
    t.Next { t with pendingInbound := t.pendingInbound.erase id } :=
  ⟨⟨h.buffered, h.outbound_le, Std.ExtTreeMap.size_erase_le.trans h.inbound_le, h.requests_le,
    h.responses_le⟩, rfl⟩

theorem sendResponse_post (c : Codec) (message : SessionMessage) (write : WriteOutcome)
    {s : Session} (h : s.toTables.Inv) :
    (sendResponse c message write).Post s (fun _ s' => s.toTables.Next s'.toTables) (Broken s) := by
  unfold sendResponse
  rw [EStateM.post_bind, post_orFail]
  refine ⟨?_, fun _ _ => broken_close s _⟩
  intro _ _
  rw [EStateM.post_bind, post_orFail]
  refine ⟨?_, fun _ _ => broken_close s _⟩
  intro _ _
  refine (quiet_sendMessage c .response message write s).bind ?_
  intro _ s' hk
  rw [EStateM.post_modify]
  have hn : s.toTables.Next s'.toTables := hk.tables ▸ h.next
  exact hn.trans (hn.inv.eraseInbound message.correlationId)

theorem quiet_processRequest (r : SessionMessage) (p : Processing) :
    Quiet (processRequest r p) := by
  refine (quiet_orFail _).bind fun _ => ?_
  cases p.before with
  | some message => exact fun s => broken_close s _
  | none =>
    cases p.elapsed <;> cases p.after
    · exact quiet_pure ()
    all_goals exact fun s => broken_close s _

theorem shutdownWrite_post (write : WriteOutcome) (s : Session) :
    (shutdownWrite write).Post s (fun _ s' => s'.toTables = s.toTables) (Broken s) := by
  unfold shutdownWrite
  rw [EStateM.post_get_bind]
  split
  · rename_i hc
    exact ⟨rfl, .inr hc⟩
  split
  · rfl
  · cases write with
    | written => rfl
    | failed error => exact broken_close s _
    | dropped => exact ⟨rfl, .inl rfl⟩

end SessionChannel
