/-
# The responder's authenticated sessions

Each accepted session runs `serve_authenticated_sync_round`: it receives a request, is
admitted under the lock of the peer map, processes the request, sends the response, and
releases the admission under the lock again.  The sessions of a broker interleave at these
points.  An admission raises `in_flight_requests` of the peer; the question is on which exits
it is lowered.
-/
import EideticEngine.MeshAdmission
import EideticEngine.TransportNetwork

namespace ResponderBroker

open MeshAdmission TransportSession Serde

/-! ## Sessions -/

/-- The `SessionChannelError`s of an established session. -/
inductive SessionChannelError where
  | cancelled (phase message : String)
  | timeout (phase : String)
  | io (phase message : String)
  | frame (error : TransportSessionError)
  | authentication (message : String)
  | unexpectedHalfClose
  | sessionBudgetExhausted (resource : String)
  | closed

/-- The `ResponderBrokerError`s of a served session. -/
inductive ResponderBrokerError where
  | transportUnavailable
  | admissionLimited
  | session (error : SessionChannelError)

/-- `MAX_BUFFERED_SESSION_MESSAGES`. -/
def maxBufferedSessionMessages : ℕ := 32

/-- `PendingRequest`. -/
structure PendingRequest where
  capability : FrameCapability

/-- Where a session stands in `serve_authenticated_sync_round`. -/
inductive Phase where
  | receiving
  | admitting (request : SessionMessage)
  | processing (request : SessionMessage)
  | sending (request : SessionMessage) (payload : Json)
  | finished (result : Except ResponderBrokerError Unit)

/-- An authenticated session of a peer, with its ledger `pending_inbound`. -/
structure Session where
  peerId : String
  pendingInbound : List (String × PendingRequest)
  closed : Bool
  phase : Phase

/-- `pending_inbound.get`. -/
def Session.pending (s : Session) (correlationId : String) : Option PendingRequest :=
  (s.pendingInbound.find? fun entry => entry.1 = correlationId).map Prod.snd

/-- `pending_inbound.insert`. -/
def Session.insertPending (s : Session) (correlationId : String) (pending : PendingRequest) :
    Session :=
  { s with
    pendingInbound :=
      (correlationId, pending) :: s.pendingInbound.filter fun entry => entry.1 ≠ correlationId }

/-- `fail`: close and report. -/
def Session.fail (s : Session) (error : SessionChannelError) :
    Except SessionChannelError Unit × Session :=
  (.error error, { s with closed := true })

/-- `accept_inbound_request`, on the message of a verified frame. -/
def Session.acceptInboundRequest (s : Session) (message : SessionMessage) :
    Except SessionChannelError Unit × Session :=
  if maxBufferedSessionMessages ≤ s.pendingInbound.length then
    s.fail (.authentication "outstanding inbound request ledger exceeded its bounded capacity")
  else
    let s' := s.insertPending message.correlationId ⟨message.capability⟩
    if (s.pending message.correlationId).isSome then
      s'.fail (.authentication "duplicate outstanding inbound correlation")
    else (.ok (), s')

/-- What happens to a request while it is processed: the two checkpoints of the context, with
the message of a cancellation, and whether the effective budget ran out. -/
structure Processing where
  before : Option String
  elapsed : Bool
  after : Option String

/-- `process_request` up to the value of the processing future. -/
def Session.processRequest (s : Session) (request : SessionMessage) (p : Processing) :
    Except SessionChannelError Unit × Session :=
  match s.pending request.correlationId with
  | none => s.fail (.authentication "processing input is not a verified outstanding request")
  | some pending =>
    if pending.capability ≠ request.capability ∨ request.requestedBudgetMs = 0 then
      s.fail (.authentication
        "processing input does not match its authenticated request metadata")
    else
      match p.before with
      | some message => s.fail (.cancelled "request processing" message)
      | none =>
        match p.elapsed, p.after with
        | false, none => (.ok (), s)
        | true, none => s.fail (.timeout "request processing")
        | _, some message => s.fail (.cancelled "request processing" message)

/-! ## Admission -/

/-- What the responder reads off a payload: the length of its text, and the `max_events` of
`parse_sync_round_request`. -/
structure PayloadCodec where
  textLength : Json → ℕ
  maxEvents : Json → Option ℕ

/-- The capabilities that are served. -/
def isServed : FrameCapability → Bool
  | .summary | .eventFetch | .bodyFetch => true
  | .extension name => name = "identity_attest"
  | .hello => false

/-- The kind of a capability in `admit_authenticated_capability`. -/
def requestKind : FrameCapability → MeshAdmissionRequestKind
  | .bodyFetch => .bodyFetch
  | .eventFetch => .eventBatch
  | .summary => .tipAdvertise
  | _ => .hello

/-- `admit_authenticated_capability`. -/
def admitAuthenticatedCapability (codec : PayloadCodec) (capability : FrameCapability)
    (payload : Json) (nowEpochMs : ℕ) (peer : MeshPeerAdmissionState) :
    Except ResponderBrokerError MeshAdmissionDecision × MeshPeerAdmissionState :=
  let kind := requestKind capability
  let payloadBytes := min (codec.textLength payload) u64Max
  let eventCount := if kind = .eventBatch then (codec.maxEvents payload).getD 0 else 0
  let bodyFetchBytes := if kind = .bodyFetch then payloadBytes else 0
  let decision := admitAuthenticatedMeshCapabilityWithState peer kind payloadBytes eventCount
    bodyFetchBytes nowEpochMs
  let peer := recordAuthenticatedAdmission peer decision nowEpochMs
  if decision.allowed then (.ok decision, peer) else (.error .admissionLimited, peer)

/-! ## The broker -/

/-- `AdmissionState.peers` and the sessions of a broker. -/
structure Broker where
  peers : String → Option MeshPeerAdmissionState
  sessions : List Session

def Broker.start : Broker := ⟨fun _ => none, []⟩

/-- What can happen next: a session of a peer is accepted on a registered route, or session
`i` goes one step on with the given outcome of its own. -/
inductive Event where
  | accept (peerId : String)
  | receive (i : ℕ) (outcome : Except SessionChannelError (Option SessionMessage))
  | admission (i : ℕ) (nowEpochMs : ℕ)
  | process (i : ℕ) (processing : Processing) (response : Option Json)
  | send (i : ℕ) (outcome : Except SessionChannelError Unit)

namespace Broker

/-- A new state for a peer, `peers.insert`. -/
def setPeer (b : Broker) (peerId : String) (state : MeshPeerAdmissionState) : Broker :=
  { b with peers := Function.update b.peers peerId (some state) }

/-- A new state for a session. -/
def setSession (b : Broker) (i : ℕ) (s : Session) : Broker :=
  { b with sessions := b.sessions.set i s }

/-- `receive_request` and the loop around it. -/
def receive (s : Session) : Except SessionChannelError (Option SessionMessage) → Session
  | .error error => { s with closed := true, phase := .finished (.error (.session error)) }
  | .ok none => { s with phase := .finished (.ok ()) }
  | .ok (some request) =>
    match s.acceptInboundRequest request with
    | (.error error, s) => { s with phase := .finished (.error (.session error)) }
    | (.ok (), s) =>
      if isServed request.capability then { s with phase := .admitting request } else s

/-- The first section under the lock. -/
def admission (codec : PayloadCodec) (b : Broker) (i : ℕ) (s : Session)
    (request : SessionMessage) (nowEpochMs : ℕ) : Broker :=
  let peer := (b.peers s.peerId).getD (.new s.peerId)
  match admitAuthenticatedCapability codec request.capability request.payload nowEpochMs peer with
  | (.error error, peer) =>
    (b.setPeer s.peerId peer).setSession i { s with phase := .finished (.error error) }
  | (.ok _, peer) =>
    (b.setPeer s.peerId peer).setSession i { s with phase := .processing request }

/-- `process_request` and the conversion of the response.  Both leave the function by `?`. -/
def process (s : Session) (request : SessionMessage) (processing : Processing)
    (response : Option Json) : Session :=
  match s.processRequest request processing with
  | (.error error, s) => { s with phase := .finished (.error (.session error)) }
  | (.ok (), s) =>
    match response with
    | none => { s with phase := .finished (.error .transportUnavailable) }
    | some payload => { s with phase := .sending request payload }

/-- The end of `send_response`, and the second section under the lock. -/
def send (b : Broker) (i : ℕ) (s : Session) (outcome : Except SessionChannelError Unit) :
    Broker :=
  let released :=
    match b.peers s.peerId with
    | some peer => b.setPeer s.peerId (releaseAuthenticatedAdmission peer)
    | none => b
  released.setSession i { s with phase := .finished (outcome.mapError .session) }

/-- One event; a session is only taken on from the point where it stands. -/
def step (codec : PayloadCodec) (b : Broker) : Event → Broker
  | .accept peerId => { b with sessions := b.sessions ++ [⟨peerId, [], false, .receiving⟩] }
  | .receive i outcome =>
    match b.sessions[i]? with
    | some s =>
      match s.phase with
      | .receiving => b.setSession i (receive s outcome)
      | _ => b
    | none => b
  | .admission i nowEpochMs =>
    match b.sessions[i]? with
    | some s =>
      match s.phase with
      | .admitting request => admission codec b i s request nowEpochMs
      | _ => b
    | none => b
  | .process i processing response =>
    match b.sessions[i]? with
    | some s =>
      match s.phase with
      | .processing request => b.setSession i (process s request processing response)
      | _ => b
    | none => b
  | .send i outcome =>
    match b.sessions[i]? with
    | some s =>
      match s.phase with
      | .sending _ _ => send b i s outcome
      | _ => b
    | none => b

/-- The broker after some events. -/
def run (codec : PayloadCodec) (events : List Event) : Broker :=
  events.foldl (step codec) start

/-- The stored count of a peer. -/
def inFlight (b : Broker) (peerId : String) : ℕ :=
  ((b.peers peerId).map MeshPeerAdmissionState.inFlightRequests).getD 0

end Broker

/-- The request of the session was admitted and is still being served. -/
def Session.isServing (s : Session) : Bool :=
  match s.phase with
  | .processing _ | .sending _ _ => true
  | _ => false

/-- The requests of a peer that were admitted and are still being served. -/
def Broker.serving (b : Broker) (peerId : String) : ℕ :=
  b.sessions.countP fun s => s.peerId = peerId && s.isServing

/-! ## What a step does -/

namespace Broker

/-- The steps of a broker, each with the point where its session stands. -/
inductive Moves (codec : PayloadCodec) (b : Broker) : Event → Broker → Prop
  | stay (e : Event) : Moves codec b e b
  | accept (peerId : String) :
      Moves codec b (.accept peerId)
        { b with sessions := b.sessions ++ [⟨peerId, [], false, .receiving⟩] }
  | receive {i : ℕ} {s : Session} (outcome : Except SessionChannelError (Option SessionMessage)) :
      b.sessions[i]? = some s → s.phase = .receiving →
      Moves codec b (.receive i outcome) (b.setSession i (receive s outcome))
  | admission {i : ℕ} {s : Session} {request : SessionMessage} (nowEpochMs : ℕ) :
      b.sessions[i]? = some s → s.phase = .admitting request →
      Moves codec b (.admission i nowEpochMs) (admission codec b i s request nowEpochMs)
  | process {i : ℕ} {s : Session} {request : SessionMessage} (processing : Processing)
      (response : Option Json) :
      b.sessions[i]? = some s → s.phase = .processing request →
      Moves codec b (.process i processing response)
        (b.setSession i (process s request processing response))
  | send {i : ℕ} {s : Session} {request : SessionMessage} {payload : Json}
      (outcome : Except SessionChannelError Unit) :
      b.sessions[i]? = some s → s.phase = .sending request payload →
      Moves codec b (.send i outcome) (send b i s outcome)

/-- Every step is one of these. -/
theorem step_moves (c : PayloadCodec) (b : Broker) (e : Event) : Moves c b e (step c b e) := by
  cases e with
  | accept pei => exact .accept pei
  | receive i outcome =>
    simp only [step]
    split
    · split
      · exact .receive outcome ‹_› ‹_›
      · exact .stay _
    · exact .stay _
  | admission i nems =>
    simp only [step]
    split
    · split
      · exact .admission nems ‹_› ‹_›
      · exact .stay _
    · exact .stay _
  | process i p r =>
    simp only [step]
    split
    · split
      · exact .process p r ‹_› ‹_›
      · exact .stay _
    · exact .stay _
  | send i outcome =>
    simp only [step]
    split
    · split
      · exact .send outcome ‹_› ‹_›
      · exact .stay _
    · exact .stay _

/-! ## Counting -/

/-- One for a session that serves a request of the peer. -/
def load (s : Session) (peerId : String) : ℕ :=
  if s.peerId = peerId && s.isServing then 1 else 0

theorem load_of_idle {s : Session} (h : s.isServing = false) (peerId : String) :
    load s peerId = 0 := by
  simp [load, h]

theorem load_of_serving {s : Session} (h : s.isServing = true) : load s s.peerId = 1 := by
  simp [load, h]

/-- Two sessions of one peer that both serve, or both do not, count the same. -/
theorem load_congr {s s' : Session} (hp : s'.peerId = s.peerId)
    (hs : s'.isServing = s.isServing) (peerId : String) : load s' peerId = load s peerId := by
  unfold load
  rw [hp, hs]

@[simp] theorem inFlight_setSession (b : Broker) (i : ℕ) (s : Session) (peerId : String) :
    (b.setSession i s).inFlight peerId = b.inFlight peerId := rfl

@[simp] theorem serving_setPeer (b : Broker) (q : String) (s : MeshPeerAdmissionState)
    (peerId : String) : (b.setPeer q s).serving peerId = b.serving peerId := rfl

theorem inFlight_setPeer (b : Broker) (q : String) (s : MeshPeerAdmissionState) (peerId : String) :
    (b.setPeer q s).inFlight peerId = if peerId = q then s.inFlightRequests
      else b.inFlight peerId := by
  unfold inFlight setPeer
  by_cases h : peerId = q
  · subst h
    simp
  · simp [h]

/-- Replacing a session moves the count by the difference of the two loads. -/
theorem serving_setSession {b : Broker} {i : ℕ} {s : Session} (hs : b.sessions[i]? = some s)
    (s' : Session) (peerId : String) :
    (b.setSession i s').serving peerId + load s peerId = b.serving peerId + load s' peerId := by
  obtain ⟨hi, rfl⟩ := List.getElem?_eq_some_iff.mp hs
  unfold serving setSession load
  rw [List.countP_set hi]
  have hp : (b.sessions[i].peerId = peerId && b.sessions[i].isServing) = true →
      0 < b.sessions.countP fun s => s.peerId = peerId && s.isServing := by
    intro h
    exact List.countP_pos_iff.mpr ⟨_, List.getElem_mem hi, h⟩
  split
  · have := hp ‹_›
    omega
  · omega

/-- The state that an admission starts from. -/
theorem inFlight_getD (b : Broker) (peerId : String) :
    ((b.peers peerId).getD (.new peerId)).inFlightRequests = b.inFlight peerId := by
  unfold inFlight
  cases b.peers peerId <;> rfl

/-! ## The sections under the lock -/

/-- A decision that allows a request found the peer below its cap. -/
theorem decideAdmission_below_cap {limits : MeshAdmissionLimits} {s : MeshPeerAdmissionState}
    {r : MeshAdmissionRequest}
    (h : (decideAdmission limits s r).allowed = true) :
    s.inFlightRequests < limits.maxConcurrentRequestsPerPeer := by
  by_contra hcap
  rw [not_lt] at hcap
  revert h
  simp only [decideAdmission]
  split
  · simp [MeshAdmissionDecision.allowed, decision]
  · split
    · simp [MeshAdmissionDecision.allowed, decision]
    · rw [if_pos hcap]
      simp [MeshAdmissionDecision.allowed, decision]

@[simp] theorem countRefusal_inFlightRequests (s : MeshPeerAdmissionState)
    (reason : MeshAdmissionReason) :
    (countRefusal s reason).inFlightRequests = s.inFlightRequests := by
  cases reason <;> rfl

/-- An admission raises the count by one, from below the cap, or leaves it. -/
theorem admitAuthenticatedCapability_cases (co : PayloadCodec) (c : FrameCapability)
    (p : Json) (nowMs : ℕ) (peer : MeshPeerAdmissionState) :
    (∃ decision s, admitAuthenticatedCapability co c p nowMs peer = (.ok decision, s) ∧
        peer.inFlightRequests < 4 ∧ s.inFlightRequests = peer.inFlightRequests + 1) ∨
      ∃ error s, admitAuthenticatedCapability co c p nowMs peer
          = (.error error, s) ∧ s.inFlightRequests = peer.inFlightRequests := by
  simp only [admitAuthenticatedCapability]
  generalize hd : admitAuthenticatedMeshCapabilityWithState peer _ _ _ _ nowMs = decision
  split
  · rename_i ha
    have hb : peer.inFlightRequests < 4 := by
      rw [← hd] at ha
      exact decideAdmission_below_cap ha
    refine .inl ⟨_, _, rfl, hb, ?_⟩
    rw [recordAuthenticatedAdmission, if_pos ha]
    exact satAdd32_of_le (by unfold u32Max; omega)
  · rename_i ha
    refine .inr ⟨_, _, rfl, ?_⟩
    rw [recordAuthenticatedAdmission, if_neg ha]
    simp

/-! ## The invariant -/

/-- The stored counts are the requests being served and stay within the cap, and a request
that is being admitted or processed stands in the ledger of its session. -/
structure Sound (b : Broker) : Prop where
  counts : ∀ peerId, b.inFlight peerId = b.serving peerId
  capped : ∀ peerId, b.inFlight peerId ≤ 4
  ledger : ∀ s ∈ b.sessions, ∀ request,
    s.phase = .admitting request ∨ s.phase = .processing request →
      s.pending request.correlationId = some ⟨request.capability⟩

theorem sound_start : Sound start where
  counts _ := rfl
  capped _ := Nat.zero_le _
  ledger _ hs := absurd hs List.not_mem_nil

/-- A session whose load stays the same may be replaced. -/
theorem Sound.setSession {b : Broker} (hb : b.Sound) {i : ℕ} {s s' : Session}
    (hs : b.sessions[i]? = some s) (hlo : ∀ peerId, load s' peerId = load s peerId)
    (hl : ∀ r, s'.phase = .admitting r ∨ s'.phase = .processing r →
      s'.pending r.correlationId = some ⟨r.capability⟩) :
    (b.setSession i s').Sound where
  counts peerId := by
    have := serving_setSession hs s' peerId
    have := hlo peerId
    rw [inFlight_setSession, hb.counts peerId]
    omega
  capped := hb.capped
  ledger x hx := by
    rcases List.mem_or_eq_of_mem_set hx with h | rfl
    · exact hb.ledger x h
    · exact hl

/-- A session and the state of its peer are replaced together, and the count follows the
load. -/
theorem Sound.setPeer {b : Broker} (hb : b.Sound) {i : ℕ} {s s' : Session}
    {sta : MeshPeerAdmissionState} (hs : b.sessions[i]? = some s) (hp : s'.peerId = s.peerId)
    (hlo : sta.inFlightRequests + load s s.peerId = b.inFlight s.peerId + load s' s.peerId)
    (hc : sta.inFlightRequests ≤ 4)
    (hl : ∀ r, s'.phase = .admitting r ∨ s'.phase = .processing r →
      s'.pending r.correlationId = some ⟨r.capability⟩) :
    ((b.setPeer s.peerId sta).setSession i s').Sound where
  counts peerId := by
    have hse := serving_setSession (b := b.setPeer s.peerId sta) hs s' peerId
    rw [serving_setPeer] at hse
    rw [inFlight_setSession, inFlight_setPeer]
    split
    · rename_i heq
      subst heq
      have := hb.counts s.peerId
      omega
    · rename_i hne
      have hz : load s peerId = 0 := by simp [load, Ne.symm hne]
      have hz' : load s' peerId = 0 := by simp [load, hp, Ne.symm hne]
      have := hb.counts peerId
      omega
  capped peerId := by
    rw [inFlight_setSession, inFlight_setPeer]
    split
    · exact hc
    · exact hb.capped peerId
  ledger x hx := by
    rcases List.mem_or_eq_of_mem_set hx with h | rfl
    · exact hb.ledger x h
    · exact hl

/-- A request that was accepted stands in the ledger. -/
theorem acceptInboundRequest_cases (s : Session) (message : SessionMessage) :
    (∃ error s', s.acceptInboundRequest message = (.error error, s') ∧
        s'.peerId = s.peerId ∧ s'.phase = s.phase) ∨
      ∃ s', s.acceptInboundRequest message = (.ok (), s') ∧ s'.peerId = s.peerId ∧
        s'.phase = s.phase ∧
        s'.pending message.correlationId = some ⟨message.capability⟩ := by
  simp only [Session.acceptInboundRequest]
  split
  · exact .inl ⟨_, _, rfl, rfl, rfl⟩
  · split
    · exact .inl ⟨_, _, rfl, rfl, rfl⟩
    · exact .inr ⟨_, rfl, rfl, rfl, by simp [Session.pending, Session.insertPending]⟩

/-- Receiving serves nothing yet. -/
theorem receive_spec {s : Session} (hph : s.phase = .receiving)
    (outcome : Except SessionChannelError (Option SessionMessage)) :
    (receive s outcome).isServing = false ∧ ∀ r, (receive s outcome).phase = .admitting r ∨
          (receive s outcome).phase = .processing r →
        (receive s outcome).pending r.correlationId = some ⟨r.capability⟩ := by
  rcases outcome with error | _ | message
  · simp [receive, Session.isServing]
  · simp [receive, Session.isServing]
  · rcases acceptInboundRequest_cases s message with
      ⟨error, s', ha, -, -⟩ | ⟨s', ha, -, hp', hp⟩
    · simp [receive, ha, Session.isServing]
    · simp only [receive, ha]
      split
      · refine ⟨rfl, ?_⟩
        rintro r (h | h)
        · cases h
          exact hp
        · cases h
      · rw [hph] at hp'
        simp [Session.isServing, hp']

/-- A request whose ledger entry is there and whose budget is not zero is processed to the
end when nothing interrupts it. -/
theorem process_undisturbed {s : Session} {r : SessionMessage} {p : Json}
    (hl : s.pending r.correlationId = some ⟨r.capability⟩)
    (hb : r.requestedBudgetMs ≠ 0) :
    process s r ⟨none, false, none⟩ (some p) = { s with phase := .sending r p } := by
  simp [process, Session.processRequest, hl, hb]

/-! ## Runs -/

/-- The processing of an admitted request is not disturbed: its budget is not zero and does
not run out, the session is not cancelled, and the response becomes a payload. -/
def Undisturbed (b : Broker) : Event → Prop
  | .process i processing response =>
    ∀ s request, b.sessions[i]? = some s → s.phase = .processing request →
      request.requestedBudgetMs ≠ 0 ∧ processing = ⟨none, false, none⟩ ∧ response.isSome
  | _ => True

/-- The states of the runs in which no processing is disturbed. -/
inductive Reached (codec : PayloadCodec) : Broker → Prop
  | start : Reached codec start
  | step {b : Broker} (e : Event) :
      Reached codec b → b.Undisturbed e → Reached codec (b.step codec e)

/-- One step keeps the invariant. -/
theorem Sound.moves {c : PayloadCodec} {b b' : Broker} {e : Event} (hb : b.Sound)
    (he : b.Undisturbed e) (h : Moves c b e b') : b'.Sound := by
  cases h with
  | stay => exact hb
  | accept peerId =>
    refine ⟨?_, hb.capped, ?_⟩
    · intro p
      have hc : Broker.serving
          { b with sessions := b.sessions ++ [⟨peerId, [], false, .receiving⟩] } p
            = b.serving p := by
        unfold serving
        rw [List.countP_append]
        simp [Session.isServing]
      rw [hc]
      exact hb.counts p
    · intro s hs re hp
      rcases List.mem_append.mp hs with ho | hn
      · exact hb.ledger s ho re hp
      · rw [List.mem_singleton] at hn
        subst hn
        simp at hp
  | receive outcome hs hp =>
    obtain ⟨hi, hl⟩ := receive_spec hp outcome
    refine hb.setSession hs ?_ hl
    intro peerId
    rw [load_of_idle hi, load_of_idle]
    simp [Session.isServing, hp]
  | @admission i s re nowMs hs hp =>
    have hi : load s s.peerId = 0 := load_of_idle (by simp [Session.isServing, hp]) _
    have hst := inFlight_getD b s.peerId
    have hen := hb.ledger s (List.mem_of_getElem? hs) re (.inl hp)
    simp only [admission]
    rcases admitAuthenticatedCapability_cases c re.capability re.payload nowMs
        ((b.peers s.peerId).getD (.new s.peerId)) with
      ⟨decision, state, hadmission, hbelow, hraised⟩ | ⟨error, state, hadmission, hsame⟩
    · simp only [hadmission]
      have hse : load { s with phase := .processing re } s.peerId = 1 := load_of_serving rfl
      refine hb.setPeer hs rfl (by omega) (by omega) ?_
      rintro r (h | h)
      · cases h
      · cases h
        exact hen
    · simp only [hadmission]
      have hend : load { s with phase := .finished (.error error) } s.peerId = 0 :=
        load_of_idle rfl _
      have hca := hb.capped s.peerId
      exact hb.setPeer hs rfl (by omega) (by omega) (by simp)
  | @process i s re pr res hs hp =>
    obtain ⟨hbu, rfl, hso⟩ := he s re hs hp
    obtain ⟨pa, rfl⟩ := Option.isSome_iff_exists.mp hso
    have hen := hb.ledger s (List.mem_of_getElem? hs) re (.inr hp)
    rw [process_undisturbed hen hbu]
    refine hb.setSession hs ?_ (by simp)
    exact load_congr rfl (by simp [Session.isServing, hp])
  | @send i s re pa outcome hs hp =>
    have hlo : load s s.peerId = 1 := load_of_serving (by simp [Session.isServing, hp])
    -- a request is being served, so the count is not zero and its peer is in the map
    have hpo : 1 ≤ b.inFlight s.peerId := by
      rw [hb.counts s.peerId]
      refine List.countP_pos_iff.mpr ⟨s, List.mem_of_getElem? hs, ?_⟩
      simp [Session.isServing, hp]
    cases hpe : b.peers s.peerId with
    | none => simp [inFlight, hpe] at hpo
    | some peer =>
      have hc : b.inFlight s.peerId = peer.inFlightRequests := by simp [inFlight, hpe]
      have hca := hb.capped s.peerId
      simp only [send, hpe]
      have hend : load { s with phase := .finished (outcome.mapError .session) } s.peerId = 0 :=
        load_of_idle rfl _
      have hr : (releaseAuthenticatedAdmission peer).inFlightRequests
          = peer.inFlightRequests - 1 := rfl
      exact hb.setPeer hs rfl (by omega) (by omega) (by simp)

/-- **Every reachable broker is sound**. -/
theorem Reached.sound {c : PayloadCodec} {b : Broker} (h : Reached c b) : b.Sound := by
  induction h with
  | start => exact sound_start
  | step e _ he ih => exact ih.moves he (step_moves c _ e)

/-- The decision throttles a peer because too many of its requests are in flight. -/
def ThrottledForConcurrency (decision : MeshAdmissionDecision) : Prop :=
  decision.reason = .peerThrottled ∧ decision.backoffUntilEpochMs = none

/-- Only a peer at its cap is throttled for concurrency. -/
theorem cap_of_throttledForConcurrency {limits : MeshAdmissionLimits}
    {s : MeshPeerAdmissionState} {r : MeshAdmissionRequest}
    (h : ThrottledForConcurrency (decideAdmission limits s r)) :
    limits.maxConcurrentRequestsPerPeer ≤ s.inFlightRequests := by
  by_contra hcap
  revert h
  simp only [decideAdmission]
  split
  · simp [ThrottledForConcurrency, decision]
  · split
    · simp [ThrottledForConcurrency, decision]
    · rw [if_neg hcap]
      split_ifs <;> simp [ThrottledForConcurrency, decision]

/-- **The count is the number of requests being served**, in every state of every run in which
no processing is disturbed; so a peer with nothing in service is never throttled for
concurrency. -/
theorem in_flight_eq_serving (codec : PayloadCodec) (b : Broker) (hb : Reached codec b)
    (peerId : String) :
    b.inFlight peerId = b.serving peerId ∧
      (b.serving peerId = 0 → ∀ kind payloadBytes eventCount bodyFetchBytes nowEpochMs,
        ¬ ThrottledForConcurrency (admitAuthenticatedMeshCapabilityWithState
          ((b.peers peerId).getD (.new peerId)) kind payloadBytes eventCount bodyFetchBytes
          nowEpochMs)) := by
  have hc := hb.sound.counts peerId
  refine ⟨hc, ?_⟩
  intro hi kind payloadBytes eventCount bodyFetchBytes nowEpochMs ht
  have hca := cap_of_throttledForConcurrency ht
  rw [inFlight_getD, hc, hi] at hca
  exact absurd hca (by decide)

/-- A summary request without arguments. -/
def sampleRequest (correlationId : String) : SessionMessage :=
  ⟨correlationId, .summary, 30000, .object []⟩

/-- The text of the empty object has two bytes and is no sync round request. -/
def sampleCodec : PayloadCodec := ⟨fun _ => 2, fun _ => none⟩

/-- Session `i` of the peer is accepted, asks and is admitted. -/
def admitted (i : ℕ) : List Event :=
  [.accept "node_peer", .receive i (.ok (some (sampleRequest "corr-1"))), .admission i 1000000]

/-- The same, with a request that asks for a budget of 0 ms and is processed without any
disturbance. -/
def zeroBudgetRound (i : ℕ) : List Event :=
  [.accept "node_peer",
    .receive i (.ok (some { sampleRequest "corr-1" with requestedBudgetMs := 0 })),
    .admission i 1000000, .process i ⟨none, false, none⟩ (some .null)]

/-- While the response is sent, one request is in flight and one is being served. -/
theorem in_flight_eq_serving_sending :
    let b := run sampleCodec (admitted 0 ++ [Event.process 0 ⟨none, false, none⟩ (some .null)])
    b.inFlight "node_peer" = b.serving "node_peer" ∧ b.serving "node_peer" = 1 := by
  intro b
  have hf : Reached sampleCodec (run sampleCodec (admitted 0)) := .step (.admission 0 1000000)
      (.step (.receive 0 (.ok (some (sampleRequest "corr-1"))))
        (.step (.accept "node_peer") .start trivial) trivial) trivial
  have hb : ∀ s r, (run sampleCodec (admitted 0)).sessions[0]? = some s →
      s.phase = .processing r → r.requestedBudgetMs ≠ 0 := by
    intro s r hs hp
    cases hs
    cases hp
    decide
  have hr : Reached sampleCodec b := .step (.process 0 ⟨none, false, none⟩ (some .null)) hf
      fun s r hs hp => ⟨hb s r hs hp, rfl, rfl⟩
  exact ⟨(in_flight_eq_serving sampleCodec b hr "node_peer").1, by decide +kernel⟩

/-- Four requests of a peer, on four sessions, ask for a budget of 0 ms: each is admitted and
then refused by `process_request`.  Nothing is in service any more, four requests stay in
flight, and the next request of the peer is throttled for concurrency. -/
theorem zero_budgets_leak_in_flight :
    let b := run sampleCodec ([0, 1, 2, 3].flatMap zeroBudgetRound)
    b.serving "node_peer" = 0 ∧ b.inFlight "node_peer" = 4 ∧
      ThrottledForConcurrency (admitAuthenticatedMeshCapabilityWithState
        ((b.peers "node_peer").getD (.new "node_peer")) .tipAdvertise 2 0 0 9000000) := by
  unfold ThrottledForConcurrency
  decide +kernel

end Broker

end ResponderBroker
