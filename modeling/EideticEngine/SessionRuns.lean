/-
# Runs of a session

A run is a sequence of calls, each with what the socket does meanwhile.  Every response
that `receive_response` returns answers a request sent before, and no request is answered
twice (`responses_match_requests`).  An error closes the session for good, except for the
`Closed` that a receive reports after the peer has closed its half: the session can still
send then.
-/
import EideticEngine.SessionChannel

namespace SessionChannel

open RustText Serde TransportSession
open ResponderBroker (SessionChannelError PendingRequest Processing maxBufferedSessionMessages)

/-! ## Runs -/

/-- A call on a session, with what the socket does during it. -/
inductive Call where
  | sendRequest (message : SessionMessage) (write : WriteOutcome)
  | receiveRequest (reads : List ReadOutcome)
  | sendResponse (message : SessionMessage) (write : WriteOutcome)
  | receiveResponse (correlationId : String) (reads : List ReadOutcome)
  | processRequest (request : SessionMessage) (p : Processing)
  | shutdownWrite (write : WriteOutcome)
  | close
  /-- The end of the negotiation: the selected capabilities replace the offered ones. -/
  | select (capabilities : SessionCapabilities)

/-- How a call ended. -/
inductive Outcome where
  | done
  | request (message : Option SessionMessage)
  | response (message : SessionMessage)
  | failed (error : SessionChannelError)
  | dropped

/-- The outcome of a call that does not return a value. -/
def Exit.outcome : Exit → Outcome
  | .failed error => .failed error
  | .dropped => .dropped

/-- The outcome of a call and the session after it. -/
def conclude {α : Type} (value : α → Outcome) : EStateM.Result Exit Session α → Outcome × Session
  | .ok a s => (value a, s)
  | .error exit s => (exit.outcome, s)

/-- One call. -/
def Session.step (codec : Codec) (s : Session) : Call → Outcome × Session
  | .sendRequest message write =>
    conclude (fun _ => .done) (SessionChannel.sendRequest codec message write s)
  | .receiveRequest reads => conclude .request (SessionChannel.receiveRequest codec reads s)
  | .sendResponse message write =>
    conclude (fun _ => .done) (SessionChannel.sendResponse codec message write s)
  | .receiveResponse correlationId reads =>
    conclude .response (SessionChannel.receiveResponse codec correlationId reads s)
  | .processRequest request p =>
    conclude (fun _ => .done) (SessionChannel.processRequest request p s)
  | .shutdownWrite write => conclude (fun _ => .done) (SessionChannel.shutdownWrite write s)
  | .close => (.done, s.close)
  | .select capabilities => (.done, { s with capabilities })

/-- The calls of a run with their outcomes, and the session at its end. -/
def Session.run (codec : Codec) (s : Session) : List Call → List (Call × Outcome) × Session
  | [] => ([], s)
  | call :: calls =>
    let (outcome, s) := s.step codec call
    let (history, s) := s.run codec calls
    ((call, outcome) :: history, s)

/-- The call waits for the peer. -/
def Call.isReceive : Call → Bool
  | .receiveRequest _ | .receiveResponse _ _ => true
  | _ => false

/-! ## One call -/

/-- An outcome and a session satisfy what both ends of a call satisfy. -/
theorem conclude_post {α : Type} {x : Channel α} {s : Session} {Q : α → Session → Prop}
    {E : Exit → Session → Prop} {value : α → Outcome} {R : Outcome × Session → Prop}
    (h : x.Post s Q E) (hQ : ∀ a s', Q a s' → R (value a, s'))
    (hE : ∀ ex s', E ex s' → R (ex.outcome, s')) : R (conclude value (x s)) := by
  cases hx : x s with
  | ok a s' => exact hQ a s' (h.of_ok hx)
  | error ex s' => exact hE ex s' (h.of_error hx)

/-- What a call does when it neither sends a request nor returns a response. -/
structure Session.Passes (s : Session) (call : Call) (result : Outcome × Session) : Prop where
  next : s.toTables.Next result.2.toTables
  not_response : ∀ message, result.1 ≠ .response message
  closed : ∀ error, result.1 = .failed error → result.2.closed = true ∨
    (call.isReceive = true ∧ error = .closed ∧ s.peerWriteClosed = true)

theorem Ended.passes {s s' : Session} {ex : Exit} {c : Call} (h : Ended s ex s')
    (hca : c.isReceive = true) : s.Passes c (ex.outcome, s') := by
  refine ⟨h.1, ?_, ?_⟩
  · intro message
    cases ex <;> simp [Exit.outcome]
  · intro error he
    cases ex with
    | dropped => cases he
    | failed e' =>
      cases he
      rcases h.2 with hd | hc | ⟨hex, hf⟩
      · cases hd
      · exact .inl hc
      · cases hex
        exact .inr ⟨hca, rfl, hf⟩

theorem Broken.passes {s s' : Session} {ex : Exit} {c : Call} (h : s.toTables.Inv)
    (hb : Broken s ex s') : s.Passes c (ex.outcome, s') := by
  refine ⟨hb.1 ▸ h.next, ?_, ?_⟩
  · intro message
    cases ex <;> simp [Exit.outcome]
  · intro error he
    cases ex with
    | dropped => cases he
    | failed e' => exact .inl (hb.2.resolve_left (by simp))

theorem Tables.Next.passes {s s' : Session} {c : Call} (h : s.toTables.Next s'.toTables) :
    s.Passes c (.done, s') :=
  ⟨h, by simp, by simp⟩

/-- What one call can do. -/
inductive Session.Moves (s : Session) : Call → Outcome × Session → Prop where
  | sends {message : SessionMessage} {write : WriteOutcome} {s' : Session} :
      SendsRequest s message s' → s.Moves (.sendRequest message write) (.done, s')
  | answers {id : String} {reads : List ReadOutcome} {message : SessionMessage} {s' : Session} :
      AnswersRequest s id message s' → s.Moves (.receiveResponse id reads) (.response message, s')
  | passes {call : Call} {result : Outcome × Session} : s.Passes call result → s.Moves call result

/-- **Every call sends a request, answers one, or leaves the outstanding ones alone.** -/
theorem Session.step_moves (c : Codec) {s : Session} (h : s.toTables.Inv) (ca : Call) :
    s.Moves ca (s.step c ca) := by
  cases ca with
  | sendRequest message write =>
    exact conclude_post (sendRequest_post c message write h) (fun _ _ => .sends)
      fun _ _ hb => .passes (hb.passes h)
  | receiveRequest rs =>
    exact conclude_post (receiveRequest_post c rs h) (fun _ _ hn => .passes ⟨hn, by simp, by simp⟩)
      fun _ _ he => .passes (he.passes rfl)
  | sendResponse message write =>
    exact conclude_post (sendResponse_post c message write h)
      (fun _ _ hn => .passes hn.passes) fun _ _ hb => .passes (hb.passes h)
  | receiveResponse id rs =>
    exact conclude_post (receiveResponse_post c id rs h) (fun _ _ => .answers)
      fun _ _ he => .passes (he.passes rfl)
  | processRequest r p =>
    refine conclude_post (quiet_processRequest r p s) (fun _ s' hk => .passes ?_)
      fun _ _ hb => .passes (hb.passes h)
    exact Tables.Next.passes (hk.tables ▸ h.next)
  | shutdownWrite write =>
    refine conclude_post (shutdownWrite_post write s) (fun _ s' ht => .passes ?_)
      fun _ _ hb => .passes (hb.passes h)
    exact Tables.Next.passes (ht ▸ h.next)
  | close => exact .passes (Tables.Next.passes h.next)
  | select cs => exact .passes (Tables.Next.passes h.next)

theorem Session.Moves.inv {s : Session} {c : Call} {r : Outcome × Session}
    (h : s.Moves c r) : r.2.toTables.Inv := by
  cases h with
  | sends h => exact h.inv
  | answers h => exact h.inv
  | passes h => exact h.next.inv

/-! ## After a session is closed -/

/-- A closed session, and what it has asked of its socket. -/
def ClosedAt (stream : Traffic) (s : Session) : Prop := s.closed = true ∧ s.stream = stream

variable {stream : Traffic} {s : Session}

theorem ClosedAt.close (h : ClosedAt stream s) : ClosedAt stream s.close := ⟨rfl, h.2⟩

/-- Nothing is sent once the session is closed. -/
theorem validateApplicationMessage_closed (c : Codec) (message : SessionMessage)
    (h : s.closed = true) : validateApplicationMessage c message s = .error .closed := by
  unfold validateApplicationMessage
  simp [h, Except.check, bind, Except.bind]

theorem orFail_validate_closed {β : Type} (c : Codec) (message : SessionMessage)
    (h : ClosedAt stream s) (f : Unit → Channel β) {Q : β → Session → Prop} :
    (orFail (validateApplicationMessage c message) >>= f).Post s Q (fun _ => ClosedAt stream) := by
  rw [EStateM.post_bind, post_orFail, validateApplicationMessage_closed c message h.1]
  exact ⟨nofun, fun _ _ => h.close⟩

/-- Nothing is read once the session is closed. -/
theorem receiveVerified_closed (c : Codec) (read : Option ReadOutcome) (h : ClosedAt stream s) :
    receiveVerified c read s = .error (.failed .closed) s := by
  unfold receiveVerified
  simp only [bind, EStateM.bind, get, getThe, MonadStateOf.get, EStateM.get, h.1, true_or, if_true]
  rfl

theorem receiveVerified_bind_closed {β : Type} (c : Codec) (read : Option ReadOutcome)
    (h : ClosedAt stream s) (f : Option VerifiedFrameV2 → Channel β) {Q : β → Session → Prop} :
    (receiveVerified c read >>= f).Post s Q (fun _ => ClosedAt stream) := by
  rw [EStateM.post_bind]
  unfold EStateM.Post
  rw [receiveVerified_closed c read h]
  exact h

theorem receiveRequest_closed (c : Codec) (rs : List ReadOutcome) (h : ClosedAt stream s) :
    (receiveRequest c rs).Post s (fun _ => ClosedAt stream) (fun _ => ClosedAt stream) := by
  unfold EStateM.Post receiveRequest
  cases s.bufferedRequests with
  | nil =>
    cases rs with
    | nil => exact receiveVerified_bind_closed c none h _
    | cons read rs => exact receiveVerified_bind_closed c (some read) h _
  | cons message r => exact h

theorem receiveResponse_closed (c : Codec) (id : String) (rs : List ReadOutcome)
    (h : ClosedAt stream s) :
    (receiveResponse c id rs).Post s (fun _ => ClosedAt stream) (fun _ => ClosedAt stream) := by
  unfold receiveResponse
  rw [EStateM.post_bind, post_orFail_check]
  refine ⟨?_, fun _ => h.close⟩
  intro _
  rw [EStateM.post_get_bind]
  cases s.bufferedResponses[id]? with
  | some message => exact h
  | none =>
    cases rs with
    | nil => exact receiveVerified_bind_closed c none h _
    | cons read rs => exact receiveVerified_bind_closed c (some read) h _

theorem processRequest_closed (r : SessionMessage) (p : Processing) (h : ClosedAt stream s) :
    (processRequest r p).Post s (fun _ => ClosedAt stream) (fun _ => ClosedAt stream) := by
  unfold processRequest
  rw [EStateM.post_bind, post_orFail]
  refine ⟨fun _ _ => ?_, fun _ _ => h.close⟩
  cases p.before with
  | some message => exact h.close
  | none =>
    cases p.elapsed <;> cases p.after
    · exact h
    all_goals exact h.close

theorem shutdownWrite_closed (write : WriteOutcome) (h : ClosedAt stream s) :
    (shutdownWrite write).Post s (fun _ => ClosedAt stream) (fun _ => ClosedAt stream) := by
  unfold shutdownWrite
  rw [EStateM.post_get_bind, if_pos h.1]
  exact h

/-- **A closed session neither reads nor writes.** -/
theorem Session.step_closed (c : Codec) (h : ClosedAt stream s) (ca : Call) :
    ClosedAt stream (s.step c ca).2 := by
  cases ca with
  | sendRequest message write =>
    exact conclude_post (R := fun r => ClosedAt stream r.2)
      (orFail_validate_closed c message h _) (Q := fun _ => ClosedAt stream)
      (fun _ _ h => h) fun _ _ h => h
  | receiveRequest rs =>
    exact conclude_post (R := fun r => ClosedAt stream r.2)
      (receiveRequest_closed c rs h) (fun _ _ h => h) fun _ _ h => h
  | sendResponse message write =>
    exact conclude_post (R := fun r => ClosedAt stream r.2)
      (orFail_validate_closed c message h _) (Q := fun _ => ClosedAt stream)
      (fun _ _ h => h) fun _ _ h => h
  | receiveResponse id rs =>
    exact conclude_post (R := fun r => ClosedAt stream r.2)
      (receiveResponse_closed c id rs h) (fun _ _ h => h) fun _ _ h => h
  | processRequest re p =>
    exact conclude_post (R := fun r => ClosedAt stream r.2)
      (processRequest_closed re p h) (fun _ _ h => h) fun _ _ h => h
  | shutdownWrite write =>
    exact conclude_post (R := fun r => ClosedAt stream r.2)
      (shutdownWrite_closed write h) (fun _ _ h => h) fun _ _ h => h
  | close => exact h.close
  | select cs => exact h

theorem Session.run_closed (c : Codec) (h : ClosedAt stream s) (cs : List Call) :
    ClosedAt stream (s.run c cs).2 := by
  induction cs generalizing s with
  | nil => exact h
  | cons ca cs ih => exact ih (s.step_closed c h ca)

theorem Session.run_append (c : Codec) (s : Session) (cs l : List Call) : s.run c (cs ++ l)
      = ((s.run c cs).1 ++ ((s.run c cs).2.run c l).1, ((s.run c cs).2.run c l).2) := by
  induction cs generalizing s with
  | nil => rfl
  | cons ca cs ih =>
    simp only [List.cons_append, Session.run]
    rw [ih]

/-! ## What a history shows -/

/-- The call at a position sent a request of this name and capability. -/
def SentAt (history : List (Call × Outcome)) (i : ℕ) (id : String)
    (capability : FrameCapability) : Prop :=
  ∃ message write, history[i]? = some (.sendRequest message write, .done) ∧
    message.correlationId = id ∧ message.capability = capability

/-- The call at a position was a `receive_response` that returned this response. -/
def ReturnedAt (history : List (Call × Outcome)) (j : ℕ) (message : SessionMessage) : Prop :=
  ∃ id reads, history[j]? = some (.receiveResponse id reads, .response message)

/-- Outstanding requests were sent and not answered since, and every answer came after its
request with no other answer in between. -/
structure Matched (history : List (Call × Outcome)) (s : Session) : Prop where
  inv : s.toTables.Inv
  outstanding : ∀ (id : String) (pending : PendingRequest), s.pendingOutbound[id]? = some pending →
    ∃ i, SentAt history i id pending.capability ∧
      ∀ j message, ReturnedAt history j message → message.correlationId = id → j < i
  answered : ∀ j message, ReturnedAt history j message →
    ∃ i, i < j ∧ SentAt history i message.correlationId message.capability ∧
      ∀ k message', ReturnedAt history k message' →
        message'.correlationId = message.correlationId → i < k → j ≤ k
  awaited : ∀ (j : ℕ) (id : String) (reads : List ReadOutcome) (message : SessionMessage),
    history[j]? = some (.receiveResponse id reads, .response message) → message.correlationId = id

theorem SentAt.append {his : List (Call × Outcome)} {i : ℕ} {id : String}
    {c : FrameCapability} (h : SentAt his i id c)
    (l : List (Call × Outcome)) : SentAt (his ++ l) i id c := by
  obtain ⟨message, write, hi, hn⟩ := h
  have hlt : i < his.length := (List.getElem?_eq_some_iff.mp hi).1
  exact ⟨message, write, by rw [List.getElem?_append_left hlt]; exact hi, hn⟩

theorem ReturnedAt.lt {hi : List (Call × Outcome)} {j : ℕ} {message : SessionMessage}
    (h : ReturnedAt hi j message) : j < hi.length := by
  obtain ⟨id, rs, hj⟩ := h
  exact (List.getElem?_eq_some_iff.mp hj).1

theorem SentAt.lt {his : List (Call × Outcome)} {i : ℕ} {id : String}
    {c : FrameCapability} (h : SentAt his i id c) : i < his.length := by
  obtain ⟨message, write, hi, -⟩ := h
  exact (List.getElem?_eq_some_iff.mp hi).1

/-- An entry of a longer history is an old one or the new one. -/
theorem getElem?_concat_cases {α : Type} {l : List α} {x y : α} {j : ℕ}
    (h : (l ++ [x])[j]? = some y) : l[j]? = some y ∨ (j = l.length ∧ y = x) := by
  rcases Nat.lt_or_ge j l.length with hlt | hge
  · rw [List.getElem?_append_left hlt] at h
    exact .inl h
  · have hb := (List.getElem?_eq_some_iff.mp h).1
    rw [List.length_append, List.length_singleton] at hb
    have hj : j = l.length := by omega
    rw [hj, List.getElem?_concat_length] at h
    exact .inr ⟨hj, (Option.some.inj h).symm⟩

theorem ReturnedAt.concat_cases {hi : List (Call × Outcome)} {en : Call × Outcome} {j : ℕ}
    {message : SessionMessage} (h : ReturnedAt (hi ++ [en]) j message) :
    ReturnedAt hi j message ∨ (j = hi.length ∧ en.2 = .response message) := by
  obtain ⟨id, rs, hj⟩ := h
  rcases getElem?_concat_cases hj with ho | ⟨hl, he⟩
  · exact .inl ⟨id, rs, ho⟩
  · exact .inr ⟨hl, by rw [← he]⟩

/-- A call that returns no response shows no new one. -/
theorem Matched.answered_concat {hi : List (Call × Outcome)} (h : Matched hi s)
    (en : Call × Outcome) (he : ∀ message, en.2 ≠ .response message) :
    (∀ j message, ReturnedAt (hi ++ [en]) j message → ReturnedAt hi j message) ∧
    (∀ j message, ReturnedAt (hi ++ [en]) j message →
      ∃ i, i < j ∧ SentAt (hi ++ [en]) i message.correlationId message.capability ∧
        ∀ k m', ReturnedAt (hi ++ [en]) k m' →
          m'.correlationId = message.correlationId → i < k → j ≤ k) ∧
    ∀ (j : ℕ) (id : String) (rs : List ReadOutcome) (message : SessionMessage),
      (hi ++ [en])[j]? = some (.receiveResponse id rs, .response message) →
        message.correlationId = id := by
  have ho : ∀ j message, ReturnedAt (hi ++ [en]) j message →
      ReturnedAt hi j message := by
    intro j message hr
    exact hr.concat_cases.resolve_right fun hn => he message hn.2
  refine ⟨ho, ?_, ?_⟩
  · intro j message hr
    obtain ⟨i, hlt, hs, hb⟩ := h.answered j message (ho j message hr)
    exact ⟨i, hlt, hs.append _, fun k m' hk => hb k m' (ho k m' hk)⟩
  · intro j id rs message hj
    rcases getElem?_concat_cases hj with hj | ⟨-, hl⟩
    · exact h.awaited j id rs message hj
    · exact absurd (by rw [← hl]) (he message)

/-- A call extends a matched history. -/
theorem Matched.step {hi : List (Call × Outcome)} (h : Matched hi s) {c : Call}
    {r : Outcome × Session} (hm : s.Moves c r) :
    Matched (hi ++ [(c, r.1)]) r.2 := by
  cases hm with
  | @sends message write s' hse =>
    obtain ⟨ho, han, haw⟩ := h.answered_concat (.sendRequest message write, .done) (by simp)
    refine ⟨hse.inv, ?_, han, haw⟩
    intro id pending hp
    rw [hse.outbound, Std.ExtTreeMap.getElem?_insert_ite] at hp
    split at hp
    · rename_i hid
      cases hp
      refine ⟨hi.length, ⟨message, write, List.getElem?_concat_length, hid, rfl⟩, ?_⟩
      exact fun j a hr _ => (ho j a hr).lt
    · obtain ⟨i, hs, hl⟩ := h.outstanding id pending hp
      exact ⟨i, hs.append _, fun j a hr => hl j a (ho j a hr)⟩
  | @answers id rs message s' ha =>
    obtain ⟨i, hs, hl⟩ := h.outstanding id _ ha.pending
    have hid := ha.id_eq
    refine ⟨ha.inv, ?_, ?_, ?_⟩
    · intro other pending hp
      rw [ha.outbound, Std.ExtTreeMap.getElem?_erase_ite] at hp
      split at hp
      · cases hp
      · rename_i hne
        obtain ⟨i', hs', hl'⟩ := h.outstanding other pending hp
        refine ⟨i', hs'.append _, ?_⟩
        intro j a hr hn
        rcases hr.concat_cases with hr | ⟨-, hnew⟩
        · exact hl' j a hr hn
        · cases hnew
          exact absurd (hid.symm.trans hn) hne
    · intro j a hr
      rcases hr.concat_cases with hr | ⟨hla, hnew⟩
      · obtain ⟨i', hlt, hs', hb⟩ := h.answered j a hr
        refine ⟨i', hlt, hs'.append _, ?_⟩
        intro k a' hk hn hik
        rcases hk.concat_cases with hk | ⟨hla, -⟩
        · exact hb k a' hk hn hik
        · exact hla ▸ hr.lt.le
      · cases hnew
        rw [← hid] at hs hl
        refine ⟨i, hla ▸ hs.lt, hs.append _, ?_⟩
        intro k a' hk hn hik
        rcases hk.concat_cases with hk | ⟨hk, -⟩
        · exact absurd (hl k a' hk hn) (by omega)
        · omega
    · intro j other rs' a hj
      rcases getElem?_concat_cases hj with hj | ⟨-, hla⟩
      · exact h.awaited j other rs' a hj
      · cases hla
        exact hid
  | passes hpa =>
    obtain ⟨ho, han, haw⟩ := h.answered_concat (c, r.1) hpa.not_response
    refine ⟨hpa.next.inv, ?_, han, haw⟩
    intro id pending hp
    rw [hpa.next.outbound] at hp
    obtain ⟨i, hs, hl⟩ := h.outstanding id pending hp
    exact ⟨i, hs.append _, fun j a hr => hl j a (ho j a hr)⟩

/-- **A run keeps responses matched**. -/
theorem Matched.run (c : Codec) {hi : List (Call × Outcome)} (h : Matched hi s) (cs : List Call) :
    Matched (hi ++ (s.run c cs).1) (s.run c cs).2 := by
  induction cs generalizing s hi with
  | nil =>
    rw [Session.run, List.append_nil]
    exact h
  | cons ca cs ih =>
    have hn := ih (h.step (s.step_moves c h.inv ca))
    rw [List.append_assoc] at hn
    exact hn

/-! ## Responses match requests -/

/-- After an error that counts, the rest of the run asks nothing more of the socket: no packet
is read and none is written. -/
def SilentAfterErrors (codec : Codec) (start : Session) (calls : List Call)
    (Counts : Session → Call → SessionChannelError → Prop) : Prop :=
  ∀ before call later error, calls = before ++ call :: later →
    ((start.run codec before).2.step codec call).1 = .failed error →
    Counts (start.run codec before).2 call error →
    (start.run codec calls).2.stream = ((start.run codec before).2.step codec call).2.stream

/-- A receive reports `Closed` because the peer has closed its half, while the own half is
open. -/
def PeerHalfClosed (s : Session) (call : Call) (error : SessionChannelError) : Prop :=
  call.isReceive = true ∧ error = .closed ∧ s.closed = false ∧ s.peerWriteClosed = true

/-- A run keeps the invariant of the tables. -/
theorem Session.run_inv (c : Codec) (h : s.toTables.Inv) (cs : List Call) :
    (s.run c cs).2.toTables.Inv := by
  induction cs generalizing s with
  | nil => exact h
  | cons ca cs ih => exact ih (s.step_moves c h ca).inv

/-- An error of one call closes the session, unless the peer has closed its half only. -/
theorem Session.closed_of_failed (codec : Codec) (h : s.toTables.Inv) {c : Call}
    {error : SessionChannelError} (he : (s.step codec c).1 = .failed error)
    (hco : ¬ PeerHalfClosed s c error) : (s.step codec c).2.closed = true := by
  have hp : s.Passes c (s.step codec c) := by
    have hm := s.step_moves codec h c
    generalize s.step codec c = r at he hm
    cases hm with
    | sends _ => cases he
    | answers _ => cases he
    | passes hp => exact hp
  rcases hp.closed error he with hc | ⟨hr, rfl, hf⟩
  · exact hc
  · cases ho : s.closed with
    | true => exact (s.step_closed codec ⟨ho, rfl⟩ c).1
    | false => exact absurd ⟨hr, rfl, ho, hf⟩ hco

/-- Every error but the one of a half-closed peer ends the traffic. -/
theorem silentAfterErrors (c : Codec) {start : Session} (h : start.toTables.Inv) (cs : List Call) :
    SilentAfterErrors c start cs fun s ca error => ¬ PeerHalfClosed s ca error := by
  rintro b ca l error rfl he hco
  have hc := Session.closed_of_failed c (start.run_inv c h b) he hco
  rw [Session.run_append]
  exact (Session.run_closed c ⟨hc, rfl⟩ l).2

/-- A history has a function from responses to their requests. -/
theorem Matched.exists_requestOf {his : List (Call × Outcome)} (h : Matched his s) : ∃ ro : ℕ → ℕ,
      Set.InjOn ro {j | ∃ message, ReturnedAt his j message} ∧
      ∀ j message, ReturnedAt his j message → ro j < j ∧
        SentAt his (ro j) message.correlationId message.capability := by
  have he : ∀ j, ∃ i, ∀ message, ReturnedAt his j message →
      i < j ∧ SentAt his i message.correlationId message.capability ∧ ∀ k m', ReturnedAt his k m' →
          m'.correlationId = message.correlationId → i < k → j ≤ k := by
    intro j
    by_cases hj : ∃ message, ReturnedAt his j message
    · obtain ⟨message, id, rs, hj⟩ := hj
      obtain ⟨i, hi⟩ := h.answered j message ⟨id, rs, hj⟩
      refine ⟨i, ?_⟩
      rintro m' ⟨id', rs', hj'⟩
      rw [hj] at hj'
      cases hj'
      exact hi
    · exact ⟨0, fun message hm => absurd ⟨message, hm⟩ hj⟩
  choose ro hrequestOf using he
  refine ⟨ro, ?_, ?_⟩
  · rintro j ⟨message, hj⟩ k ⟨m', hk⟩ hsa
    obtain ⟨hl, hs, hb⟩ := hrequestOf j message hj
    obtain ⟨hlt, hse, hbe⟩ := hrequestOf k m' hk
    -- one request has one name
    have hn : m'.correlationId = message.correlationId := by
      obtain ⟨r, write, hi, hid, -⟩ := hs
      obtain ⟨r', w', hi', h', -⟩ := hse
      rw [← hsa, hi] at hi'
      cases hi'
      exact h'.symm.trans hid
    have hjk := hb k m' hk hn (by omega)
    have hkj := hbe j message hj hn.symm (by omega)
    exact le_antisymm hjk hkj
  · intro j message hj
    exact ⟨(hrequestOf j message hj).1, (hrequestOf j message hj).2.1⟩

/-- **Responses match requests exactly once.** -/
theorem responses_match_requests (codec : Codec) (established : EstablishedSession)
    (role : SessionRole) (capabilities : SessionCapabilities) (limits : SessionChannelLimits)
    (calls : List Call) :
    let start := Session.new established role capabilities limits
    let h := (start.run codec calls).1
    let s := (start.run codec calls).2
    (∃ requestOf : ℕ → ℕ, Set.InjOn requestOf {j | ∃ message, ReturnedAt h j message} ∧
      ∀ j message, ReturnedAt h j message → requestOf j < j ∧
        SentAt h (requestOf j) message.correlationId message.capability) ∧
    (∀ (j : ℕ) (id : String) (outcomes : List ReadOutcome) (message : SessionMessage),
      h[j]? = some (.receiveResponse id outcomes, .response message) → message.correlationId = id) ∧
    (∀ (id : String) (message : SessionMessage), s.bufferedResponses[id]? = some message →
      message.correlationId = id ∧ id ∈ s.pendingOutbound) ∧
    (s.pendingOutbound.size ≤ 32 ∧ s.pendingInbound.size ≤ 32 ∧ s.bufferedRequests.length ≤ 32 ∧
      s.bufferedResponses.size ≤ 32) ∧
    SilentAfterErrors codec start calls fun s c error => ¬ PeerHalfClosed s c error := by
  intro start h s
  have hi : start.toTables.Inv := Session.inv_new established role capabilities limits
  have hs : Matched [] start := by
    refine ⟨hi, ?_, ?_, ?_⟩
    · intro id pending hp
      simp [start, Session.new] at hp
    · rintro j message ⟨id, outcomes, hj⟩
      simp at hj
    · intro j id outcomes message hj
      simp at hj
  have hm : Matched h s := hs.run codec calls
  refine ⟨hm.exists_requestOf, hm.awaited, ?_, ?_, silentAfterErrors codec hi calls⟩
  · intro id message hb
    obtain ⟨hn, hp⟩ := hm.inv.buffered id message hb
    refine ⟨hn, ?_⟩
    rw [Std.ExtTreeMap.mem_iff_isSome_getElem?, hp]
    rfl
  · exact ⟨hm.inv.outbound_le, hm.inv.inbound_le, hm.inv.requests_le, hm.inv.responses_le⟩

/-! ## A half-closed peer -/

/-- The second frame of an initiator, after the negotiation. -/
def secondFrame : FrameV2 :=
  { FrameDraft.unsigned
      { direction := .initiatorToResponder
        counter := 2
        correlationId := "corr-0002"
        kind := .request
        capability := .summary
        requestedBudgetMs := 30000
        payload := .object [] } katBinding katPayloadHash with
    mac := "70342b1e482fe0052686007e8e972ef353d2d962c84cdf74c36783339b4319ad" }

/-- The libraries on the second frame. -/
def secondFrameCodec : Codec where
  serde := katSerde
  blake3 :=
    { katBlake3 with
      keyedHash := fun key bytes =>
        if key = katKeys.initiatorToResponder ∧ bytes = secondFrame.macPreimage then
          digest "70342b1e482fe0052686007e8e972ef353d2d962c84cdf74c36783339b4319ad"
        else digest "" }
  frameToVec _ := .ok (asBytes
    ("\x7b\"schema\":\"ee.mesh.tailscale_transport_frame.v2\"" ++
    ",\"sourceNodeId\":\"node-init\",\"targetNodeId\":\"node-resp\"" ++
    ",\"teamId\":\"team-kat\",\"sourceWorkspaceId\":\"ws-init\"" ++
    ",\"targetWorkspaceId\":\"ws-resp\",\"sessionId\":\"sess-0001\"" ++
    ",\"direction\":\"initiator_to_responder\",\"counter\":2" ++
    ",\"correlationId\":\"corr-0002\",\"kind\":\"request\",\"capability\":\"summary\"" ++
    ",\"requestedBudgetMs\":30000,\"payload\":\x7b\x7d" ++
    ",\"payloadHash\":\"6e46dd10defc9b56c29a6ec56b508c21f54c08192194e4df25bf36f0c9c3c279\"" ++
    ",\"mac\":\"70342b1e482fe0052686007e8e972ef353d2d962c84cdf74c36783339b4319ad\"\x7d"))
  debug token := "\"" ++ token ++ "\""

/-- An initiator that has exchanged the two frames of the negotiation. -/
def negotiatedInitiator : Session :=
  Session.new ⟨katBinding, katKeys, ⟨2, false, false⟩, 2⟩ .initiator
    ⟨["body_fetch", "event_fetch", "hello", "identity_attest", "summary"]⟩
    ⟨30000, 4096, 67108864⟩

/-- The peer closes its half; the next receive reports `Closed`; then a request is sent. -/
def halfClosedRun : List Call :=
  [.receiveRequest [.endOfStream], .receiveRequest [],
    .sendRequest ⟨"corr-0002", .summary, 30000, .object []⟩ .written]

/-- **A session still sends after a receive has reported `Closed`.** -/
theorem sends_after_closed_error :
    ¬ SilentAfterErrors secondFrameCodec negotiatedInitiator halfClosedRun fun _ _ _ => True := by
  intro hs
  have hsa := hs [.receiveRequest [.endOfStream]] (.receiveRequest [])
    [.sendRequest ⟨"corr-0002", .summary, 30000, .object []⟩ .written] .closed rfl rfl trivial
  have hw := congrArg (fun stream => stream.writes.length) hsa
  revert hw
  decide +kernel

end SessionChannel
