/-
# Which requests of a session are answered (`src/mesh/transport_session.rs`)

`send_response` looks its correlation up among the requests that were received and not
answered.  A request enters that table when its frame is accepted, and a frame that comes while
the caller waits for a response is accepted at once, long before `receive_request` returns it.
So a session answers requests that it has not returned, unless the caller never names one that
still waits in the buffer (`only_returned_requests_answered`).
-/
import EideticEngine.SessionRuns

namespace SessionChannel

open RustText Serde TransportSession
open ResponderBroker (SessionChannelError PendingRequest maxBufferedSessionMessages)

/-! ## Received requests -/

section Received

variable {s : Session}

/-- The requests that are outstanding or buffered stay as they are. -/
structure Tables.SameRequests (t t' : Tables) : Prop where
  inbound : t'.pendingInbound = t.pendingInbound
  requests : t'.bufferedRequests = t.bufferedRequests

theorem Tables.SameRequests.refl (t : Tables) : t.SameRequests t := ⟨rfl, rfl⟩

theorem Tables.SameRequests.of_eq {t t' : Tables} (h : t' = t) : t.SameRequests t' :=
  h ▸ .refl t

theorem Tables.SameRequests.trans {t₁ t₂ t₃ : Tables} (h : t₁.SameRequests t₂)
    (h' : t₂.SameRequests t₃) : t₁.SameRequests t₃ :=
  ⟨h'.inbound.trans h.inbound, h'.requests.trans h.requests⟩

/-- Whatever has become outstanding waits in the buffer, which only grows. -/
structure Tables.Buffers (t t' : Tables) : Prop where
  inbound : ∀ id ∈ t'.pendingInbound, id ∈ t.pendingInbound ∨
    ∃ request ∈ t'.bufferedRequests, request.correlationId = id
  requests : t.bufferedRequests ⊆ t'.bufferedRequests

theorem Tables.SameRequests.buffers {t t' : Tables} (h : t.SameRequests t') : t.Buffers t' := by
  refine ⟨?_, ?_⟩
  · intro id hid
    rw [h.inbound] at hid
    exact .inl hid
  · rw [h.requests]
    exact List.Subset.refl _

theorem Tables.Buffers.trans {t₁ t₂ t₃ : Tables} (h : t₁.Buffers t₂) (h' : t₂.Buffers t₃) :
    t₁.Buffers t₃ := by
  refine ⟨?_, List.Subset.trans h.requests h'.requests⟩
  intro id hid
  rcases h'.inbound id hid with hid | hb
  · rcases h.inbound id hid with hid | ⟨r, hm, hn⟩
    · exact .inl hid
    · exact .inr ⟨r, h'.requests hm, hn⟩
  · exact .inr hb

/-- An accepted request is outstanding. -/
theorem acceptInboundRequest_received (f : FrameV2) (s : Session) : (acceptInboundRequest f).Post s
      (fun message s' => s'.bufferedRequests = s.bufferedRequests ∧
        s'.pendingInbound = s.pendingInbound.insert message.correlationId ⟨message.capability⟩)
      (fun _ s' => s'.closed = true) := by
  unfold acceptInboundRequest
  rw [EStateM.post_bind, post_orFail_check]
  refine ⟨?_, fun _ => rfl⟩
  intro _
  rw [EStateM.post_get_bind, EStateM.post_set_bind, EStateM.post_bind, post_orFail_check]
  exact ⟨fun _ => ⟨rfl, rfl⟩, fun _ => rfl⟩

theorem bufferRequest_received (message : SessionMessage) (s : Session) :
    (bufferRequest message).Post s
      (fun _ s' => s'.pendingInbound = s.pendingInbound ∧
        s'.bufferedRequests = s.bufferedRequests ++ [message])
      (fun _ s' => s'.closed = true) := by
  unfold bufferRequest
  rw [EStateM.post_bind, post_orFail_check]
  refine ⟨?_, fun _ => rfl⟩
  intro _
  rw [EStateM.post_modify]
  exact ⟨rfl, rfl⟩

theorem bufferResponse_received (message : SessionMessage) (s : Session) :
    (bufferResponse message).Post s (fun _ s' => s.toTables.SameRequests s'.toTables)
      (fun _ s' => s'.closed = true) := by
  unfold bufferResponse
  rw [EStateM.post_bind, post_orFail_check]
  refine ⟨?_, fun _ => rfl⟩
  intro _
  rw [EStateM.post_get_bind, EStateM.post_set_bind, post_orFail_check]
  exact ⟨fun _ => ⟨rfl, rfl⟩, fun _ => rfl⟩

/-- A request that is accepted and buffered at once. -/
theorem buffers_of_accepted {t t₁ t₂ : Tables} {message : SessionMessage} {pending : PendingRequest}
    (hb₁ : t₁.bufferedRequests = t.bufferedRequests)
    (hi₁ : t₁.pendingInbound = t.pendingInbound.insert message.correlationId pending)
    (hi₂ : t₂.pendingInbound = t₁.pendingInbound)
    (hb₂ : t₂.bufferedRequests = t₁.bufferedRequests ++ [message]) : t.Buffers t₂ := by
  refine ⟨?_, ?_⟩
  · intro id hid
    rw [hi₂, hi₁, Std.ExtTreeMap.mem_insert_iff] at hid
    rcases hid with hn | hid
    · refine .inr ⟨message, ?_, hn⟩
      rw [hb₂]
      exact List.mem_append_right _ List.mem_cons_self
    · exact .inl hid
  · rw [hb₂, hb₁]
    exact List.subset_append_left _ _

/-- The end of a call that closes the session, or leaves the received requests to `P`. -/
abbrev ClosedOr (P : Session → Prop) : Exit → Session → Prop := fun _ s' => s'.closed = true ∨ P s'

/-- What `receive_request` does when it returns a request or the end of the stream. -/
def ReturnsRequest (s : Session) (message : Option SessionMessage) (s' : Session) : Prop :=
  match message with
  | none => s.toTables.SameRequests s'.toTables
  | some message =>
    (∀ id ∈ s'.pendingInbound, id ∈ s.pendingInbound ∨ id = message.correlationId) ∧
      ∀ request ∈ s.bufferedRequests, request ∈ s'.bufferedRequests ∨ request = message

theorem ReturnsRequest.of_same {s₁ s₂ s₃ : Session} {message : Option SessionMessage}
    (h : s₁.toTables.SameRequests s₂.toTables) (h' : ReturnsRequest s₂ message s₃) :
    ReturnsRequest s₁ message s₃ := by
  cases message with
  | none => exact Tables.SameRequests.trans h h'
  | some message =>
    unfold ReturnsRequest at h' ⊢
    simp only at h' ⊢
    rw [← h.inbound, ← h.requests]
    exact h'

theorem receiveRequestLoop_received (codec : Codec) (reads : List ReadOutcome) (s : Session) :
    (receiveRequestLoop codec reads).Post s (ReturnsRequest s)
      (ClosedOr fun s' => s.toTables.SameRequests s'.toTables) := by
  induction reads generalizing s with
  | nil =>
    refine ((receiveVerified_post codec none s).mono (fun _ _ hread => hread)
      fun _ _ hread => .inr (.of_eq hread.1)).bind ?_
    intro _ s' hread
    exact Tables.SameRequests.of_eq hread.1
  | cons read reads ih =>
    refine ((receiveVerified_post codec (some read) s).mono (fun _ _ hread => hread)
      fun _ _ hread => .inr (.of_eq hread.1)).bind ?_
    rintro verified s₁ ⟨htables, -⟩
    have hsame : s.toTables.SameRequests s₁.toTables := .of_eq htables
    cases verified with
    | none =>
      simp only
      rw [EStateM.post_bind, post_orFail_check]
      exact ⟨fun _ => hsame, fun _ => .inl rfl⟩
    | some verified =>
      cases hkind : verified.frame.kind with
      | request =>
        simp only [hkind]
        rw [EStateM.post_map]
        refine (acceptInboundRequest_received verified.frame s₁).mono ?_ fun _ _ => .inl
        rintro message s₂ ⟨hbuffer, hinbound⟩
        refine ReturnsRequest.of_same hsame ⟨?_, ?_⟩
        · intro id hid
          rw [hinbound, Std.ExtTreeMap.mem_insert_iff] at hid
          exact hid.symm.imp_right Eq.symm
        · intro request hrequest
          rw [hbuffer]
          exact .inl hrequest
      | response =>
        simp only [hkind]
        refine ((acceptInboundResponse_post verified.frame s₁).mono (fun _ _ haccept => haccept)
          ?_).bind ?_
        · rintro _ _ rfl
          exact .inl rfl
        · rintro message _ ⟨rfl, -⟩
          refine ((bufferResponse_received message _).mono (fun _ _ hbuffer => hbuffer)
            fun _ _ => .inl).bind ?_
          intro _ s₂ hbuffer
          have hsame₂ := hsame.trans hbuffer
          exact (ih s₂).mono (fun _ _ hrest => hrest.of_same hsame₂)
            fun _ _ hrest => hrest.imp_right hsame₂.trans

/-- **`receive_request` returns the oldest buffered request, or one it has just accepted.** -/
theorem receiveRequest_received (codec : Codec) (rs : List ReadOutcome) (s : Session) :
    (receiveRequest codec rs).Post s (ReturnsRequest s)
      (ClosedOr fun s' => s.toTables.SameRequests s'.toTables) := by
  cases hb : s.bufferedRequests with
  | nil =>
    have hl : receiveRequest codec rs s = receiveRequestLoop codec rs s := by
      unfold receiveRequest
      rw [hb]
    unfold EStateM.Post
    rw [hl]
    exact receiveRequestLoop_received codec rs s
  | cons message r =>
    have hp : receiveRequest codec rs s = .ok (some message) { s with bufferedRequests := r } := by
      unfold receiveRequest
      rw [hb]
    unfold EStateM.Post
    rw [hp]
    refine ⟨fun id hid => .inl hid, ?_⟩
    intro re hr
    rw [hb, List.mem_cons] at hr
    exact hr.symm

theorem receiveResponseLoop_received (codec : Codec) (id : String) (rs : List ReadOutcome)
    (s : Session) :
    (receiveResponseLoop codec id rs).Post s (fun _ s' => s.toTables.Buffers s'.toTables)
      (ClosedOr fun s' => s.toTables.Buffers s'.toTables) := by
  induction rs generalizing s with
  | nil =>
    refine ((receiveVerified_post codec none s).mono (fun _ _ hr => hr)
      fun _ _ hr => .inr (Tables.SameRequests.of_eq hr.1).buffers).bind ?_
    exact fun _ _ _ => .inl rfl
  | cons read rs ih =>
    refine ((receiveVerified_post codec (some read) s).mono (fun _ _ hr => hr)
      fun _ _ hr => .inr (Tables.SameRequests.of_eq hr.1).buffers).bind ?_
    rintro v s₁ ⟨ht, -⟩
    have hs : s.toTables.Buffers s₁.toTables := (Tables.SameRequests.of_eq ht).buffers
    -- what the rest of the loop says, seen from the start
    have hre : ∀ {s₂ : Session}, s₁.toTables.Buffers s₂.toTables →
        (receiveResponseLoop codec id rs).Post s₂ (fun _ s' => s.toTables.Buffers s'.toTables)
          (ClosedOr fun s' => s.toTables.Buffers s'.toTables) := by
      intro s₂ hbu
      have hbu := hs.trans hbu
      exact (ih s₂).mono (fun _ _ h => hbu.trans h) fun _ _ h => h.imp_right hbu.trans
    cases v with
    | none => exact .inl rfl
    | some v =>
      cases hk : v.frame.kind with
      | request =>
        simp only [hk]
        refine ((acceptInboundRequest_received v.frame s₁).mono (fun _ _ ha => ha)
          fun _ _ => .inl).bind ?_
        rintro message s₂ ⟨hb₁, hi₁⟩
        refine ((bufferRequest_received message s₂).mono (fun _ _ hb => hb) fun _ _ => .inl).bind ?_
        rintro _ s₃ ⟨hi₂, hb₂⟩
        exact hre (buffers_of_accepted hb₁ hi₁ hi₂ hb₂)
      | response =>
        simp only [hk]
        refine ((acceptInboundResponse_post v.frame s₁).mono (fun _ _ ha => ha) ?_).bind ?_
        · rintro _ _ rfl
          exact .inl rfl
        · rintro message _ ⟨rfl, -⟩
          by_cases hn : message.correlationId = id
          · rw [if_pos hn, EStateM.post_bind, EStateM.post_modify, EStateM.post_pure]
            exact ⟨hs.inbound, hs.requests⟩
          · rw [if_neg hn]
            refine ((bufferResponse_received message _).mono (fun _ _ hb => hb)
              fun _ _ => .inl).bind ?_
            intro _ s₂ hb
            exact hre hb.buffers

/-- Requests that come while a response is awaited are outstanding and wait in the buffer. -/
theorem receiveResponse_received (codec : Codec) (id : String) (rs : List ReadOutcome)
    (s : Session) :
    (receiveResponse codec id rs).Post s (fun _ s' => s.toTables.Buffers s'.toTables)
      (ClosedOr fun s' => s.toTables.Buffers s'.toTables) := by
  unfold receiveResponse
  rw [EStateM.post_bind, post_orFail_check]
  refine ⟨?_, fun _ => .inl rfl⟩
  intro _
  rw [EStateM.post_get_bind]
  cases s.bufferedResponses[id]? with
  | none => exact receiveResponseLoop_received codec id rs s
  | some message => exact Tables.SameRequests.buffers ⟨rfl, rfl⟩

/-- A successful answer is to an outstanding request, which it settles. -/
theorem sendResponse_received (codec : Codec) (message : SessionMessage) (write : WriteOutcome)
    (s : Session) :
    (sendResponse codec message write).Post s
      (fun _ s' => message.correlationId ∈ s.pendingInbound ∧
        s'.bufferedRequests = s.bufferedRequests ∧
        s'.pendingInbound = s.pendingInbound.erase message.correlationId)
      (Broken s) := by
  unfold sendResponse
  rw [EStateM.post_bind, post_orFail]
  refine ⟨?_, fun _ _ => broken_close s _⟩
  intro _ _
  rw [EStateM.post_bind, post_orFail]
  refine ⟨?_, fun _ _ => broken_close s _⟩
  intro _ hp
  have hm : message.correlationId ∈ s.pendingInbound := by
    rw [Std.ExtTreeMap.mem_iff_isSome_getElem?]
    cases hl : s.pendingInbound[message.correlationId]? with
    | none =>
      rw [hl] at hp
      cases hp
    | some pending => rfl
  refine (quiet_sendMessage codec .response message write s).bind ?_
  intro _ s' hk
  rw [EStateM.post_modify]
  have hr : s'.bufferedRequests = s.bufferedRequests := congrArg Tables.bufferedRequests hk.tables
  have hi : s'.pendingInbound = s.pendingInbound := congrArg Tables.pendingInbound hk.tables
  exact ⟨hm, hr, hi ▸ rfl⟩

theorem sendRequest_received (codec : Codec) (message : SessionMessage) (write : WriteOutcome)
    (s : Session) :
    (sendRequest codec message write).Post s (fun _ s' => s.toTables.SameRequests s'.toTables)
      (Broken s) := by
  unfold sendRequest
  rw [EStateM.post_bind, post_orFail]
  refine ⟨?_, fun _ _ => broken_close s _⟩
  intro _ _
  rw [EStateM.post_bind, post_orFail_check]
  refine ⟨?_, fun _ => broken_close s _⟩
  intro _
  rw [EStateM.post_bind, post_orFail_check]
  refine ⟨?_, fun _ => broken_close s _⟩
  intro _
  refine (quiet_sendMessage codec .request message write s).bind ?_
  intro _ s' hk
  rw [EStateM.post_modify]
  have hs : s.toTables.SameRequests s'.toTables := .of_eq hk.tables
  exact ⟨hs.inbound, hs.requests⟩

end Received

/-! ## One call -/

/-- The call has answered a request. -/
def Answers (entry : Call × Outcome) (message : SessionMessage) : Prop :=
  ∃ write, entry = (.sendResponse message write, .done)

/-- The call has returned a request. -/
def Returns (entry : Call × Outcome) (message : SessionMessage) : Prop :=
  ∃ reads, entry = (.receiveRequest reads, .request (some message))

/-- What a call does with received requests, unless it leaves the session closed. -/
inductive Session.Hears (s : Session) : Call → Outcome × Session → Prop where
  | answers {message : SessionMessage} {write : WriteOutcome} {s' : Session} :
      message.correlationId ∈ s.pendingInbound → s'.bufferedRequests = s.bufferedRequests →
      s'.pendingInbound = s.pendingInbound.erase message.correlationId →
      s.Hears (.sendResponse message write) (.done, s')
  | returns {message : SessionMessage} {reads : List ReadOutcome} {s' : Session} :
      ReturnsRequest s (some message) s' →
      s.Hears (.receiveRequest reads) (.request (some message), s')
  | buffers {call : Call} {result : Outcome × Session} :
      (∀ message, ¬ Answers (call, result.1) message) → s.toTables.Buffers result.2.toTables →
      s.Hears call result
  | closes {call : Call} {result : Outcome × Session} :
      (∀ message, ¬ Answers (call, result.1) message) → result.2.closed = true →
      s.Hears call result

theorem not_answers_exit (c : Call) (ex : Exit) (message : SessionMessage) :
    ¬ Answers (c, ex.outcome) message := by
  rintro ⟨write, h⟩
  cases ex <;> cases h

theorem Broken.hears {s s' : Session} {ex : Exit} {c : Call} (h : Broken s ex s') :
    s.Hears c (ex.outcome, s') :=
  .buffers (not_answers_exit c ex) (Tables.SameRequests.of_eq h.1).buffers

theorem ClosedOr.hears {s s' : Session} {P : Session → Prop} {ex : Exit} {c : Call}
    (hP : ∀ s', P s' → s.toTables.Buffers s'.toTables) (h : ClosedOr P ex s') :
    s.Hears c (ex.outcome, s') := by
  rcases h with hc | hp
  · exact .closes (not_answers_exit c ex) hc
  · exact .buffers (not_answers_exit c ex) (hP s' hp)

/-- **Every call answers an outstanding request, returns one, or buffers what it accepts.** -/
theorem Session.step_hears (codec : Codec) (s : Session) (c : Call) :
    s.Hears c (s.step codec c) := by
  cases c with
  | sendRequest message write =>
    refine conclude_post (sendRequest_received codec message write s) ?_ fun _ _ hb => hb.hears
    exact fun _ _ hs => .buffers (by rintro _ ⟨_, h⟩; cases h) hs.buffers
  | receiveRequest rs =>
    refine conclude_post (receiveRequest_received codec rs s) ?_
      fun _ _ he => he.hears fun _ hs => hs.buffers
    intro message s' hr
    cases message with
    | none =>
      have hs : s.toTables.SameRequests s'.toTables := hr
      exact .buffers (by rintro _ ⟨_, h⟩; cases h) hs.buffers
    | some message => exact .returns hr
  | sendResponse message write =>
    exact conclude_post (sendResponse_received codec message write s)
      (fun _ _ h => .answers h.1 h.2.1 h.2.2) fun _ _ hb => hb.hears
  | receiveResponse id rs =>
    refine conclude_post (receiveResponse_received codec id rs s) ?_
      fun _ _ he => he.hears fun _ hbu => hbu
    exact fun _ _ hbu => .buffers (by rintro _ ⟨_, h⟩; cases h) hbu
  | processRequest r p =>
    refine conclude_post (quiet_processRequest r p s) ?_ fun _ _ hb => hb.hears
    exact fun _ _ hk => .buffers (by rintro _ ⟨_, h⟩; cases h)
      (Tables.SameRequests.of_eq hk.tables).buffers
  | shutdownWrite write =>
    refine conclude_post (shutdownWrite_post write s) ?_ fun _ _ hb => hb.hears
    exact fun _ _ ht => .buffers (by rintro _ ⟨_, h⟩; cases h)
      (Tables.SameRequests.of_eq ht).buffers
  | close => exact .closes (by rintro _ ⟨_, h⟩; cases h) rfl
  | select cs =>
    exact .buffers (by rintro _ ⟨_, h⟩; cases h) (Tables.SameRequests.refl _).buffers

/-- A closed session answers nothing. -/
theorem sendResponse_closed {s : Session} (codec : Codec) (message : SessionMessage)
    (write : WriteOutcome) (h : s.closed = true) :
    (s.step codec (.sendResponse message write)).1 ≠ .done := by
  refine conclude_post (R := fun r => r.1 ≠ .done)
    (orFail_validate_closed codec message ⟨h, rfl⟩ _) (Q := fun _ _ => False)
    (fun _ _ hf => hf.elim) ?_
  intro ex _ _
  cases ex <;> simp [Exit.outcome]

/-! ## Runs -/

/-- The call at a position has answered this request. -/
def AnsweredAt (history : List (Call × Outcome)) (j : ℕ) (message : SessionMessage) : Prop :=
  ∃ entry, history[j]? = some entry ∧ Answers entry message

/-- The call at a position has returned a request of this name. -/
def RequestReturnedAt (history : List (Call × Outcome)) (i : ℕ) (id : String) : Prop :=
  ∃ entry message, history[i]? = some entry ∧ Returns entry message ∧ message.correlationId = id

/-- **Every answer is to a request that was returned before and not answered since.** -/
def OnlyReturnedAnswered (history : List (Call × Outcome)) : Prop :=
  ∀ j message, AnsweredAt history j message →
    ∃ i, i < j ∧ RequestReturnedAt history i message.correlationId ∧
      ∀ k answer, AnsweredAt history k answer → answer.correlationId = message.correlationId →
        i < k → j ≤ k

/-- The call names a request that waits in the buffer. -/
def Call.NamesBuffered (s : Session) : Call → Prop
  | .sendResponse message _ =>
    ∃ request ∈ s.bufferedRequests, request.correlationId = message.correlationId
  | _ => False

/-- No call of the run answers a request that waits in the buffer. -/
def Session.NeverNamesBuffered (codec : Codec) (s : Session) : List Call → Prop
  | [] => True
  | call :: calls => ¬ call.NamesBuffered s ∧
      Session.NeverNamesBuffered codec (s.step codec call).2 calls

/-- An outstanding request of an open session waits in the buffer, or was returned and not
answered since. -/
def Known (history : List (Call × Outcome)) (s : Session) : Prop :=
  s.closed = false → ∀ id ∈ s.pendingInbound,
    (∃ request ∈ s.bufferedRequests, request.correlationId = id) ∨
    ∃ i, RequestReturnedAt history i id ∧
      ∀ k answer, AnsweredAt history k answer → answer.correlationId = id → k < i

section History

variable {history : List (Call × Outcome)} {s : Session} {codec : Codec}

theorem RequestReturnedAt.append {i : ℕ} {id : String} (h : RequestReturnedAt history i id)
    (l : List (Call × Outcome)) : RequestReturnedAt (history ++ l) i id := by
  obtain ⟨en, message, hi, hr⟩ := h
  have hlt : i < history.length := (List.getElem?_eq_some_iff.mp hi).1
  exact ⟨en, message, by rw [List.getElem?_append_left hlt, hi], hr⟩

theorem RequestReturnedAt.lt {i : ℕ} {id : String} (h : RequestReturnedAt history i id) :
    i < history.length := by
  obtain ⟨en, message, hi, -⟩ := h
  exact (List.getElem?_eq_some_iff.mp hi).1

theorem AnsweredAt.lt {j : ℕ} {message : SessionMessage} (h : AnsweredAt history j message) :
    j < history.length := by
  obtain ⟨en, hj, -⟩ := h
  exact (List.getElem?_eq_some_iff.mp hj).1

theorem AnsweredAt.concat_cases {en : Call × Outcome} {j : ℕ} {message : SessionMessage}
    (h : AnsweredAt (history ++ [en]) j message) :
    AnsweredAt history j message ∨ (j = history.length ∧ Answers en message) := by
  obtain ⟨e', hj, ha⟩ := h
  rcases getElem?_concat_cases hj with ho | ⟨hl, rfl⟩
  · exact .inl ⟨e', ho, ha⟩
  · exact .inr ⟨hl, ha⟩

/-- What was returned and not answered stays so while nothing of that name is answered. -/
theorem unanswered_concat {en : Call × Outcome} {id : String}
    (he : ∀ message, Answers en message → message.correlationId ≠ id)
    (h : ∃ i, RequestReturnedAt history i id ∧
      ∀ k a, AnsweredAt history k a → a.correlationId = id → k < i) :
    ∃ i, RequestReturnedAt (history ++ [en]) i id ∧
      ∀ k a, AnsweredAt (history ++ [en]) k a → a.correlationId = id → k < i := by
  obtain ⟨i, hr, hl⟩ := h
  refine ⟨i, hr.append _, ?_⟩
  intro k a ha hn
  rcases ha.concat_cases with ho | ⟨-, hne⟩
  · exact hl k a ho hn
  · exact absurd hn (he a hne)

/-- A call keeps account of the outstanding requests. -/
theorem Known.step (h : Known history s) (c : Call) :
    Known (history ++ [(c, (s.step codec c).1)]) (s.step codec c).2 := by
  intro hop id hid
  have ho₀ : s.closed = false := by
    by_contra hc
    have haf := (s.step_closed codec ⟨by simpa using hc, rfl⟩ c).1
    rw [hop] at haf
    cases haf
  have hm := s.step_hears codec c
  generalize s.step codec c = re at *
  cases hm with
  | @answers message write s' hp hbuf hi =>
    rw [hi, Std.ExtTreeMap.mem_erase] at hid
    have hne : message.correlationId ≠ id := by simpa using hid.1
    rcases h ho₀ id hid.2 with hb | hr
    · exact .inl (hbuf ▸ hb)
    · refine .inr (unanswered_concat ?_ hr)
      rintro a ⟨_, ha⟩
      cases ha
      exact hne
  | @returns message rs s' hret =>
    have hno : ∀ a, Answers (Call.receiveRequest rs, Outcome.request (some message))
        a → a.correlationId ≠ id := by
      rintro a ⟨_, ha⟩
      cases ha
    -- the returned request is known from here on
    have hnew : message.correlationId = id →
        ∃ i, RequestReturnedAt (history ++ [(Call.receiveRequest rs,
            Outcome.request (some message))]) i id ∧
          ∀ k a, AnsweredAt (history ++ [(Call.receiveRequest rs,
            Outcome.request (some message))]) k a → a.correlationId = id → k < i := by
      intro hn
      refine ⟨history.length, ⟨_, message, List.getElem?_concat_length, ⟨rs, rfl⟩, hn⟩, ?_⟩
      intro k a han ha
      rcases han.concat_cases with ho | ⟨-, hl⟩
      · exact ho.lt
      · exact absurd ha (hno a hl)
    rcases hret.1 id hid with ho | hn
    · rcases h ho₀ id ho with ⟨r, hre, hn⟩ | hr
      · rcases hret.2 r hre with hs | rfl
        · exact .inl ⟨r, hs, hn⟩
        · exact .inr (hnew hn)
      · exact .inr (unanswered_concat hno hr)
    · exact .inr (hnew hn.symm)
  | buffers hno hbu =>
    rcases hbu.inbound id hid with ho | hb
    · rcases h ho₀ id ho with ⟨r, hre, hn⟩ | hr
      · exact .inl ⟨r, hbu.requests hre, hn⟩
      · exact .inr (unanswered_concat (fun a ha => absurd ha (hno a)) hr)
    · exact .inl hb
  | closes hno hc =>
    rw [hop] at hc
    cases hc

/-- A call that names no buffered request answers a returned one, if any. -/
theorem OnlyReturnedAnswered.step (h : OnlyReturnedAnswered history) (hkn : Known history s)
    {c : Call} (hc : ¬ c.NamesBuffered s) :
    OnlyReturnedAnswered (history ++ [(c, (s.step codec c).1)]) := by
  intro j message ha
  rcases ha.concat_cases with ho | ⟨hla, write, hne⟩
  · obtain ⟨i, hlt, hr, hbe⟩ := h j message ho
    refine ⟨i, hlt, hr.append _, ?_⟩
    intro k a hk hn hik
    rcases hk.concat_cases with hk | ⟨hk, -⟩
    · exact hbe k a hk hn hik
    · exact hk ▸ ho.lt.le
  · obtain ⟨rfl, hd⟩ := Prod.mk.inj hne
    have hop : s.closed = false := by
      by_contra hclosed
      exact sendResponse_closed codec message write (by simpa using hclosed) hd
    have hp : message.correlationId ∈ s.pendingInbound := by
      have hh := s.step_hears codec (.sendResponse message write)
      generalize s.step codec (.sendResponse message write) = r at *
      cases hh with
      | answers hp _ _ => exact hp
      | buffers hno _ => exact absurd ⟨write, by rw [hd]⟩ (hno message)
      | closes hno _ => exact absurd ⟨write, by rw [hd]⟩ (hno message)
    rcases hkn hop _ hp with hb | ⟨i, hr, hl⟩
    · exact absurd hb hc
    · refine ⟨i, hla ▸ hr.lt, hr.append _, ?_⟩
      intro k a hk hn hik
      rcases hk.concat_cases with hk | ⟨hk, -⟩
      · exact absurd (hl k a hk hn) (by omega)
      · omega

/-- The history has an entry for each call, in order. -/
theorem Session.run_calls (codec : Codec) (s : Session) (cs : List Call) :
    (s.run codec cs).1.map Prod.fst = cs := by
  induction cs generalizing s with
  | nil => rfl
  | cons c cs ih => exact congrArg (c :: ·) (ih _)

theorem Session.run_last (codec : Codec) (s : Session) (cs : List Call) (c : Call) :
    (s.run codec (cs ++ [c])).1[cs.length]? = some (c, ((s.run codec cs).2.step codec c).1) := by
  have hl : (s.run codec cs).1.length = cs.length := by
    rw [← List.length_map (f := Prod.fst), s.run_calls codec cs]
  rw [Session.run_append, ← hl]
  exact List.getElem?_concat_length

theorem Session.neverNamesBuffered_append (cs l : List Call) :
    s.NeverNamesBuffered codec (cs ++ l) ↔ s.NeverNamesBuffered codec cs ∧
      (s.run codec cs).2.NeverNamesBuffered codec l := by
  induction cs generalizing s with
  | nil => exact (and_iff_right trivial).symm
  | cons c cs ih =>
    simp only [List.cons_append, Session.NeverNamesBuffered, Session.run]
    rw [ih, and_assoc]

/-- **A run answers only what was returned**. -/
theorem OnlyReturnedAnswered.run (h : OnlyReturnedAnswered history) (hk : Known history s)
    {cs : List Call} (hc : s.NeverNamesBuffered codec cs) :
    OnlyReturnedAnswered (history ++ (s.run codec cs).1) := by
  induction cs generalizing s history with
  | nil =>
    rw [Session.run, List.append_nil]
    exact h
  | cons c cs ih =>
    have hs : OnlyReturnedAnswered (history ++ [(c, (s.step codec c).1)]) := h.step hk hc.1
    have hr := ih hs (hk.step c) hc.2
    rw [List.append_assoc] at hr
    exact hr

end History

/-- **Only returned requests are answered, as long as no call names one that waits in the
buffer.** -/
theorem only_returned_requests_answered (codec : Codec) (established : EstablishedSession)
    (role : SessionRole) (capabilities : SessionCapabilities) (limits : SessionChannelLimits)
    (calls : List Call)
    (hcalls : (Session.new established role capabilities limits).NeverNamesBuffered codec calls) :
    OnlyReturnedAnswered
      ((Session.new established role capabilities limits).run codec calls).1 := by
  have hn : OnlyReturnedAnswered [] := by
    rintro j message ⟨en, hj, -⟩
    simp at hj
  have hk : Known [] (Session.new established role capabilities limits) := by
    intro _ id hid
    simp [Session.new] at hid
  exact hn.run hk hcalls

/-! ## A request that comes while a response is awaited -/

/-- The request of the responder. -/
def peerRequest : SessionMessage := ⟨"corr-0003", .summary, 30000, .object []⟩

/-- The second frame of the responder. -/
def peerFrame : FrameV2 :=
  { FrameDraft.unsigned
      { direction := .responderToInitiator
        counter := 2
        correlationId := "corr-0003"
        kind := .request
        capability := .summary
        requestedBudgetMs := 30000
        payload := .object [] } katBinding katPayloadHash with
    mac := "61c0e0a28647a8dd098381629ac13c926769b15becfd95078140270b194979c8" }

/-- The third frame of the initiator. -/
def answerFrame : FrameV2 :=
  { FrameDraft.unsigned
      { direction := .initiatorToResponder
        counter := 3
        correlationId := "corr-0003"
        kind := .response
        capability := .summary
        requestedBudgetMs := 30000
        payload := .object [] } katBinding katPayloadHash with
    mac := "6d118dd6ccb18000364f85e316bd4c195c33df90d97b75a9827cc4bfcbd4220b" }

/-- A frame as `serde_json` prints it. -/
def frameText (source target sourceWorkspace targetWorkspace direction counter correlation kind
    mac : String) : String :=
  "\x7b\"schema\":\"ee.mesh.tailscale_transport_frame.v2\",\"sourceNodeId\":\"" ++ source ++
  "\",\"targetNodeId\":\"" ++ target ++ "\",\"teamId\":\"team-kat\",\"sourceWorkspaceId\":\"" ++
  sourceWorkspace ++ "\",\"targetWorkspaceId\":\"" ++ targetWorkspace ++
  "\",\"sessionId\":\"sess-0001\",\"direction\":\"" ++ direction ++ "\",\"counter\":" ++ counter ++
  ",\"correlationId\":\"" ++ correlation ++ "\",\"kind\":\"" ++ kind ++
  "\",\"capability\":\"summary\",\"requestedBudgetMs\":30000,\"payload\":\x7b\x7d" ++
  ",\"payloadHash\":\"6e46dd10defc9b56c29a6ec56b508c21f54c08192194e4df25bf36f0c9c3c279\"" ++
  ",\"mac\":\"" ++ mac ++ "\"\x7d"

/-- The bytes of the responder's frame. -/
def peerBytes : List UInt8 :=
  asBytes (frameText "node-resp" "node-init" "ws-resp" "ws-init" "responder_to_initiator" "2"
    "corr-0003" "request" peerFrame.mac)

/-- The libraries on the three frames. -/
def threeFrameCodec : Codec where
  serde :=
    { katSerde with
      schemaProbe := fun bytes =>
        if bytes = peerBytes then .ok transportFrameSchemaV2 else .error "expected value"
      frame := fun bytes => if bytes = peerBytes then .ok peerFrame else .error "expected value" }
  blake3 :=
    { katBlake3 with
      keyedHash := fun key bytes =>
        if key = katKeys.initiatorToResponder ∧ bytes = secondFrame.macPreimage then
          digest "70342b1e482fe0052686007e8e972ef353d2d962c84cdf74c36783339b4319ad"
        else if key = katKeys.responderToInitiator ∧ bytes = peerFrame.macPreimage then
          digest "61c0e0a28647a8dd098381629ac13c926769b15becfd95078140270b194979c8"
        else if key = katKeys.initiatorToResponder ∧ bytes = answerFrame.macPreimage then
          digest "6d118dd6ccb18000364f85e316bd4c195c33df90d97b75a9827cc4bfcbd4220b"
        else digest "" }
  frameToVec frame := .ok (asBytes (frameText "node-init" "node-resp" "ws-init" "ws-resp"
    "initiator_to_responder" (if frame.counter = 2 then "2" else "3") frame.correlationId
    frame.kind.token frame.mac))
  debug token := "\"" ++ token ++ "\""

/-- A request is sent; while its response is awaited a request of the peer comes. -/
def crossedRequests : List Call :=
  [.sendRequest ⟨"corr-0002", .summary, 30000, .object []⟩ .written,
    .receiveResponse "corr-0002" [.packet peerBytes]]

/-- The call ended without a value and without an error. -/
def Outcome.isDone : Outcome → Bool
  | .done => true
  | _ => false

theorem Outcome.eq_done {outcome : Outcome} (h : outcome.isDone = true) : outcome = .done := by
  cases outcome <;> first | rfl | cases h

theorem crossedRequests_quiet (s : Session) :
    s.NeverNamesBuffered threeFrameCodec (crossedRequests ++ [Call.receiveRequest []]) :=
  ⟨id, id, id, trivial⟩

/-- **A request that was never returned is answered.** -/
theorem buffered_request_answered : ¬ OnlyReturnedAnswered (negotiatedInitiator.run threeFrameCodec
      (crossedRequests ++ [Call.sendResponse peerRequest .written])).1 := by
  intro h
  have hd : ((negotiatedInitiator.run threeFrameCodec crossedRequests).2.step threeFrameCodec
      (.sendResponse peerRequest .written)).1 = .done := Outcome.eq_done (by decide +kernel)
  have hl := negotiatedInitiator.run_last threeFrameCodec crossedRequests
    (.sendResponse peerRequest .written)
  rw [hd] at hl
  obtain ⟨i, hlt, ⟨en, message, hi, ⟨rs, rfl⟩, -⟩, -⟩ := h 2 peerRequest ⟨_, hl, _, rfl⟩
  -- the two calls before are no `receive_request`
  have hc : (crossedRequests ++ [Call.sendResponse peerRequest .written])[i]?
      = some (.receiveRequest rs) := by
    rw [← negotiatedInitiator.run_calls threeFrameCodec (crossedRequests ++ _), List.getElem?_map,
      hi]
    rfl
  clear h hi hl hd
  obtain rfl | rfl : i = 0 ∨ i = 1 := by omega
  · simp [crossedRequests] at hc
  · simp [crossedRequests] at hc

/-- Returned first, then answered. -/
theorem returned_request_answered : OnlyReturnedAnswered (negotiatedInitiator.run threeFrameCodec
      (crossedRequests ++ [Call.receiveRequest []] ++ [Call.sendResponse peerRequest .written])).1 ∧
    ((negotiatedInitiator.run threeFrameCodec (crossedRequests ++ [Call.receiveRequest []])).2.step
      threeFrameCodec (.sendResponse peerRequest .written)).1 = .done := by
  have he : (negotiatedInitiator.run threeFrameCodec
      (crossedRequests ++ [Call.receiveRequest []])).2.bufferedRequests = [] := by
    rw [← List.length_eq_zero_iff]
    decide +kernel
  have hc : negotiatedInitiator.NeverNamesBuffered threeFrameCodec
      (crossedRequests ++ [Call.receiveRequest []]
        ++ [Call.sendResponse peerRequest .written]) := by
    rw [Session.neverNamesBuffered_append]
    refine ⟨crossedRequests_quiet _, ?_, trivial⟩
    rintro ⟨r, hr, -⟩
    rw [he] at hr
    exact absurd hr List.not_mem_nil
  exact ⟨only_returned_requests_answered threeFrameCodec _ _ _ _ _ hc,
    Outcome.eq_done (by decide +kernel)⟩

end SessionChannel
