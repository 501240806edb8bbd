/-
# Forks of a peer's stream (`src/mesh/origin_stream.rs`)

A receiver looks for fork evidence in its own origin table, `mesh_origin_events`.  An
ingest writes a disposition and never a row of that table, so what it has applied
itself is no evidence for the next call: two validly signed events of one number are
both applied unless the table held that number from the start.
-/
import EideticEngine.OriginIngest

namespace OriginStream

open Serde

/-! ## Runs at a receiver -/

/-- One call of a run: the event, the time, and what fails in the database. -/
structure InboundCall where
  event : InboundOriginEvent
  recordedAt : String
  readError : Option DbError
  engineFails : Bool

/-- The call at a receiver with its local record. -/
def InboundCall.at (receiver : Receiver) (tables : OriginTables) (call : InboundCall) :
    IngestCall where
  receiver := receiver
  tables := match call.readError with
    | some error => .error error
    | none => .ok tables
  event := call.event
  recordedAt := call.recordedAt
  engineFails := call.engineFails

/-- The results of a run of `ingest_origin_event`, each with its event; the calls share the
local record, which an ingest only reads. -/
def ingestRun (receiver : Receiver) (tables : OriginTables) : List DispositionRow →
    List InboundCall → List (InboundOriginEvent × Except OriginStreamError IngestDisposition)
  | _, [] => []
  | rows, call :: calls =>
    let (rows, result) := ingestOriginEvent rows (call.at receiver tables)
    (call.event, result) :: ingestRun receiver tables rows calls

/-- The team, the origin and the number that an event names. -/
def InboundOriginEvent.place (event : InboundOriginEvent) : String × String × ℕ :=
  (event.teamId, event.originNodeId, event.seq)

/-- In this run no two events of one place with different hashes are both applied. -/
def ForksDetected (receiver : Receiver) (tables : OriginTables) (calls : List InboundCall) :
    Prop :=
  ∀ left ∈ ingestRun receiver tables [] calls, ∀ right ∈ ingestRun receiver tables [] calls,
    left.1.place = right.1.place → left.1.eventHash ≠ right.1.eventHash →
    ¬ (left.2 = .ok .applied ∧ right.2 = .ok .applied)

/-! ## When a call applies its event -/

/-- The event passes every check of `classify_inbound` but the one for fork evidence. -/
structure Verified (receiver : Receiver) (event : InboundOriginEvent) : Prop where
  schema_eq : event.schema = "ee.mesh.origin_event.v1"
  not_echo : event.originNodeId ≠ receiver.ownOriginNodeId
  integrity : ∃ canonical, canonicalOf receiver.codec event = .ok canonical ∧
    integrityFailure receiver event canonical = none
  features : ∀ feature ∈ canonicalFeatures event.requiredFeatures,
    feature ∈ receiver.supportedFeatures
  payload : classifyPayload receiver.types event = .applied

/-- The database carries the call out: it reads the local record and writes the row. -/
def InboundCall.Recordable (call : InboundCall) : Prop :=
  call.readError = none ∧ call.engineFails = false ∧
    DispositionRow.allowed
      { teamId := call.event.teamId
        originNodeId := call.event.originNodeId
        seq := clampI64 call.event.seq
        disposition := "applied"
        reason := "verified and applied"
        recordedAt := call.recordedAt } = true

/-- The hash that the local record holds at the place of an event. -/
def recordedHash (tables : OriginTables) (place : String × String × ℕ) : Option String :=
  match tables.listMeshOriginEvents place.1 place.2.1 place.2.2 1 with
  | existing :: _ => if existing.seq = place.2.2 then some existing.eventHash else none
  | [] => none

theorem forkEvidence_iff (ts : OriginTables) (event : InboundOriginEvent) :
    forkEvidence ts event = true ↔
      ∃ h, recordedHash ts event.place = some h ∧ h ≠ event.eventHash := by
  unfold forkEvidence recordedHash InboundOriginEvent.place
  cases ts.listMeshOriginEvents event.teamId event.originNodeId event.seq 1 with
  | nil => simp
  | cons ex r =>
    by_cases hs : ex.seq = event.seq <;> simp [hs]

/-- Over a record that was read, an event is classified as applied when it is verified and
there is no fork evidence. -/
theorem classifyInbound_eq_applied_iff (r : Receiver) (ts : OriginTables)
    (event : InboundOriginEvent) :
    classifyInbound r (.ok ts) event = .ok .applied ↔
      Verified r event ∧ forkEvidence ts event = false := by
  unfold classifyInbound
  split
  · rename_i hs
    simp only [Except.ok.injEq, reduceCtorEq, false_iff, not_and]
    exact fun hv => absurd hv.schema_eq hs
  rename_i hs
  rw [not_not] at hs
  split
  · rename_i he
    simp only [Except.ok.injEq, reduceCtorEq, false_iff, not_and]
    exact fun hv => absurd he hv.not_echo
  rename_i he
  cases hc : canonicalOf r.codec event with
  | error error =>
    simp only [bind, Except.bind, reduceCtorEq, false_iff, not_and]
    intro hv
    obtain ⟨c, ht, -⟩ := hv.integrity
    rw [hc] at ht
    cases ht
  | ok c =>
    simp only [bind, Except.bind]
    cases hi : integrityFailure r event c with
    | some reason =>
      simp only [Except.ok.injEq, reduceCtorEq, false_iff, not_and]
      intro hv
      obtain ⟨text, ht, hn⟩ := hv.integrity
      rw [hc] at ht
      cases ht
      rw [hi] at hn
      cases hn
    | none =>
      simp only [Except.mapError]
      by_cases hfo : forkEvidence ts event = true
      · simp [hfo]
      · simp only [hfo, Bool.false_eq_true, if_false, and_true]
        cases hf : (canonicalFeatures event.requiredFeatures).find?
            fun f => f ∉ r.supportedFeatures with
        | some f =>
          simp only [Except.ok.injEq, reduceCtorEq, false_iff]
          intro hv
          have hm := hv.features f (List.mem_of_find?_eq_some hf)
          have hno := List.find?_some hf
          simp [hm] at hno
        | none =>
          simp only [Except.ok.injEq]
          rw [List.find?_eq_none] at hf
          constructor
          · intro hp
            exact ⟨hs, he, ⟨c, hc, hi⟩, fun f hin => by simpa using hf f hin, hp⟩
          · exact fun hv => hv.payload

/-- Nothing is applied on a record that cannot be read. -/
theorem classifyInbound_error_ne_applied (r : Receiver) (error : DbError)
    (event : InboundOriginEvent) :
    classifyInbound r (.error error) event ≠ .ok .applied := by
  unfold classifyInbound
  split_ifs
  · simp
  · simp
  · cases canonicalOf r.codec event with
    | error error => simp [bind, Except.bind]
    | ok c =>
      cases hi : integrityFailure r event c with
      | some reason => simp [bind, Except.bind, hi]
      | none => simp [bind, Except.bind, hi, Except.mapError]

/-- A row is written when the engine does not fail and the constraints allow the row. -/
theorem exists_record_eq_ok_iff (efs : Bool) (r : List DispositionRow) (row : DispositionRow) :
    (∃ r', recordMeshOriginDisposition efs r row = .ok r') ↔ efs = false ∧ row.allowed = true := by
  unfold recordMeshOriginDisposition
  split_ifs <;> simp_all

/-- The result of a call is its disposition once the row is written. -/
theorem ingestOriginEvent_eq_ok_iff (r : List DispositionRow) (c : IngestCall)
    (d : IngestDisposition) :
    (ingestOriginEvent r c).2 = .ok d ↔ classifyInbound c.receiver c.tables c.event = .ok d ∧
        ∃ r', recordMeshOriginDisposition c.engineFails r (c.row d) = .ok r' := by
  unfold ingestOriginEvent
  cases classifyInbound c.receiver c.tables c.event with
  | error error => simp
  | ok other =>
    simp only [Except.ok.injEq]
    cases hr : recordMeshOriginDisposition c.engineFails r (c.row other) with
    | error error =>
      simp only [reduceCtorEq, false_iff, not_and, not_exists]
      rintro rfl r' hro
      rw [hr] at hro
      cases hro
    | ok r' =>
      simp only [Except.ok.injEq]
      constructor
      · rintro rfl
        exact ⟨rfl, r', hr⟩
      · exact fun h => h.1

/-- A call applies its event when it is verified, not contradicted by the local record,
and the database carries it out. -/
theorem ingest_eq_applied_iff (r : Receiver) (ts : OriginTables)
    (ro : List DispositionRow) (c : InboundCall) :
    (ingestOriginEvent ro (c.at r ts)).2 = .ok .applied ↔ Verified r c.event ∧ c.Recordable ∧
        forkEvidence ts c.event = false := by
  rw [ingestOriginEvent_eq_ok_iff, exists_record_eq_ok_iff]
  unfold InboundCall.at InboundCall.Recordable IngestCall.row
  simp only
  cases c.readError with
  | some error =>
    simp only [reduceCtorEq, false_and, and_false, iff_false, not_and]
    exact fun ha => absurd ha (classifyInbound_error_ne_applied _ _ _)
  | none =>
    rw [classifyInbound_eq_applied_iff]
    simp only [IngestDisposition.asStr, IngestDisposition.reason, true_and]
    tauto

/-! ## What a run detects -/

/-- An entry of a run is the result of one of its calls, on some rows. -/
theorem mem_ingestRun {r : Receiver} {ts : OriginTables}
    {en : InboundOriginEvent × Except OriginStreamError IngestDisposition} :
    ∀ {ro : List DispositionRow} {cs : List InboundCall}, en ∈ ingestRun r ts ro cs →
      ∃ c ∈ cs, ∃ r', en.1 = c.event ∧ en.2 = (ingestOriginEvent r' (c.at r ts)).2
  | _, [], h => by cases h
  | ro, c :: cs, h => by
    rw [ingestRun] at h
    rcases List.mem_cons.mp h with rfl | h
    · exact ⟨c, List.mem_cons_self, ro, rfl, rfl⟩
    · obtain ⟨other, ho, r', he⟩ := mem_ingestRun h
      exact ⟨other, List.mem_cons_of_mem _ ho, r', he⟩

/-- Every call of a run has its entry. -/
theorem exists_mem_ingestRun {r : Receiver} {ts : OriginTables} {c : InboundCall} :
    ∀ {ro : List DispositionRow} {cs : List InboundCall}, c ∈ cs →
      ∃ r', (c.event, (ingestOriginEvent r' (c.at r ts)).2) ∈ ingestRun r ts ro cs
  | _, [], h => by cases h
  | ro, first :: cs, h => by
    rw [ingestRun]
    rcases List.mem_cons.mp h with rfl | h
    · exact ⟨ro, List.mem_cons_self⟩
    · obtain ⟨r', hm⟩ := exists_mem_ingestRun h
      exact ⟨r', List.mem_cons_of_mem _ hm⟩

/-- **When forks from a peer are detected**: exactly when the local record holds, from the
start, the place of every two verified events of one place with different hashes. -/
theorem forks_detected_iff_recorded (receiver : Receiver) (tables : OriginTables)
    (calls : List InboundCall) :
    ForksDetected receiver tables calls ↔
      ∀ call ∈ calls, ∀ call' ∈ calls, call.event.place = call'.event.place →
        call.event.eventHash ≠ call'.event.eventHash →
        Verified receiver call.event → Verified receiver call'.event →
        call.Recordable → call'.Recordable →
        (recordedHash tables call.event.place).isSome = true := by
  constructor
  · intro h call hc call' hc' hp hh hv hv' hr hr'
    by_contra hnone
    -- with no row at the place there is no evidence against either
    have hn : ∀ event : InboundOriginEvent, event.place = call.event.place →
        forkEvidence tables event = false := by
      intro event he
      rw [Bool.eq_false_iff, ne_eq, forkEvidence_iff]
      rintro ⟨has, hh, -⟩
      rw [he] at hh
      rw [hh] at hnone
      exact hnone rfl
    obtain ⟨r, hen⟩ := @exists_mem_ingestRun receiver tables call [] calls hc
    obtain ⟨r', hen'⟩ := @exists_mem_ingestRun receiver tables call' [] calls hc'
    refine h _ hen _ hen' hp hh ⟨?_, ?_⟩
    · exact (ingest_eq_applied_iff receiver tables r call).mpr ⟨hv, hr, hn _ rfl⟩
    · exact (ingest_eq_applied_iff receiver tables r' call').mpr ⟨hv', hr', hn _ hp.symm⟩
  · rintro h ⟨event, re⟩ hl ⟨e', re'⟩ hri hp hh ⟨ha, ha'⟩
    obtain ⟨call, hc, r, he, hres⟩ := mem_ingestRun hl
    obtain ⟨call', hc', r', he', hre'⟩ := mem_ingestRun hri
    simp only at hp hh ha ha' he he' hres hre'
    subst he he'
    rw [hres, ingest_eq_applied_iff] at ha
    rw [hre', ingest_eq_applied_iff] at ha'
    obtain ⟨hv, hr, hf⟩ := ha
    obtain ⟨hv', hr', hf'⟩ := ha'
    obtain ⟨has, hre⟩ := Option.isSome_iff_exists.mp (h call hc call' hc' hp hh hv hv' hr hr')
    -- the recorded hash differs from one of the two
    rw [Bool.eq_false_iff, ne_eq, forkEvidence_iff] at hf hf'
    push Not at hf hf'
    have hs := hf has hre
    rw [hp] at hre
    exact hh (hs.symm.trans (hf' has hre))

/-! ## An equivocating peer -/

/-- The peer's other event of the same number, with another revision. -/
def peerForkEvent : InboundOriginEvent :=
  { peerEvent with
    eventId := "mesh_oevt_985dcd803e7a8d038f16e4defa"
    eventHash := "blake3:29bb7de6e21f69ee0e298beb311a9c5220c9a62bb96013b29f48cdf3bf8598a9"
    signature := "testsig:9269dc14fca6030562bccbee11a26c98629f6d8855b17422b192e36734bd4c13"
    payload := .object [("operation", .string "create"),
      ("logicalMemoryId", .string "olm_00000000000000000000000009"),
      ("revisionId", .string "rev_0b"), ("bodyCommitment", .string "blake3:aa")] }

/-- The canonical text of the other event. -/
def peerForkCanonical : String :=
  "\x7b\"originNodeId\":\"node_0000000000000000000000peer1\",\"payload\":\x7b\"bodyCommitment\":"
    ++ "\"blake3:aa\",\"logicalMemoryId\":\"olm_00000000000000000000000009\",\"operation\":"
    ++ "\"create\",\"revisionId\":\"rev_0b\"\x7d,\"payloadSchema\":\"ee.mesh.memory_event.v1\","
    ++ "\"prevEventHash\":null,\"producedAt\":\"2026-08-11T00:00:00Z\",\"requiredFeatures\":[],"
    ++ "\"schema\":\"ee.mesh.origin_event.v1\",\"seq\":0,\"signingKeyGeneration\":1,"
    ++ "\"teamId\":\"team_alpha\"\x7d"

/-- The receiver of `peerReceiver`, with `blake3` and the signatures of both events. -/
def forkReceiver : Receiver :=
  { peerReceiver with
    codec := { peerReceiver.codec with
      blake3Hex := fun bytes =>
        if bytes = RustText.asBytes peerForkCanonical then
          "29bb7de6e21f69ee0e298beb311a9c5220c9a62bb96013b29f48cdf3bf8598a9"
        else if bytes = RustText.asBytes peerForkEvent.eventHash then
          "985dcd803e7a8d038f16e4defa1d36995311ea345630c699a36bda072a994d01"
        else peerReceiver.codec.blake3Hex bytes }
    verify := fun origin generation domain bytes signature =>
      peerReceiver.verify origin generation domain bytes signature ||
        decide (domain = "ee.mesh.origin_event.signature.v1"
          ∧ bytes = RustText.asBytes peerForkCanonical
          ∧ signature
            = "testsig:9269dc14fca6030562bccbee11a26c98629f6d8855b17422b192e36734bd4c13") }

theorem ingestRun_pair (r : Receiver) (ts : OriginTables) (first s : InboundCall) :
    ingestRun r ts [] [first, s] = [(first.event, (ingestOriginEvent [] (first.at r ts)).2),
        (s.event, (ingestOriginEvent (ingestOriginEvent [] (first.at r ts)).1
          (s.at r ts)).2)] := rfl

/-- The two calls of the equivocating peer. -/
def forkCall (event : InboundOriginEvent) (recordedAt : String) : InboundCall :=
  ⟨event, recordedAt, none, false⟩

/-- Both events of the equivocating peer are applied. -/
theorem fork_of_peer_applied :
    ¬ ∀ (receiver : Receiver) (tables : OriginTables) (calls : List InboundCall),
        ForksDetected receiver tables calls := by
  intro hc
  have hf := hc forkReceiver .empty [forkCall peerEvent "t1", forkCall peerForkEvent "t2"]
  obtain ⟨hfi, hs⟩ : (ingestOriginEvent [] ((forkCall peerEvent "t1").at forkReceiver
        .empty)).2.toOption = some .applied ∧
      (ingestOriginEvent (ingestOriginEvent [] ((forkCall peerEvent "t1").at forkReceiver
        .empty)).1 ((forkCall peerForkEvent "t2").at forkReceiver .empty)).2.toOption
        = some .applied := by decide +kernel
  have hh : peerEvent.eventHash ≠ peerForkEvent.eventHash := by decide +kernel
  unfold ForksDetected at hf
  rw [ingestRun_pair, Except.eq_ok_of_toOption hfi, Except.eq_ok_of_toOption hs] at hf
  exact hf _ List.mem_cons_self _ (List.mem_cons_of_mem _ List.mem_cons_self) rfl hh ⟨rfl, rfl⟩

end OriginStream
