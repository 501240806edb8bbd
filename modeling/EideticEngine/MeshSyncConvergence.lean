/-
# Which chains a sync brings over

The origin numbers its events from zero and the ledger's numbers are positive, so
`persist_sync_round_events` raises number zero to one (`ledgerRow`).  The first two
events of a chain then share one ledger key, and however often the rounds are repeated
there is one row too few.  Chains of at most one event are brought over.
-/
import EideticEngine.MeshSync
import EideticEngine.OriginWriters

namespace MeshSync

open Serde OriginStream

/-! ## The ledger after any number of rounds -/

/-- The rows belong to the stream of the route, and their numbers are distinct and
between one and a bound. -/
structure LedgerInv (receiver : Receiver) (route : Route) (bound : ℕ) (tables : ReceiverTables) :
    Prop where
  key : ∀ row ∈ tables.ledger, row.workspaceId = receiver.workspaceId ∧
    row.originNodeId = route.responderNodeId ∧ row.originWorkspaceId = route.responderWorkspaceId
  range : ∀ row ∈ tables.ledger, 1 ≤ row.seq ∧ row.seq ≤ bound
  nodup : (tables.ledger.map StoredMeshImportLedgerEvent.seq).Nodup

/-- An event of the stream, with a number up to the bound. -/
structure Served (route : Route) (bound : ℕ) (event : SyncRoundEvent) : Prop where
  originNodeId_eq : event.originNodeId = route.responderNodeId
  originWorkspaceId_eq : event.originWorkspaceId = route.responderWorkspaceId
  seq_le : event.seq ≤ bound

/-- What an insertion does: it keeps the ledger, or adds a row under a free key. -/
theorem insertMeshImportLedgerEvent_ok {cs : StoredMeshImportLedgerEvent → Bool}
    {tables ts' : ReceiverTables} {inp : StoredMeshImportLedgerEvent}
    (h : tables.insertMeshImportLedgerEvent cs inp = .ok ts') :
    ts' = tables ∨ (ts' = { tables with ledger := tables.ledger ++ [inp] } ∧
        ∀ row ∈ tables.ledger, row.workspaceId = inp.workspaceId →
          row.originNodeId = inp.originNodeId →
          row.originWorkspaceId = inp.originWorkspaceId → row.seq ≠ inp.seq) := by
  unfold ReceiverTables.insertMeshImportLedgerEvent at h
  obtain ⟨ex, hg, h⟩ := Except.bind_eq_ok_iff.mp h
  unfold ReceiverTables.getMeshImportLedgerEvent at hg
  split at hg
  case isFalse => cases hg
  case isTrue =>
    cases hg
    cases hf : tables.ledger.find? fun row => row.workspaceId = inp.workspaceId ∧
      row.originNodeId = inp.originNodeId ∧ row.originWorkspaceId = inp.originWorkspaceId ∧
      row.seq = inp.seq with
    | some ex =>
      rw [hf] at h
      simp only at h
      split at h
      · cases h
        exact Or.inl rfl
      · cases h
    | none =>
      rw [hf] at h
      simp only at h
      split at h
      · cases h
      split at h
      · cases h
      split at h
      · cases h
      cases h
      refine Or.inr ⟨rfl, ?_⟩
      intro row hr hw hor ho hs
      rw [List.find?_eq_none] at hf
      exact hf row hr (decide_eq_true ⟨hw, hor, ho, hs⟩)

section Rounds

variable {receiver : Receiver} {route : Route} {bound : ℕ} {tables : ReceiverTables}

/-- One received event keeps the invariant. -/
theorem LedgerInv.persistEvent {peerId oo : String} {acc : ReceiverTables × ℕ}
    (h : LedgerInv receiver route (max bound 1) acc.1) {event : SyncRoundEvent}
    (he : Served route bound event) :
    LedgerInv receiver route (max bound 1)
      (MeshSync.persistEvent receiver peerId oo acc event).1 := by
  unfold MeshSync.persistEvent
  simp only
  split
  case isFalse => exact h
  case isTrue =>
    split
    case h_2 => exact h
    case h_1 tables' hinsert =>
      rcases insertMeshImportLedgerEvent_ok hinsert with rfl | ⟨rfl, hf⟩
      · exact h
      refine ⟨?_, ?_, ?_⟩
      · intro row hr
        rcases List.mem_append.mp hr with hol | hn
        · exact h.key row hol
        · rw [List.mem_singleton.mp hn]
          exact ⟨rfl, he.originNodeId_eq, he.originWorkspaceId_eq⟩
      · intro row hr
        rcases List.mem_append.mp hr with hol | hn
        · exact h.range row hol
        · rw [List.mem_singleton.mp hn]
          have hs := he.seq_le
          simp only [ledgerRow]
          omega
      · rw [List.map_append, List.nodup_append]
        refine ⟨h.nodup, by simp, ?_⟩
        intro seq hs s' hs' heq
        obtain ⟨row, hr, rfl⟩ := List.mem_map.mp hs
        rw [List.map_singleton, List.mem_singleton] at hs'
        obtain ⟨hw, hor, ho⟩ := h.key row hr
        refine hf row hr hw ?_ ?_ (heq.trans hs')
        · rw [hor]
          exact he.originNodeId_eq.symm
        · rw [ho]
          exact he.originWorkspaceId_eq.symm

/-- So does a whole batch. -/
theorem LedgerInv.persistSyncRoundEvents (h : LedgerInv receiver route (max bound 1) tables)
    (peerId : String) {es : List SyncRoundEvent}
    (he : ∀ event ∈ es, Served route bound event) :
    LedgerInv receiver route (max bound 1)
      (MeshSync.persistSyncRoundEvents receiver tables peerId es).1 := by
  have hf : ∀ (oo : String) (es : List SyncRoundEvent) (acc : ReceiverTables × ℕ),
      LedgerInv receiver route (max bound 1) acc.1 →
      (∀ event ∈ es, Served route bound event) →
      LedgerInv receiver route (max bound 1)
        (es.foldl (MeshSync.persistEvent receiver peerId oo) acc).1 := by
    intro oo es
    induction es with
    | nil => intro acc ha _; exact ha
    | cons event es ih =>
      intro acc ha hs
      obtain ⟨hh, ht⟩ := List.forall_mem_cons.mp hs
      exact ih _ (ha.persistEvent hh) ht
  unfold MeshSync.persistSyncRoundEvents
  split
  · exact h
  split
  · exact h
  · exact h
  · exact hf _ es _ h he

/-- Storing a cursor does not touch the ledger. -/
theorem ledger_persistSyncRoundCursor (receiver : Receiver) (tables : ReceiverTables)
    (peerId : String) (s : SyncRoundResponse) :
    (persistSyncRoundCursor receiver tables peerId s).ledger = tables.ledger := by
  unfold persistSyncRoundCursor ReceiverTables.upsertMeshPeerCursor
  simp only
  split
  · rfl
  split
  · split <;> rfl
  · rfl

/-- What the origin serves belongs to its stream. -/
theorem served_of_mem {origin : OriginTables} (hl : LinearTables origin)
    (ht : route.tables = some origin) (rss maxEvents : ℕ) :
    ∀ event ∈ (loadSyncRoundResponse route rss maxEvents).events,
      Served route ((origin.stream route.teamId route.responderNodeId).length - 1) event := by
  intro event he
  unfold loadSyncRoundResponse at he
  rw [ht] at he
  obtain ⟨row, hr, rfl⟩ := List.mem_map.mp he
  have hm := List.mem_filter.mp ((List.perm_insertionSort _ _).mem_iff.mp (List.mem_of_mem_take hr))
  have hc := of_decide_eq_true (List.mem_filter.mp hm.1).2
  obtain ⟨k, hk⟩ := List.mem_iff_getElem?.mp hm.1
  have hlt := (List.getElem?_eq_some_iff.mp hk).1
  refine ⟨hc.2, rfl, ?_⟩
  have hs := (hl.linear _ _).seq_eq hk
  simp only [Route.event]
  omega

/-- **Every round keeps the invariant.** -/
theorem LedgerInv.syncRound {origin : OriginTables} (hl : LinearTables origin)
    (ht : route.tables = some origin) (peer : Peer)
    (h : LedgerInv receiver route
      (max ((origin.stream route.teamId route.responderNodeId).length - 1) 1) tables) :
    LedgerInv receiver route (max ((origin.stream route.teamId route.responderNodeId).length - 1) 1)
      (MeshSync.syncRound receiver route peer tables) := by
  have hp := h.persistSyncRoundEvents peer.peerId
    (served_of_mem hl ht (localSyncRoundRequest receiver tables peer).rangeStartSeq
      (localSyncRoundRequest receiver tables peer).maxEvents)
  unfold MeshSync.syncRound
  simp only
  split
  · exact ⟨by rw [ledger_persistSyncRoundCursor]; exact hp.key,
      by rw [ledger_persistSyncRoundCursor]; exact hp.range,
      by rw [ledger_persistSyncRoundCursor]; exact hp.nodup⟩
  · exact hp

theorem ledgerInv_afterRounds {origin : OriginTables} (hl : LinearTables origin)
    (ht : route.tables = some origin) (peer : Peer) (rs : ℕ) :
    LedgerInv receiver route (max ((origin.stream route.teamId route.responderNodeId).length - 1) 1)
      (afterRounds receiver route peer rs) := by
  induction rs with
  | zero => exact ⟨by simp [afterRounds], by simp [afterRounds], by simp [afterRounds]⟩
  | succ rs ih => exact ih.syncRound hl ht peer

/-- The ledger has at most as many rows as there are numbers. -/
theorem LedgerInv.length_le (h : LedgerInv receiver route bound tables) :
    tables.ledger.length ≤ bound := by
  have hsu : (tables.ledger.map StoredMeshImportLedgerEvent.seq).toFinset ⊆ Finset.Icc 1 bound := by
    intro seq hs
    obtain ⟨row, hr, rfl⟩ := List.mem_map.mp (List.mem_toFinset.mp hs)
    exact Finset.mem_Icc.mpr (h.range row hr)
  have hc := Finset.card_le_card hsu
  rw [List.toFinset_card_of_nodup h.nodup, List.length_map, Nat.card_Icc] at hc
  omega

end Rounds

/-! ## Convergence -/

/-- The rows of the ledger that stand for events of the route's stream. -/
def streamRows (receiver : Receiver) (route : Route) (tables : ReceiverTables) :
    List StoredMeshImportLedgerEvent :=
  tables.ledger.filter fun row => row.workspaceId = receiver.workspaceId ∧
    row.originNodeId = route.responderNodeId ∧ row.originWorkspaceId = route.responderWorkspaceId

/-- One ledger row for each event of the chain, and the cursor at its last number. -/
def Converged (receiver : Receiver) (route : Route) (peer : Peer)
    (chain : List StoredMeshOriginEvent) (tables : ReceiverTables) : Prop :=
  ((streamRows receiver route tables).map StoredMeshImportLedgerEvent.eventHash).Perm
      (chain.map StoredMeshOriginEvent.eventHash) ∧
    ∀ last, chain.length = last + 1 →
      (tables.getMeshPeerCursor receiver.workspaceId peer.peerId route.responderWorkspaceId).map
        StoredMeshPeerCursor.lastSeq = some last

/-- The receiver applies and allows every event of the chain, and its database fails at
nothing. -/
structure Permissive (receiver : Receiver) (route : Route) (peer : Peer)
    (chain : List StoredMeshOriginEvent) : Prop where
  path : receiver.databasePath ≠ ""
  opens : receiver.opens = true
  paused : receiver.anyLocalTeamPaused = .ok false
  applied : ∃ own, receiver.resolveOwnOriginNodeId = .ok own ∧ ∀ row ∈ chain,
    reachesLedger receiver (own.getD "") (route.event row)
      (receiver.parseInbound (route.event row).payloadJson) = true
  parses : ∀ row ∈ chain, (receiver.parseValue (route.event row).payloadJson).isSome
  allowed : ∀ row ∈ chain,
    importDecision receiver peer.peerId (route.event row) .valid = ("allow", true)
  ledgerChecks : ∀ row ∈ chain, receiver.ledgerChecks
    (ledgerRow receiver peer.peerId (route.event row)
      (receiver.parseInbound (route.event row).payloadJson) "allow") = true
  cursorChecks : ∀ cursor, cursor.originNodeId = route.responderNodeId →
    cursor.originWorkspaceId = route.responderWorkspaceId → receiver.cursorChecks cursor = true

section Converge

variable {receiver : Receiver} {route : Route} {peer : Peer} {origin : OriginTables}

/-- A chain of two events or more is never brought over. -/
theorem not_converged_of_two_le (hl : LinearTables origin) (ht : route.tables = some origin)
    (hle : 2 ≤ (origin.stream route.teamId route.responderNodeId).length) (rs : ℕ) :
    ¬ Converged receiver route peer (origin.stream route.teamId route.responderNodeId)
      (afterRounds receiver route peer rs) := by
  rintro ⟨hp, -⟩
  have hi : LedgerInv receiver route _ (afterRounds receiver route peer rs) :=
    ledgerInv_afterRounds hl ht peer rs
  have hb := hi.length_le
  have hr := List.length_filter_le (fun row => decide (row.workspaceId = receiver.workspaceId ∧
    row.originNodeId = route.responderNodeId ∧ row.originWorkspaceId = route.responderWorkspaceId))
    (afterRounds receiver route peer rs).ledger
  have hc := hp.length_eq
  rw [List.length_map, List.length_map] at hc
  unfold streamRows at hc
  omega

/-- With nothing to send, a round changes nothing. -/
theorem syncRound_of_no_events {tables : ReceiverTables}
    (h : (loadSyncRoundResponse route (localSyncRoundRequest receiver tables peer).rangeStartSeq
      (localSyncRoundRequest receiver tables peer).maxEvents).events = []) :
    syncRound receiver route peer tables = tables := by
  unfold syncRound
  simp only [h]
  unfold persistSyncRoundEvents
  simp

/-- An origin without events leaves the receiver as it is. -/
theorem afterRounds_empty (ht : route.tables = some origin)
    (hs : origin.stream route.teamId route.responderNodeId = []) (rs : ℕ) :
    afterRounds receiver route peer rs = ⟨[], []⟩ := by
  induction rs with
  | zero => rfl
  | succ rs ih =>
    rw [afterRounds, ih]
    apply syncRound_of_no_events
    unfold loadSyncRoundResponse OriginTables.listMeshOriginEvents
    rw [ht]
    simp [hs]

/-- What the origin of a single event answers. -/
theorem loadSyncRoundResponse_single {row : StoredMeshOriginEvent} (ht : route.tables = some origin)
    (hs : origin.stream route.teamId route.responderNodeId = [row]) (hse : row.seq = 0)
    (rss maxEvents : ℕ) :
    loadSyncRoundResponse route rss maxEvents = if rss = 0 then
        ⟨[⟨route.responderNodeId, route.responderWorkspaceId, 0, some row.eventHash⟩],
          [route.event row]⟩
      else ⟨[⟨route.responderNodeId, route.responderWorkspaceId, 0, none⟩], []⟩ := by
  have hc : clampI64 rss ≤ row.seq ↔ rss = 0 := by
    rw [hse]
    unfold clampI64 i64Max
    omega
  have hf : [row].filter (fun row => decide (clampI64 rss ≤ row.seq))
      = if rss = 0 then [row] else [] := by
    simp [List.filter_cons, hc]
  unfold loadSyncRoundResponse OriginTables.listMeshOriginEvents
  rw [ht]
  simp only [hs, hf]
  by_cases hz : rss = 0
  · rw [if_pos hz, if_pos hz, List.take_of_length_le (by simp)]
    simp [Route.event, hse]
  · rw [if_neg hz, if_neg hz]
    simp

/-- The ledger row of the only event. -/
def singleRow (receiver : Receiver) (route : Route) (peer : Peer) (row : StoredMeshOriginEvent) :
    StoredMeshImportLedgerEvent :=
  ledgerRow receiver peer.peerId (route.event row)
    (receiver.parseInbound (route.event row).payloadJson) "allow"

/-- The cursor stored after the only event. -/
def singleCursor (receiver : Receiver) (route : Route) (peer : Peer)
    (row : StoredMeshOriginEvent) : StoredMeshPeerCursor where
  workspaceId := receiver.workspaceId
  peerId := peer.peerId
  originNodeId := route.responderNodeId
  originWorkspaceId := route.responderWorkspaceId
  lastSeq := 0
  tipEventHash := some row.eventHash
  tipAuditHash := none
  status := "current"
  updatedAt := receiver.now

/-- A permissive receiver takes the only event into an empty ledger. -/
theorem persistSyncRoundEvents_single {row : StoredMeshOriginEvent}
    (hp : Permissive receiver route peer [row]) (hs : row.seq = 0) :
    persistSyncRoundEvents receiver ⟨[], []⟩ peer.peerId [route.event row]
      = (⟨[singleRow receiver route peer row], []⟩, 1) := by
  obtain ⟨own, ho, hr⟩ := hp.applied
  have hm : row ∈ [row] := List.mem_singleton_self row
  have hi : ReceiverTables.insertMeshImportLedgerEvent receiver.ledgerChecks ⟨[], []⟩
      (singleRow receiver route peer row)
      = .ok ⟨[singleRow receiver route peer row], []⟩ := by
    have hc := hp.ledgerChecks row hm
    have hn : (singleRow receiver route peer row).seq ≤ i64Max := by
      simp only [singleRow, ledgerRow, Route.event, hs, i64Max]
      omega
    unfold ReceiverTables.insertMeshImportLedgerEvent ReceiverTables.getMeshImportLedgerEvent
    rw [if_pos hn]
    have hc' : receiver.ledgerChecks (singleRow receiver route peer row) = true := hc
    simp only [List.find?_nil, hc', List.any_nil]
    rfl
  have he : persistEvent receiver peer.peerId (own.getD "") (⟨[], []⟩, 0) (route.event row)
      = (⟨[singleRow receiver route peer row], []⟩, 1) := by
    unfold persistEvent
    simp only [hr row hm, if_true, hp.parses row hm, hp.allowed row hm]
    rw [show ledgerRow receiver peer.peerId (route.event row)
      (receiver.parseInbound (route.event row).payloadJson) "allow"
      = singleRow receiver route peer row from rfl, hi]
    rfl
  unfold persistSyncRoundEvents
  rw [if_neg (by simp [hp.path, hp.opens]), hp.paused, ho]
  simp only [List.foldl_cons, List.foldl_nil]
  exact he

/-- A chain of one event is brought over in one round, and stays. -/
theorem afterRounds_single {row : StoredMeshOriginEvent} (ht : route.tables = some origin)
    (hs : origin.stream route.teamId route.responderNodeId = [row]) (hse : row.seq = 0)
    (hp : Permissive receiver route peer [row]) (rs : ℕ) :
    afterRounds receiver route peer (rs + 1)
      = ⟨[singleRow receiver route peer row], [singleCursor receiver route peer row]⟩ := by
  induction rs with
  | zero =>
    have hc : receiver.cursorChecks (singleCursor receiver route peer row) = true :=
      hp.cursorChecks _ rfl rfl
    have hst : persistSyncRoundCursor receiver ⟨[singleRow receiver route peer row], []⟩
        peer.peerId ⟨[⟨route.responderNodeId, route.responderWorkspaceId, 0, some row.eventHash⟩],
          [route.event row]⟩
        = ⟨[singleRow receiver route peer row], [singleCursor receiver route peer row]⟩ := by
      unfold persistSyncRoundCursor ReceiverTables.upsertMeshPeerCursor
      simp only [List.head?_cons, Option.some_or, hp.opens, if_true]
      rw [if_neg]
      · rfl
      · rw [not_or]
        exact ⟨by simp, by rw [Bool.not_eq_false]; exact hc⟩
    have hl : loadSyncRoundResponse route
        (localSyncRoundRequest receiver ⟨[], []⟩ peer).rangeStartSeq
        (localSyncRoundRequest receiver ⟨[], []⟩ peer).maxEvents
        = ⟨[⟨route.responderNodeId, route.responderWorkspaceId, 0, some row.eventHash⟩],
          [route.event row]⟩ := by
      rw [loadSyncRoundResponse_single ht hs hse]
      exact if_pos rfl
    rw [afterRounds, afterRounds, syncRound]
    simp only
    rw [hl, persistSyncRoundEvents_single hp hse]
    simp only [List.length_singleton]
    rw [if_pos ⟨Nat.one_pos, by decide⟩, hst]
  | succ rs ih =>
    rw [afterRounds, ih]
    apply syncRound_of_no_events
    rw [loadSyncRoundResponse_single ht hs hse, if_neg]
    simp [localSyncRoundRequest, singleCursor, SyncRoundRequest.new, satAdd64, u64Max]

end Converge

/-- **Sync rounds bring over a chain built by appends exactly when it has at most one
event.** -/
theorem sync_converges_iff (codec : Codec) (W : Type) [DecidableEq W]
    (steps : List (WriterStep W)) (receiver : Receiver) (route : Route) (peer : Peer)
    (htables : route.tables = some ((Writers.start : Writers codec W).run steps).tables)
    (hperm : Permissive receiver route peer (((Writers.start : Writers codec W).run
      steps).tables.stream route.teamId route.responderNodeId)) :
    (∃ enough, ∀ rounds, enough ≤ rounds → Converged receiver route peer
        (((Writers.start : Writers codec W).run steps).tables.stream route.teamId
          route.responderNodeId) (afterRounds receiver route peer rounds)) ↔
      (((Writers.start : Writers codec W).run steps).tables.stream route.teamId
        route.responderNodeId).length ≤ 1 := by
  have hl : LinearTables ((Writers.start : Writers codec W).run steps).tables :=
    (Writers.inv_start.run steps).tables
  generalize ((Writers.start : Writers codec W).run steps).tables = origin at *
  refine ⟨?_, ?_⟩
  · rintro ⟨enough, hc⟩
    by_contra hle
    exact not_converged_of_two_le hl htables (by omega) enough (hc enough le_rfl)
  · intro hle
    cases hs : origin.stream route.teamId route.responderNodeId with
    | nil =>
      refine ⟨0, fun rounds _ => ?_⟩
      rw [afterRounds_empty htables hs]
      exact ⟨by simp [streamRows], by simp⟩
    | cons row r =>
      rw [hs] at hperm hle
      have hre : r = [] := by
        cases r with
        | nil => rfl
        | cons _ _ => simp at hle
      subst hre
      have hse : row.seq = 0 := by
        have hro : (origin.stream route.teamId route.responderNodeId)[0]? = some row := by
          rw [hs]
          rfl
        exact (hl.linear _ _).seq_eq hro
      refine ⟨1, fun rounds hr => ?_⟩
      obtain ⟨rounds, rfl⟩ := Nat.exists_eq_add_of_le' hr
      rw [afterRounds_single htables hs hse hperm]
      have hn : row.originNodeId = route.responderNodeId := by
        have hm : row ∈ origin.stream route.teamId route.responderNodeId := by
          rw [hs]
          exact List.mem_singleton_self row
        exact (of_decide_eq_true (List.mem_filter.mp hm).2).2
      refine ⟨?_, ?_⟩
      · simp [streamRows, singleRow, ledgerRow, Route.event, hn]
      · intro l hla
        have hz : l = 0 := by simpa using hla.symm
        simp [ReceiverTables.getMeshPeerCursor, singleCursor, hz]

/-! ## One event and two events -/

/-- One writer that appends the sample request so many times. -/
def sampleSteps (count : ℕ) : List (WriterStep Unit) :=
  (List.replicate count
    [.read () Writers.sampleSigner Writers.sampleRequest, .write () .none]).flatten

/-- The origin after so many appends. -/
def sampleTables (count : ℕ) : OriginTables :=
  ((Writers.start : Writers Writers.sampleCodec Unit).run (sampleSteps count)).tables

/-- It answers from those tables. -/
def sampleRoute (count : ℕ) : Route where
  responderWorkspaceId := "wsp_origin"
  teamId := "team_a1"
  responderNodeId := "node_a1"
  json := Writers.sampleCodec.json
  tables := some (sampleTables count)

/-- The events that a receiver may be sent. -/
def sampleInbound : List InboundOriginEvent :=
  ((sampleTables 2).stream "team_a1" "node_a1").filterMap
    (inboundFromStored Writers.sampleCodec.json)

/-- A receiver without team members and without policy bindings. -/
def sampleReceiver : Receiver where
  workspaceId := "wsp_local"
  databasePath := "ee.db"
  now := "2026-01-01T00:00:00Z"
  opens := true
  anyLocalTeamPaused := .ok false
  resolveOwnOriginNodeId := .ok none
  originNodeIsActiveMember _ := .ok none
  parseValue text := (sampleInbound.find? fun event => event.toValue.compact = text).map
    InboundOriginEvent.toValue
  parseInbound text := sampleInbound.find? fun event => event.toValue.compact = text
  ingestOriginEvent _ _ := .ok .applied
  decideMeshImport := none
  bodyCacheKey _ := none
  ledgerChecks _ := true
  cursorChecks _ := true

/-- How the receiver knows the origin. -/
def samplePeer : Peer := ⟨"peer_origin", "node_a1", "wsp_origin"⟩

/-- This receiver is permissive as soon as it parses what it is sent. -/
theorem samplePermissive {count : ℕ}
    (hp : ∀ row ∈ (sampleTables count).stream "team_a1" "node_a1",
      (sampleReceiver.parseValue ((sampleRoute count).event row).payloadJson).isSome) :
    Permissive sampleReceiver (sampleRoute count) samplePeer
      ((sampleTables count).stream "team_a1" "node_a1") where
  path := by decide
  opens := rfl
  paused := rfl
  applied := by
    refine ⟨none, rfl, fun row _ => ?_⟩
    unfold reachesLedger
    cases sampleReceiver.parseInbound ((sampleRoute count).event row).payloadJson <;> rfl
  parses := hp
  allowed _ _ := rfl
  ledgerChecks _ _ := rfl
  cursorChecks _ _ _ := rfl

/-- The receiver parses the events of one append and of two, which are as many. -/
theorem sampleTables_parse :
    ((∀ row ∈ (sampleTables 1).stream "team_a1" "node_a1",
        (sampleReceiver.parseValue ((sampleRoute 1).event row).payloadJson).isSome) ∧
      ((sampleTables 1).stream "team_a1" "node_a1").length ≤ 1) ∧
    (∀ row ∈ (sampleTables 2).stream "team_a1" "node_a1",
        (sampleReceiver.parseValue ((sampleRoute 2).event row).payloadJson).isSome) ∧
      2 ≤ ((sampleTables 2).stream "team_a1" "node_a1").length := by
  decide +kernel

/-- One event is brought over. -/
theorem sync_converges_one_event :
    ∃ enough, ∀ rounds, enough ≤ rounds → Converged sampleReceiver (sampleRoute 1) samplePeer
      ((sampleTables 1).stream "team_a1" "node_a1")
      (afterRounds sampleReceiver (sampleRoute 1) samplePeer rounds) :=
  (sync_converges_iff Writers.sampleCodec Unit (sampleSteps 1) sampleReceiver (sampleRoute 1)
    samplePeer rfl (samplePermissive sampleTables_parse.1.1)).mpr sampleTables_parse.1.2

/-- Two events are not, in any number of rounds: the second is a replay conflict with
the first. -/
theorem sync_two_events_conflict : Permissive sampleReceiver (sampleRoute 2) samplePeer
        ((sampleTables 2).stream "team_a1" "node_a1") ∧
      ¬ ∃ enough, ∀ rounds, enough ≤ rounds → Converged sampleReceiver (sampleRoute 2) samplePeer
          ((sampleTables 2).stream "team_a1" "node_a1")
          (afterRounds sampleReceiver (sampleRoute 2) samplePeer rounds) := by
  refine ⟨samplePermissive sampleTables_parse.2.1, ?_⟩
  rintro ⟨enough, hc⟩
  have hl : LinearTables (sampleTables 2) := (Writers.inv_start.run (sampleSteps 2)).tables
  have htwo : 2 ≤ ((sampleTables 2).stream (sampleRoute 2).teamId
      (sampleRoute 2).responderNodeId).length := sampleTables_parse.2.2
  exact not_converged_of_two_le hl rfl htwo enough (hc enough le_rfl)

end MeshSync
