/-
# Sync rounds between an origin and a receiver

The receiver asks the origin for events after its stored cursor, imports what comes
back into its ledger and stores a new cursor when everything received was accepted
(`src/mesh/foreground_cli.rs`, `src/mesh/responder_broker.rs`, `src/db/mod.rs`).

The receiver's classification of an event, its import policy, its JSON parsing and the
column checks of its tables are parameters (`Receiver`).
-/
import EideticEngine.OriginStream

namespace MeshSync

open Serde OriginStream

/-! ## Messages -/

/-- `SyncRoundTip`. -/
structure SyncRoundTip where
  originNodeId : String
  originWorkspaceId : String
  lastSeq : ℕ
  tipEventHash : Option String
  deriving DecidableEq, Repr

/-- `SyncRoundEvent`. -/
structure SyncRoundEvent where
  originNodeId : String
  originWorkspaceId : String
  seq : ℕ
  eventHash : String
  payloadJson : String
  deriving DecidableEq, Repr

/-- `SyncRoundRequest`. -/
structure SyncRoundRequest where
  tips : List SyncRoundTip
  rangeStartSeq : ℕ
  maxEvents : ℕ
  deriving DecidableEq, Repr

/-- `SyncRoundRequest::new`. -/
def SyncRoundRequest.new (tips : List SyncRoundTip) (rangeStartSeq maxEvents : ℕ) :
    SyncRoundRequest :=
  ⟨tips, rangeStartSeq, max 1 (min maxEvents 512)⟩

/-- `SyncRoundResponse`. -/
structure SyncRoundResponse where
  tips : List SyncRoundTip
  events : List SyncRoundEvent
  deriving DecidableEq, Repr

/-! ## The origin -/

/-- `RegisteredResponderRoute`: who answers, and from which tables. -/
structure Route where
  responderWorkspaceId : String
  teamId : String
  responderNodeId : String
  json : SerdeJson
  /-- `none` when the database cannot be opened. -/
  tables : Option OriginTables

/-- A stored row as it is sent. -/
def Route.event (route : Route) (row : StoredMeshOriginEvent) : SyncRoundEvent where
  originNodeId := row.originNodeId
  originWorkspaceId := route.responderWorkspaceId
  seq := row.seq
  eventHash := row.eventHash
  payloadJson := ((inboundFromStored route.json row).bind fun event =>
    (route.json.print event.toValue).toOption).getD row.payloadJson

/-- `load_sync_round_response`. -/
def loadSyncRoundResponse (route : Route) (rangeStartSeq maxEvents : ℕ) : SyncRoundResponse :=
  let events := match route.tables with
    | none => []
    | some tables =>
      (tables.listMeshOriginEvents route.teamId route.responderNodeId (clampI64 rangeStartSeq)
        (max 1 (min maxEvents 512))).map route.event
  { tips := [{
      originNodeId := route.responderNodeId
      originWorkspaceId := route.responderWorkspaceId
      lastSeq := (events.getLast?.map SyncRoundEvent.seq).getD 0
      tipEventHash := events.getLast?.map SyncRoundEvent.eventHash }]
    events := events }

/-! ## The receiver's tables -/

/-- `StoredMeshImportLedgerEvent`. -/
structure StoredMeshImportLedgerEvent where
  workspaceId : String
  eventId : String
  originNodeId : String
  originWorkspaceId : String
  producerPeerId : Option String
  seq : ℕ
  prevEventHash : Option String
  eventHash : String
  eventKind : String
  logicalMemoryId : String
  contentHash : String
  materialLane : String
  redactionClass : String
  trustLane : String
  importDecision : String
  localMemoryId : Option String
  bodyCacheKey : Option String
  policyFailureSurfaceJson : Option String
  policyDecisionJson : Option String
  eventJson : String
  importedAt : String
  deriving DecidableEq, Repr

/-- `StoredMeshPeerCursor`. -/
structure StoredMeshPeerCursor where
  workspaceId : String
  peerId : String
  originNodeId : String
  originWorkspaceId : String
  lastSeq : ℕ
  tipEventHash : Option String
  tipAuditHash : Option String
  status : String
  updatedAt : String
  deriving DecidableEq, Repr

/-- The tables `mesh_import_ledger` and `mesh_peer_cursors`. -/
structure ReceiverTables where
  ledger : List StoredMeshImportLedgerEvent
  cursors : List StoredMeshPeerCursor
  deriving DecidableEq, Repr

/-- `MeshEventValidity`, as far as a sync round tells. -/
inductive MeshEventValidity where
  | valid
  | malformed
  deriving DecidableEq, Repr

/-- `MeshImportDecisionKind`. -/
inductive MeshImportDecisionKind where
  | allow
  | quarantine
  | deny
  | reject
  deriving DecidableEq, Repr

/-- `MeshImportDecisionKind::as_str`. -/
def MeshImportDecisionKind.asStr : MeshImportDecisionKind → String
  | .allow => "allow"
  | .quarantine => "quarantine"
  | .deny => "deny"
  | .reject => "reject"

/-- The receiver: its identity, and what it takes from its other subsystems. -/
structure Receiver where
  workspaceId : String
  databasePath : String
  now : String
  /-- `DbConnection::open_file`. -/
  opens : Bool
  /-- `any_local_team_paused`. -/
  anyLocalTeamPaused : Except OriginStreamError Bool
  /-- `resolve_own_origin_node_id`. -/
  resolveOwnOriginNodeId : Except OriginStreamError (Option String)
  /-- `origin_node_is_active_member`. -/
  originNodeIsActiveMember : String → Except OriginStreamError (Option Bool)
  /-- `serde_json::from_str::<Value>`. -/
  parseValue : String → Option Json
  /-- `serde_json::from_str::<InboundOriginEvent>`. -/
  parseInbound : String → Option InboundOriginEvent
  /-- `ingest_origin_event` for the own origin. -/
  ingestOriginEvent : String → InboundOriginEvent → Except OriginStreamError IngestDisposition
  /-- `decide_mesh_import`, when a peer group is bound to the workspace. -/
  decideMeshImport :
    Option (SyncRoundEvent → String → MeshEventValidity → MeshImportDecisionKind)
  /-- The cache key of the body that an event names. -/
  bodyCacheKey : InboundOriginEvent → Option String
  /-- The column checks of the two tables. -/
  ledgerChecks : StoredMeshImportLedgerEvent → Bool
  cursorChecks : StoredMeshPeerCursor → Bool

namespace ReceiverTables

/-- `get_mesh_import_ledger_event`. -/
def getMeshImportLedgerEvent (tables : ReceiverTables)
    (workspaceId originNodeId originWorkspaceId : String) (seq : ℕ) :
    Except String (Option StoredMeshImportLedgerEvent) :=
  if seq ≤ i64Max then
    .ok (tables.ledger.find? fun row => row.workspaceId = workspaceId ∧
      row.originNodeId = originNodeId ∧ row.originWorkspaceId = originWorkspaceId ∧ row.seq = seq)
  else .error "mesh import ledger seq must fit i64"

/-- The text of a replay conflict. -/
def replayConflict (existing input : StoredMeshImportLedgerEvent) : String :=
  "mesh import replay conflict for " ++ input.originNodeId ++ "/" ++ input.originWorkspaceId ++ "/"
    ++ toString input.seq ++ ": existing event_hash=" ++ existing.eventHash ++ " content_hash="
    ++ existing.contentHash ++ ", incoming event_hash=" ++ input.eventHash ++ " content_hash="
    ++ input.contentHash

/-- `insert_mesh_import_ledger_event`: an equal event is found again, another event
under the same key is a conflict, and else the row is inserted. -/
def insertMeshImportLedgerEvent (checks : StoredMeshImportLedgerEvent → Bool)
    (tables : ReceiverTables) (input : StoredMeshImportLedgerEvent) :
    Except String ReceiverTables := do
  match ← tables.getMeshImportLedgerEvent input.workspaceId input.originNodeId
      input.originWorkspaceId input.seq with
  | some existing =>
    if existing.eventHash = input.eventHash ∧ existing.contentHash = input.contentHash then
      return tables
    else throw (replayConflict existing input)
  | none =>
    if checks input = false then throw "CHECK constraint failed: mesh_import_ledger"
    else if tables.ledger.any fun row => row.workspaceId = input.workspaceId ∧
        row.eventHash = input.eventHash then
      throw "UNIQUE constraint failed: mesh_import_ledger.event_hash"
    else if tables.ledger.any fun row => row.workspaceId = input.workspaceId ∧
        row.eventId = input.eventId then
      throw "UNIQUE constraint failed: mesh_import_ledger.event_id"
    else return { tables with ledger := tables.ledger ++ [input] }

/-- `get_mesh_peer_cursor`. -/
def getMeshPeerCursor (tables : ReceiverTables) (workspaceId peerId originWorkspaceId : String) :
    Option StoredMeshPeerCursor :=
  tables.cursors.find? fun row => row.workspaceId = workspaceId ∧ row.peerId = peerId ∧
    row.originWorkspaceId = originWorkspaceId

/-- `upsert_mesh_peer_cursor`. -/
def upsertMeshPeerCursor (checks : StoredMeshPeerCursor → Bool) (tables : ReceiverTables)
    (input : StoredMeshPeerCursor) : ReceiverTables :=
  if i64Max < input.lastSeq ∨ checks input = false then tables
  else
    { tables with
      cursors := (tables.cursors.filter fun row => ¬ (row.workspaceId = input.workspaceId ∧
        row.peerId = input.peerId ∧ row.originWorkspaceId = input.originWorkspaceId)) ++ [input] }

end ReceiverTables

/-! ## A round -/

/-- `ledger_event_id`. -/
def ledgerEventId (rawEventId eventHash : String) : String :=
  if rawEventId.startsWith "mesh_evt_" ∧ 9 < rawEventId.utf8ByteSize then rawEventId
  else "mesh_evt_" ++ String.ofList ((RustText.trimStartMatches "blake3:" eventHash).toList.take 24)

/-- `ledger_memory_id`. -/
def ledgerMemoryId (eventHash : String) : String :=
  "mem_" ++ String.ofList ((RustText.trimStartMatches "blake3:" eventHash).toList.take 24)

/-- The decision on an event and whether it may be appended. -/
def importDecision (receiver : Receiver) (producerPeerId : String) (event : SyncRoundEvent)
    (validity : MeshEventValidity) : String × Bool :=
  match receiver.decideMeshImport with
  | none => if validity = .valid then ("allow", true) else ("reject", false)
  | some decide =>
    let decision := decide event producerPeerId validity
    (decision.asStr, decision = .allow)

/-- The ledger row of a received event.  The ledger's numbers are positive. -/
def ledgerRow (receiver : Receiver) (producerPeerId : String) (event : SyncRoundEvent)
    (inbound : Option InboundOriginEvent) (decision : String) : StoredMeshImportLedgerEvent :=
  let parsed := receiver.parseValue event.payloadJson
  { workspaceId := receiver.workspaceId
    eventId := ledgerEventId ((parsed.bind fun value =>
      (value.get "eventId").bind Json.asStr).getD event.eventHash) event.eventHash
    originNodeId := event.originNodeId
    originWorkspaceId := event.originWorkspaceId
    producerPeerId := some producerPeerId
    seq := max event.seq 1
    prevEventHash := parsed.bind fun value => (value.get "prevEventHash").bind Json.asStr
    eventHash := event.eventHash
    eventKind := "create"
    logicalMemoryId := ledgerMemoryId event.eventHash
    contentHash := event.eventHash
    materialLane := "metadata"
    redactionClass := "metadataOnly"
    trustLane := "peerAgent"
    importDecision := decision
    localMemoryId := none
    bodyCacheKey := inbound.bind receiver.bodyCacheKey
    policyFailureSurfaceJson := none
    policyDecisionJson := none
    eventJson := event.payloadJson
    importedAt := receiver.now }

/-- Whether an event gets as far as the ledger: its origin is an active member, and an
event that parses is applied. -/
def reachesLedger (receiver : Receiver) (ownOrigin : String) (event : SyncRoundEvent)
    (inbound : Option InboundOriginEvent) : Bool :=
  (match receiver.originNodeIsActiveMember event.originNodeId with
    | .ok (some false) => false
    | _ => true) &&
  (match inbound with
    | none => true
    | some inbound =>
      match receiver.ingestOriginEvent ownOrigin inbound with
      | .ok .applied => true
      | _ => false)

/-- One round of the loop over the received events. -/
def persistEvent (receiver : Receiver) (producerPeerId ownOrigin : String)
    (acc : ReceiverTables × ℕ) (event : SyncRoundEvent) : ReceiverTables × ℕ :=
  let inbound := receiver.parseInbound event.payloadJson
  if reachesLedger receiver ownOrigin event inbound then
    let validity := if (receiver.parseValue event.payloadJson).isSome then MeshEventValidity.valid
      else .malformed
    let (decision, mayAppend) := importDecision receiver producerPeerId event validity
    match acc.1.insertMeshImportLedgerEvent receiver.ledgerChecks
        (ledgerRow receiver producerPeerId event inbound decision) with
    | .ok tables => (tables, if mayAppend then satAdd32 acc.2 1 else acc.2)
    | .error _ => acc
  else acc

/-- `persist_sync_round_events`: the tables, and how many events were accepted. -/
def persistSyncRoundEvents (receiver : Receiver) (tables : ReceiverTables)
    (producerPeerId : String) (events : List SyncRoundEvent) : ReceiverTables × ℕ :=
  if receiver.databasePath = "" ∨ events = [] ∨ receiver.opens = false then (tables, 0)
  else
    match receiver.anyLocalTeamPaused, receiver.resolveOwnOriginNodeId with
    | .ok true, _ => (tables, 0)
    | _, .error _ => (tables, 0)
    | _, .ok ownOrigin =>
      events.foldl (persistEvent receiver producerPeerId (ownOrigin.getD "")) (tables, 0)

/-- `MeshPeerRow` and `MeshPeerRecord`, as far as a request reads them. -/
structure Peer where
  peerId : String
  originNodeId : String
  workspaceId : String

/-- `local_sync_round_request`, from the cursors stored for the workspace. -/
def localSyncRoundRequest (receiver : Receiver) (tables : ReceiverTables) (peer : Peer) :
    SyncRoundRequest :=
  let tips := ((tables.cursors.filter fun cursor => cursor.workspaceId = receiver.workspaceId ∧
      cursor.peerId = peer.peerId).map fun cursor =>
    (⟨cursor.originNodeId, cursor.originWorkspaceId, cursor.lastSeq, cursor.tipEventHash⟩ :
      SyncRoundTip))
  let rangeStart := ((tips.map fun tip => satAdd64 tip.lastSeq 1).min?).getD 0
  .new (if tips.isEmpty then [⟨peer.originNodeId, peer.workspaceId, 0, none⟩] else tips)
    rangeStart 512

/-- `persist_sync_round_cursor`. -/
def persistSyncRoundCursor (receiver : Receiver) (tables : ReceiverTables) (peerId : String)
    (sync : SyncRoundResponse) : ReceiverTables :=
  let tip := sync.tips.head?.or (sync.events.getLast?.map fun event =>
    ⟨event.originNodeId, event.originWorkspaceId, event.seq, some event.eventHash⟩)
  match tip with
  | none => tables
  | some tip =>
    if receiver.opens then
      tables.upsertMeshPeerCursor receiver.cursorChecks
        { workspaceId := receiver.workspaceId
          peerId := peerId
          originNodeId := tip.originNodeId
          originWorkspaceId := tip.originWorkspaceId
          lastSeq := tip.lastSeq
          tipEventHash := tip.tipEventHash
          tipAuditHash := none
          status := "current"
          updatedAt := receiver.now }
    else tables

/-- `contact_peer`, when the exchange with the origin succeeds. -/
def syncRound (receiver : Receiver) (route : Route) (peer : Peer) (tables : ReceiverTables) :
    ReceiverTables :=
  let request := localSyncRoundRequest receiver tables peer
  let sync := loadSyncRoundResponse route request.rangeStartSeq request.maxEvents
  let received := min sync.events.length u32Max
  let (tables, accepted) := persistSyncRoundEvents receiver tables peer.peerId sync.events
  if 0 < accepted ∧ accepted = received then
    persistSyncRoundCursor receiver tables peer.peerId sync
  else tables

/-- The receiver's tables after so many rounds, from empty ones. -/
def afterRounds (receiver : Receiver) (route : Route) (peer : Peer) : ℕ → ReceiverTables
  | 0 => ⟨[], []⟩
  | n + 1 => syncRound receiver route peer (afterRounds receiver route peer n)

end MeshSync
