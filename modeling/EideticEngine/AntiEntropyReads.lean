/-
# What a node shows its readers (`src/mesh/anti_entropy_model.rs`)

A Tier 1 read returns the logical heads of all accepted events at once, and a later
notice lists the origins whose contiguous cursor rose since.  The visibility of a
logical memory is computed from its accepted events and the time; as events are only
ever added, it decays.
-/
import EideticEngine.AntiEntropyFrontier

namespace AntiEntropyModel

open Std (ExtTreeMap ExtTreeSet)

/-! ## Tier 1 reads and revision notices -/

/-- `Tier1Read`. -/
structure Tier1Read where
  frontier : ExtTreeMap String ℕ
  logicalHeads : ExtTreeMap String (List String)

/-- `FrontierAdvance`. -/
structure FrontierAdvance where
  originNodeId : String
  fromSeq : ℕ
  toSeq : ℕ
  deriving DecidableEq, Repr

/-- `RevisionNotice`. -/
structure RevisionNotice where
  advancedOrigins : List FrontierAdvance
  deriving DecidableEq, Repr

namespace ModelNode

/-- `ModelNode::tier1_read`. -/
def tier1Read (node : ModelNode) : Tier1Read where
  frontier := node.frontier
  logicalHeads := node.logicalHeads

/-- The loop of `ModelNode::revision_notice_since`. -/
def advancedOrigins (node : ModelNode) (read : Tier1Read) : List FrontierAdvance :=
  node.frontier.toList.filterMap fun (originNodeId, toSeq) =>
    let fromSeq := read.frontier[originNodeId]?.getD 0
    if toSeq > fromSeq then some ⟨originNodeId, fromSeq, toSeq⟩ else none

/-- `ModelNode::revision_notice_since`. -/
def revisionNoticeSince (node : ModelNode) (read : Tier1Read) : Option RevisionNotice :=
  let advancedOrigins := node.advancedOrigins read
  if advancedOrigins = [] then none else some ⟨advancedOrigins⟩

/-- Deliver events one after the other, each with the verdict of the import layer. -/
def replayAllWithValidation (node : ModelNode)
    (deliveries : List (ModelEvent × ReplayValidation)) : ModelNode :=
  deliveries.foldl (fun node (event, validation) =>
    (node.replayWithValidation event validation).1) node

theorem replayAllWithValidation_eq_run (node : ModelNode)
    (ds : List (ModelEvent × ReplayValidation)) :
    node.replayAllWithValidation ds = node.run (ds.map fun d => NodeOp.replay d.1 d.2) := by
  unfold replayAllWithValidation run
  rw [List.foldl_map]
  rfl

/-- Deliveries audit no skips. -/
theorem auditedSkips_replayAllWithValidation (node : ModelNode)
    (ds : List (ModelEvent × ReplayValidation)) :
    (node.replayAllWithValidation ds).auditedSkips = node.auditedSkips := by
  induction ds generalizing node with
  | nil => rfl
  | cons d ds ih =>
    obtain ⟨event, v⟩ := d
    change ((node.replayWithValidation event v).1.replayAllWithValidation ds).auditedSkips = _
    rw [ih]
    cases v with
    | accept =>
      change (node.replay event).1.auditedSkips = _
      rcases replay_cases node event with ⟨-, hr⟩ | ⟨-, hr⟩
      · rw [hr]
      · rw [hr, (advanceFrontierFor_rest _ _).2.2.1]
    | quarantine reason => rfl

/-- The origins that a notice has to list: their cursor rose. -/
theorem mem_advancedOrigins_iff (node now : ModelNode) (advance : FrontierAdvance) :
    advance ∈ now.advancedOrigins node.tier1Read ↔
      advance.fromSeq = node.cursorFor advance.originNodeId ∧
        advance.toSeq = now.cursorFor advance.originNodeId ∧ advance.fromSeq < advance.toSeq := by
  obtain ⟨o, fs, ts⟩ := advance
  unfold advancedOrigins
  rw [List.mem_filterMap]
  change _ ↔ fs = node.cursorFor o ∧ ts = now.cursorFor o ∧ fs < ts
  constructor
  · rintro ⟨⟨o', tip⟩, hm, ha⟩
    rw [ExtTreeMap.mem_toList_iff_getElem?_eq_some] at hm
    simp only at ha
    split at ha
    · rename_i hlt
      cases ha
      refine ⟨rfl, ?_, hlt⟩
      unfold cursorFor
      rw [hm]
      rfl
    · cases ha
  · rintro ⟨rfl, rfl, hlt⟩
    have he : now.frontier[o]? = some (now.cursorFor o) := by
      unfold cursorFor at hlt ⊢
      cases hg : now.frontier[o]? with
      | none =>
        rw [hg] at hlt
        exact absurd hlt (Nat.not_lt_zero _)
      | some tip => rfl
    refine ⟨(o, now.cursorFor o), ExtTreeMap.mem_toList_iff_getElem?_eq_some.mpr he, ?_⟩
    exact if_pos hlt

/-- A notice is returned when some cursor rose since the read. -/
theorem revisionNoticeSince_isSome_iff (node now : ModelNode) :
    (now.revisionNoticeSince node.tier1Read).isSome = true ↔
      ∃ o, node.cursorFor o < now.cursorFor o := by
  unfold revisionNoticeSince
  simp only
  split
  · rename_i he
    simp only [Option.isSome_none, Bool.false_eq_true, false_iff, not_exists]
    intro o hlt
    have hm := (mem_advancedOrigins_iff node now
      ⟨o, node.cursorFor o, now.cursorFor o⟩).mpr ⟨rfl, rfl, hlt⟩
    rw [he] at hm
    cases hm
  · rename_i hs
    obtain ⟨advance, hm⟩ := List.exists_mem_of_ne_nil _ hs
    obtain ⟨hf, hto, hlt⟩ := (mem_advancedOrigins_iff node now advance).mp hm
    rw [hf, hto] at hlt
    exact ⟨fun _ => ⟨_, hlt⟩, fun _ => rfl⟩

/-- The position right after the cursor of its origin; sequence numbers are `u64`. -/
def FollowsCursor (node : ModelNode) (key : EventKey) : Prop :=
  key.seq = node.cursorFor key.originNodeId + 1 ∧ key.seq ≤ u64Max

/-- From an exact node on, a cursor rises when deliveries bring the event after it. -/
theorem Exact.cursor_rose_iff {node : ModelNode} (h : Exact node)
    (ds : List (ModelEvent × ReplayValidation)) (o : String) :
    node.cursorFor o < (node.replayAllWithValidation ds).cursorFor o ↔
      ∃ seq, Gained node (node.replayAllWithValidation ds) ⟨o, seq⟩ ∧
        node.FollowsCursor ⟨o, seq⟩ := by
  have hsk := auditedSkips_replayAllWithValidation node ds
  have he : Exact (node.replayAllWithValidation ds) := by
    rw [replayAllWithValidation_eq_run]
    exact h.run _
  have hle : node.cursorFor o ≤ (node.replayAllWithValidation ds).cursorFor o := by
    rw [replayAllWithValidation_eq_run]
    exact cursorFor_le_run _ _ _
  set now := node.replayAllWithValidation ds
  constructor
  · intro hlt
    have hc : now.cursorFor o ≤ u64Max := by
      have := (he o).le_cap
      omega
    have hs := (he o).filled_of (node.cursorFor o + 1) (by omega) (by omega)
    have ho := (h o).stopped (by omega)
    rw [hasDurableOrAuditedSkip_iff, hsk] at hs
    rw [Bool.eq_false_iff, ne_eq, hasDurableOrAuditedSkip_iff, not_or] at ho
    refine ⟨node.cursorFor o + 1, ⟨hs.resolve_right ho.2, ho.1⟩, rfl, ?_⟩
    change node.cursorFor o + 1 ≤ u64Max
    omega
  · rintro ⟨seq, ⟨hm, -⟩, hse, hc⟩
    simp only at hse hc
    by_contra hnot
    have heq : now.cursorFor o = node.cursorFor o := by omega
    have ho := (he o).stopped (by omega)
    rw [Bool.eq_false_iff, ne_eq, hasDurableOrAuditedSkip_iff, not_or, heq, ← hse] at ho
    exact ho.1 hm

/-- Nodes that accepted the same events have the same heads. -/
theorem exists_gained_of_logicalHeads_ne {node : ModelNode} {ops : List NodeOp}
    (h : (node.run ops).logicalHeads ≠ node.logicalHeads) :
    ∃ key, Gained node (node.run ops) key := by
  by_contra hnone
  apply h
  have ha : (node.run ops).accepted = node.accepted := by
    apply ExtTreeMap.ext_getElem?
    intro key
    cases ho : node.accepted[key]? with
    | some event => exact accepted_run ops ho
    | none =>
      have hn : key ∉ node.accepted := by
        rw [ExtTreeMap.mem_iff_isSome_getElem?, ho]
        simp
      refine ExtTreeMap.getElem?_eq_none fun hm => hnone ⟨key, hm, hn⟩
  unfold logicalHeads eventsByLogical
  rw [ha]

/-- **Notices follow the contiguous frontier.**  After a read and some deliveries a notice
is returned exactly when one of the events gained directly follows the cursor that the
read shows for its origin, and it lists the origins whose cursor rose.  Heads that
changed without a notice come from gained events none of which is next in its stream. -/
theorem notice_follows_frontier (ops : List NodeOp)
    (deliveries : List (ModelEvent × ReplayValidation)) :
    let node := new.run ops
    let now := node.replayAllWithValidation deliveries
    ((now.revisionNoticeSince node.tier1Read).isSome = true ↔
      ∃ key, Gained node now key ∧ node.FollowsCursor key) ∧
    (now.logicalHeads ≠ node.tier1Read.logicalHeads →
      (now.revisionNoticeSince node.tier1Read).isSome = true ∨
        (∃ key, Gained node now key) ∧ ∀ key, Gained node now key → ¬ node.FollowsCursor key) ∧
    ∀ n, now.revisionNoticeSince node.tier1Read = some n → ∀ advance, advance ∈ n.advancedOrigins ↔
        advance.fromSeq = node.cursorFor advance.originNodeId ∧
          advance.toSeq = now.cursorFor advance.originNodeId ∧
          advance.fromSeq < advance.toSeq := by
  intro node now
  have he : Exact node := exact_new.run ops
  have hi : (now.revisionNoticeSince node.tier1Read).isSome = true ↔
      ∃ key, Gained node now key ∧ node.FollowsCursor key := by
    rw [revisionNoticeSince_isSome_iff]
    constructor
    · rintro ⟨o, hr⟩
      obtain ⟨seq, hg⟩ := (he.cursor_rose_iff deliveries o).mp hr
      exact ⟨⟨o, seq⟩, hg⟩
    · rintro ⟨⟨o, seq⟩, hg⟩
      exact ⟨o, (he.cursor_rose_iff deliveries o).mpr ⟨seq, hg⟩⟩
  refine ⟨hi, ?_, ?_⟩
  · intro hh
    by_cases hn : (now.revisionNoticeSince node.tier1Read).isSome = true
    · exact Or.inl hn
    · rw [hi] at hn
      push Not at hn
      have hno : now = node.run (deliveries.map fun d =>
          NodeOp.replay d.1 d.2) := replayAllWithValidation_eq_run node deliveries
      rw [hno] at hh
      have hg := exists_gained_of_logicalHeads_ne hh
      rw [← hno] at hg
      exact Or.inr ⟨hg, hn⟩
  · intro n hn advance
    rw [← mem_advancedOrigins_iff]
    unfold revisionNoticeSince at hn
    simp only at hn
    split at hn
    · cases hn
    · cases hn
      rfl

/-- The third event of a stream arrives before the second: the heads change without a
notice. -/
theorem heads_change_without_notice :
    ¬ ∀ (ops : List NodeOp) (deliveries : List (ModelEvent × ReplayValidation)),
        ((new.run ops).replayAllWithValidation deliveries).logicalHeads
            ≠ (new.run ops).tier1Read.logicalHeads →
          (((new.run ops).replayAllWithValidation deliveries).revisionNoticeSince
            (new.run ops).tier1Read).isSome = true := by
  intro hc
  have h := hc [.replay (.newWithKind "a" 1 "m" none "h1" .create) .accept]
    [(.newWithKind "a" 3 "m" none "h3" .revise, .accept)] (by decide +kernel)
  revert h
  decide +kernel

end ModelNode

/-! ## Visibility -/

/-- `LogicalVisibilityStatus`. -/
inductive LogicalVisibilityStatus where
  | active
  | withdrawn
  | tombstoned
  | expired
  deriving DecidableEq, Repr

namespace LogicalVisibilityStatus

/-- `LogicalVisibilityStatus::as_str`. -/
def asStr : LogicalVisibilityStatus → String
  | active => "active"
  | withdrawn => "withdrawn"
  | tombstoned => "tombstoned"
  | expired => "expired"

/-- How far a status has decayed: active, expired, tombstoned, withdrawn. -/
def decay : LogicalVisibilityStatus → ℕ
  | active => 0
  | expired => 1
  | tombstoned => 2
  | withdrawn => 3

end LogicalVisibilityStatus

/-- `MeshReadSurface`. -/
inductive MeshReadSurface where
  | search
  | context
  | why
  deriving DecidableEq, Repr

/-- `MeshReadSurface::as_str`. -/
def MeshReadSurface.asStr : MeshReadSurface → String
  | search => "search"
  | context => "context"
  | why => "why"

/-- `LogicalVisibility`. -/
structure LogicalVisibility where
  logicalMemoryId : String
  status : LogicalVisibilityStatus
  activeHeadEventIds : List String
  provenanceEventIds : List String
  searchVisible : Bool
  contextVisible : Bool
  whyProvenanceVisible : Bool
  bodyCachePurgeRequired : Bool
  residualMetadataReason : Option String
  deriving DecidableEq, Repr

/-- `WITHDRAWAL_VISIBILITY_REASON`. -/
def withdrawalVisibilityReason : String :=
  "withdrawal_preserves_metadata_tombstone_and_requests_peer_cache_purge"

/-- `TOMBSTONE_VISIBILITY_REASON`. -/
def tombstoneVisibilityReason : String :=
  "tombstone_preserves_provenance_without_peer_cache_purge"

/-- `VALIDITY_EXPIRY_VISIBILITY_REASON`. -/
def validityExpiryVisibilityReason : String :=
  "validity_expiry_filters_reads_without_peer_cache_purge"

/-- `MeshLogicalVisibilityRender`. -/
structure MeshLogicalVisibilityRender where
  schema : String
  surface : MeshReadSurface
  logicalMemoryId : String
  status : LogicalVisibilityStatus
  included : Bool
  bodyVisible : Bool
  provenanceVisible : Bool
  bodyCachePurgeRequired : Bool
  selectedEventIds : List String
  residualMetadataReason : Option String
  renderText : String
  deriving DecidableEq, Repr

/-- `event_list`. -/
def eventList (events : List String) : String :=
  if events = [] then "[]" else "[" ++ ",".intercalate events ++ "]"

/-- `render_visibility_text`. -/
def renderVisibilityText (visibility : LogicalVisibility) (surface : MeshReadSurface)
    (included bodyVisible : Bool) : String :=
  let reason := visibility.residualMetadataReason.getD "active_mesh_memory"
  let memory := "mesh memory " ++ visibility.logicalMemoryId
  let status := visibility.status.asStr
  let heads := eventList visibility.activeHeadEventIds
  match surface, visibility.status, included, bodyVisible with
  | .search, .active, true, true => memory ++ " is searchable; active heads=" ++ heads ++ "."
  | .context, .active, true, true => memory ++ " may enter context; active heads=" ++ heads ++ "."
  | .why, .active, true, false =>
    memory ++ " remains active; why may cite active heads=" ++ heads ++ "."
  | .search, _, false, false =>
    memory ++ " is suppressed from search because status=" ++ status ++ " reason=" ++ reason ++ "."
  | .context, _, false, false =>
    memory ++ " is suppressed from context because status=" ++ status ++ " reason=" ++ reason ++ "."
  | .why, _, true, false =>
    memory ++ " keeps why provenance for status=" ++ status ++ " via events="
      ++ eventList visibility.provenanceEventIds ++ "; body_visible=false; purge_required="
      ++ toString visibility.bodyCachePurgeRequired ++ "."
  | _, _, _, _ =>
    memory ++ " has surface=" ++ surface.asStr ++ " status=" ++ status ++ " included="
      ++ toString included ++ " body_visible=" ++ toString bodyVisible ++ " reason=" ++ reason
      ++ "."

/-- `LogicalVisibility::render_for_surface`. -/
def LogicalVisibility.renderForSurface (visibility : LogicalVisibility)
    (surface : MeshReadSurface) : MeshLogicalVisibilityRender :=
  let included : Bool := match surface with
    | .search => visibility.searchVisible
    | .context => visibility.contextVisible
    | .why => visibility.whyProvenanceVisible
  let bodyVisible : Bool :=
    (surface = .search ∨ surface = .context) ∧ visibility.status = .active ∧ included
  let provenanceVisible : Bool := surface = .why ∧ included
  let selectedEventIds :=
    if provenanceVisible ∧ visibility.provenanceEventIds ≠ [] then visibility.provenanceEventIds
    else if included ∧ visibility.status = .active then visibility.activeHeadEventIds
    else []
  { schema := "ee.mesh.logical_visibility_render.v1"
    surface := surface
    logicalMemoryId := visibility.logicalMemoryId
    status := visibility.status
    included := included
    bodyVisible := bodyVisible
    provenanceVisible := provenanceVisible
    bodyCachePurgeRequired := visibility.bodyCachePurgeRequired
    selectedEventIds := selectedEventIds
    residualMetadataReason := visibility.residualMetadataReason
    renderText := renderVisibilityText visibility surface included bodyVisible }

/-- The event's validity ended. -/
def ModelEvent.expiredAt (event : ModelEvent) (nowEpochMs : ℕ) : Bool :=
  event.validUntilEpochMs.any (· ≤ nowEpochMs)

/-- The visibility of one logical memory with its events, as `logical_visibility_at`
computes it for each. -/
def logicalVisibilityOf (heads : ExtTreeMap String (List String)) (nowEpochMs : ℕ)
    (logicalMemoryId : String) (events : List ModelEvent) : LogicalVisibility :=
  let events := events.insertionSort fun left right => ModelNode.deliveryLe left right
  let withdrawn := (events.filter fun event => event.kind = .shareWithdraw).map ModelEvent.eventId
  let tombstoned := (events.filter fun event => event.kind = .tombstone).map ModelEvent.eventId
  let expired := (events.filter fun event => event.expiredAt nowEpochMs).map ModelEvent.eventId
  if withdrawn ≠ [] then
    { logicalMemoryId := logicalMemoryId
      status := .withdrawn
      activeHeadEventIds := []
      provenanceEventIds := withdrawn
      searchVisible := false
      contextVisible := false
      whyProvenanceVisible := true
      bodyCachePurgeRequired := true
      residualMetadataReason := some withdrawalVisibilityReason }
  else if tombstoned ≠ [] then
    { logicalMemoryId := logicalMemoryId
      status := .tombstoned
      activeHeadEventIds := []
      provenanceEventIds := tombstoned
      searchVisible := false
      contextVisible := false
      whyProvenanceVisible := true
      bodyCachePurgeRequired := false
      residualMetadataReason := some tombstoneVisibilityReason }
  else if expired ≠ [] then
    { logicalMemoryId := logicalMemoryId
      status := .expired
      activeHeadEventIds := []
      provenanceEventIds := expired
      searchVisible := false
      contextVisible := false
      whyProvenanceVisible := true
      bodyCachePurgeRequired := false
      residualMetadataReason := some validityExpiryVisibilityReason }
  else
    { logicalMemoryId := logicalMemoryId
      status := .active
      activeHeadEventIds := heads[logicalMemoryId]?.getD []
      provenanceEventIds := []
      searchVisible := true
      contextVisible := true
      whyProvenanceVisible := true
      bodyCachePurgeRequired := false
      residualMetadataReason := none }

namespace ModelNode

/-- `ModelNode::logical_visibility_at`. -/
def logicalVisibilityAt (node : ModelNode) (nowEpochMs : ℕ) : List LogicalVisibility :=
  let heads := node.logicalHeads
  node.eventsByLogical.toList.map fun (logicalMemoryId, events) =>
    logicalVisibilityOf heads nowEpochMs logicalMemoryId events

/-- Grouping a list of events by logical memory. -/
theorem getElem?_groupByLogical (es : List ModelEvent)
    (bl : ExtTreeMap String (List ModelEvent)) (memoryId : String) :
    (es.foldl (fun bl event => bl.insert event.logicalMemoryId
        (bl[event.logicalMemoryId]?.getD [] ++ [event])) bl)[memoryId]? =
      if es.filter (·.logicalMemoryId = memoryId) = [] then bl[memoryId]?
      else some (bl[memoryId]?.getD [] ++ es.filter (·.logicalMemoryId = memoryId)) := by
  induction es generalizing bl with
  | nil => rfl
  | cons event es ih =>
    rw [List.foldl_cons, ih, ExtTreeMap.getElem?_insert_ite, List.filter_cons]
    by_cases heq : event.logicalMemoryId = memoryId
    · simp only [heq, decide_true, if_true, Option.getD_some, List.append_assoc,
        List.singleton_append, reduceCtorEq, if_false]
      split
      · rename_i he
        rw [he]
      · rfl
    · simp only [heq, decide_false, if_false, Bool.false_eq_true]

/-- The group of a logical memory holds its accepted events, and is not empty. -/
theorem eventsByLogical_eq_some_iff (node : ModelNode) (memoryId : String) (es : List ModelEvent) :
    node.eventsByLogical[memoryId]? = some es ↔
      es = node.accepted.values.filter (·.logicalMemoryId = memoryId) ∧ es ≠ [] := by
  unfold eventsByLogical
  rw [getElem?_groupByLogical]
  split
  · rename_i he
    constructor
    · intro hs
      simp at hs
    · rintro ⟨heq, hne⟩
      exact absurd (heq.trans he) hne
  · rename_i hne
    simp only [ExtTreeMap.getElem?_empty, Option.getD_none, List.nil_append, Option.some.injEq]
    constructor
    · rintro rfl
      exact ⟨rfl, hne⟩
    · rintro ⟨rfl, -⟩
      rfl

theorem mem_logicalVisibilityAt_iff (node : ModelNode) (nowMs : ℕ) (v : LogicalVisibility) :
    v ∈ node.logicalVisibilityAt nowMs ↔ ∃ memoryId es, node.eventsByLogical[memoryId]? = some es ∧
        v = logicalVisibilityOf node.logicalHeads nowMs memoryId es := by
  unfold logicalVisibilityAt
  simp only [List.mem_map, Prod.exists, ExtTreeMap.mem_toList_iff_getElem?_eq_some]
  constructor
  · rintro ⟨id, es, hm, rfl⟩
    exact ⟨id, es, hm, rfl⟩
  · rintro ⟨id, es, hm, rfl⟩
    exact ⟨id, es, hm, rfl⟩

end ModelNode

theorem logicalVisibilityOf_id (he : ExtTreeMap String (List String)) (nowMs : ℕ)
    (memoryId : String) (es : List ModelEvent) :
    (logicalVisibilityOf he nowMs memoryId es).logicalMemoryId = memoryId := by
  unfold logicalVisibilityOf
  simp only
  split_ifs <;> rfl

/-- What decides the status: the strongest of the events, and the time. -/
theorem logicalVisibilityOf_decay (he : ExtTreeMap String (List String)) (nowMs : ℕ)
    (memoryId : String) (es : List ModelEvent) :
    (logicalVisibilityOf he nowMs memoryId es).status.decay =
      if ∃ event ∈ es, event.kind = .shareWithdraw then 3
      else if ∃ event ∈ es, event.kind = .tombstone then 2
      else if ∃ event ∈ es, event.expiredAt nowMs = true then 1
      else 0 := by
  have hf : ∀ keep : ModelEvent → Bool,
      ((es.insertionSort fun left right => ModelNode.deliveryLe left right).filter keep).map
        ModelEvent.eventId ≠ [] ↔ ∃ event ∈ es, keep event = true := by
    intro keep
    rw [ne_eq, List.map_eq_nil_iff, List.filter_eq_nil_iff]
    push Not
    simp only [List.mem_insertionSort]
  unfold logicalVisibilityOf
  simp only [hf, decide_eq_true_eq]
  split_ifs <;> rfl

/-- The strongest of three conditions, where each implies its later form. -/
theorem strongest_mono {P Q R P' Q' R' : Prop} [Decidable P] [Decidable Q] [Decidable R]
    [Decidable P'] [Decidable Q'] [Decidable R'] (hP : P → P') (hQ : Q → Q') (hR : R → R') :
    (if P then 3 else if Q then 2 else if R then 1 else 0)
      ≤ if P' then 3 else if Q' then 2 else if R' then 1 else 0 := by
  split_ifs <;> first | omega | (exfalso; tauto)

/-- More events and a later time only decay the status. -/
theorem logicalVisibilityOf_decay_mono {hea he' : ExtTreeMap String (List String)}
    {now n' : ℕ} (hn : now ≤ n') (memoryId : String) {es es' : List ModelEvent}
    (hs : es ⊆ es') :
    (logicalVisibilityOf hea now memoryId es).status.decay
      ≤ (logicalVisibilityOf he' n' memoryId es').status.decay := by
  have hm : ∀ (P Q : ModelEvent → Prop), (∀ event, P event → Q event) →
      (∃ event ∈ es, P event) → ∃ event ∈ es', Q event := by
    rintro P Q hPQ ⟨event, hme, he⟩
    exact ⟨event, hs hme, hPQ event he⟩
  have hex : ∀ event : ModelEvent, event.expiredAt now = true → event.expiredAt n' = true := by
    intro event he
    unfold ModelEvent.expiredAt at he ⊢
    cases hv : event.validUntilEpochMs with
    | none =>
      rw [hv] at he
      cases he
    | some vu =>
      rw [hv] at he
      simp only [Option.any_some, decide_eq_true_eq] at he ⊢
      omega
  rw [logicalVisibilityOf_decay, logicalVisibilityOf_decay]
  exact strongest_mono (hm _ _ fun _ h => h) (hm _ _ fun _ h => h) (hm _ _ hex)

/-- Only an active memory is searched or enters a context. -/
theorem logicalVisibilityOf_hidden {he : ExtTreeMap String (List String)} {nowMs : ℕ}
    {memoryId : String} {es : List ModelEvent}
    (h : (logicalVisibilityOf he nowMs memoryId es).status ≠ .active) :
    (logicalVisibilityOf he nowMs memoryId es).searchVisible = false ∧
      (logicalVisibilityOf he nowMs memoryId es).contextVisible = false ∧
      (logicalVisibilityOf he nowMs memoryId es).activeHeadEventIds = [] := by
  revert h
  unfold logicalVisibilityOf
  simp only
  split_ifs <;> simp

/-- A memory that is not active shows its body on no surface. -/
theorem LogicalVisibility.bodyVisible_eq_false {v : LogicalVisibility}
    (h : v.status ≠ .active) (s : MeshReadSurface) :
    (v.renderForSurface s).bodyVisible = false := by
  unfold renderForSurface
  simp [h]

theorem LogicalVisibilityStatus.eq_withdrawn_of_decay {status : LogicalVisibilityStatus}
    (h : withdrawn.decay ≤ status.decay) : status = withdrawn := by
  cases status <;> first | rfl | exact absurd h (by decide)

namespace ModelNode

/-- The events of a logical memory stay with it. -/
theorem eventsByLogical_run {node : ModelNode} {memoryId : String}
    {es : List ModelEvent} (h : node.eventsByLogical[memoryId]? = some es)
    (l : List NodeOp) :
    ∃ es', (node.run l).eventsByLogical[memoryId]? = some es' ∧ es ⊆ es' := by
  obtain ⟨rfl, hne⟩ := (eventsByLogical_eq_some_iff node memoryId es).mp h
  have hs : node.accepted.values.filter (·.logicalMemoryId = memoryId)
      ⊆ (node.run l).accepted.values.filter (·.logicalMemoryId = memoryId) := by
    intro event he
    rw [List.mem_filter, ExtTreeMap.mem_values_iff] at he ⊢
    obtain ⟨⟨key, hk⟩, hid⟩ := he
    exact ⟨⟨key, accepted_run l hk⟩, hid⟩
  refine ⟨_, (eventsByLogical_eq_some_iff _ memoryId _).mpr ⟨rfl, ?_⟩, hs⟩
  intro hem
  rw [hem] at hs
  exact hne (List.eq_nil_of_subset_nil hs)

/-- **Visibility only decays.**  A logical memory that a node shows at some time is shown
in every later state and at every later time, with a status that never moved back from
withdrawn over tombstoned and expired to active.  A withdrawn memory stays withdrawn: it
is not searched, it enters no context, and no surface renders its body. -/
theorem visibility_decays (node : ModelNode) (later : List NodeOp) {now now' : ℕ}
    (hnow : now ≤ now') {visibility : LogicalVisibility}
    (h : visibility ∈ node.logicalVisibilityAt now) :
    (∃ visibility' ∈ (node.run later).logicalVisibilityAt now',
        visibility'.logicalMemoryId = visibility.logicalMemoryId) ∧
      ∀ visibility' ∈ (node.run later).logicalVisibilityAt now',
        visibility'.logicalMemoryId = visibility.logicalMemoryId →
        visibility.status.decay ≤ visibility'.status.decay ∧ (visibility.status = .withdrawn →
            visibility'.status = .withdrawn ∧ visibility'.searchVisible = false ∧
              visibility'.contextVisible = false ∧ visibility'.activeHeadEventIds = [] ∧
              ∀ surface, (visibility'.renderForSurface surface).bodyVisible = false) := by
  obtain ⟨id, es, he, rfl⟩ := (mem_logicalVisibilityAt_iff node now visibility).mp h
  obtain ⟨es', he', hsu⟩ := eventsByLogical_run he later
  rw [logicalVisibilityOf_id]
  constructor
  · exact ⟨_, (mem_logicalVisibilityAt_iff _ now' _).mpr ⟨id, es', he', rfl⟩,
      logicalVisibilityOf_id _ _ _ _⟩
  · intro visibility' hv' hid
    obtain ⟨id', es'', he'', rfl⟩ := (mem_logicalVisibilityAt_iff _ now' visibility').mp hv'
    rw [logicalVisibilityOf_id] at hid
    subst hid
    rw [he'] at he''
    cases he''
    have hd := @logicalVisibilityOf_decay_mono node.logicalHeads
      (node.run later).logicalHeads now now' hnow id' es es' hsu
    refine ⟨hd, fun hw => ?_⟩
    rw [hw] at hd
    have hs := LogicalVisibilityStatus.eq_withdrawn_of_decay hd
    have hi : (logicalVisibilityOf (node.run later).logicalHeads now' id' es').status
        ≠ .active := by
      rw [hs]
      decide
    obtain ⟨hse, hc, hh⟩ := logicalVisibilityOf_hidden hi
    exact ⟨hs, hse, hc, hh, LogicalVisibility.bodyVisible_eq_false hi⟩

/-- A memory that was withdrawn before its creation arrived. -/
theorem sampleWithdrawn_stays :
    let node := new.run [.replay (.newWithKind "a" 2 "m" none "h2" .shareWithdraw) .accept]
    let l := [NodeOp.replay (.newWithKind "a" 1 "m" none "h1" .create) .accept]
    ∀ v' ∈ (node.run l).logicalVisibilityAt 7,
      v'.logicalMemoryId = "m" → v'.status = .withdrawn := by
  intro node l v' hm hid
  have hs : (⟨"m", .withdrawn, [], ["evt:a:2:m:shareWithdraw:h2"], false, false, true, true,
      some withdrawalVisibilityReason⟩ : LogicalVisibility) ∈ node.logicalVisibilityAt 5 := by
    decide +kernel
  have h := visibility_decays node l (by decide : (5 : ℕ) ≤ 7) hs
  exact ((h.2 v' hm hid).2 rfl).1

end ModelNode

end AntiEntropyModel
