/-
# The anti-entropy node (`src/mesh/anti_entropy_model.rs`)

A node keeps the events it has accepted, by origin and sequence number, and for
every origin a cursor up to which the stream is complete.  Events may arrive in any
order and any number of times; those that the import layer refuses are quarantined
and may be skipped under audit.

Ordered maps are `Std.ExtTreeMap`: they iterate in key order, as `BTreeMap` does, and
are equal when their lookups agree.
-/
import Mathlib
import EideticEngine.ContiguousCursor
import EideticEngine.MachineInt
import EideticEngine.OrderedMap

namespace AntiEntropyModel

open Std (ExtTreeMap ExtTreeSet TransOrd TransCmp LawfulEqOrd LawfulEqCmp)

/-! ## Events -/

/-- `EventKey`: a position in the stream of one origin node. -/
structure EventKey where
  originNodeId : String
  seq : ℕ
  deriving DecidableEq, Repr

namespace EventKey

/-- The derived order: by origin, then by sequence number. -/
instance : Ord EventKey :=
  ⟨compareLex (compareOn originNodeId) (compareOn seq)⟩

instance : TransOrd EventKey :=
  inferInstanceAs (TransCmp (compareLex (compareOn originNodeId) (compareOn seq)))

instance : LawfulEqOrd EventKey where
  eq_of_compare {a b} h := by
    have hthen : (compare a.originNodeId b.originNodeId).then (compare a.seq b.seq) = .eq := h
    rw [Ordering.then_eq_eq] at hthen
    have horigin := LawfulEqCmp.eq_of_compare hthen.1
    have hseq := LawfulEqCmp.eq_of_compare hthen.2
    cases a
    cases b
    simp_all

end EventKey

/-- `ModelEventKind`. -/
inductive ModelEventKind where
  | create
  | revise
  | tombstone
  | trust
  | validity
  | bodyAvailable
  | shareWithdraw
  deriving DecidableEq, Repr

/-- `ModelEventKind::as_str`. -/
def ModelEventKind.asStr : ModelEventKind → String
  | .create => "create"
  | .revise => "revise"
  | .tombstone => "tombstone"
  | .trust => "trust"
  | .validity => "validity"
  | .bodyAvailable => "bodyAvailable"
  | .shareWithdraw => "shareWithdraw"

/-- `ModelEvent`. -/
structure ModelEvent where
  key : EventKey
  eventId : String
  kind : ModelEventKind
  logicalMemoryId : String
  baseEventId : Option String
  contentHash : String
  validUntilEpochMs : Option ℕ
  deriving DecidableEq, Repr

/-- `ModelEvent::new_with_kind`. -/
def ModelEvent.newWithKind (originNodeId : String) (seq : ℕ) (logicalMemoryId : String)
    (baseEventId : Option String) (contentHash : String) (kind : ModelEventKind) : ModelEvent where
  key := ⟨originNodeId, seq⟩
  eventId := "evt:" ++ originNodeId ++ ":" ++ toString seq ++ ":" ++ logicalMemoryId ++ ":"
    ++ kind.asStr ++ ":" ++ contentHash
  kind := kind
  logicalMemoryId := logicalMemoryId
  baseEventId := baseEventId
  contentHash := contentHash
  validUntilEpochMs := none

/-- `ModelEvent::with_valid_until_epoch_ms`. -/
def ModelEvent.withValidUntilEpochMs (event : ModelEvent) (validUntilEpochMs : ℕ) : ModelEvent :=
  { event with validUntilEpochMs := some validUntilEpochMs }

/-- An event that the constructors build; `ModelEvent::new` is `new_with_kind` for
`create`. -/
inductive ModelEvent.Constructed : ModelEvent → Prop where
  | newWithKind (originNodeId : String) (seq : ℕ) (logicalMemoryId : String)
      (baseEventId : Option String) (contentHash : String) (kind : ModelEventKind) :
      Constructed (.newWithKind originNodeId seq logicalMemoryId baseEventId contentHash kind)
  | withValidUntilEpochMs {event : ModelEvent} (validUntilEpochMs : ℕ) :
      Constructed event → Constructed (event.withValidUntilEpochMs validUntilEpochMs)

/-! ## Quarantine and repair records -/

/-- `ReplayQuarantineReason`. -/
inductive ReplayQuarantineReason where
  | malformedEvent
  | hashChainMismatch
  | bodyHashMismatch
  | policyDenied
  | incompatibleSchema
  deriving DecidableEq, Repr

/-- `ReplayValidation`: what the import layer says about an event. -/
inductive ReplayValidation where
  | accept
  | quarantine (reason : ReplayQuarantineReason)
  deriving DecidableEq, Repr

/-- `ReplayRepairAction`. -/
inductive ReplayRepairAction where
  | retry
  | skipWithAudit
  | revokePeer
  | resetCache
  deriving DecidableEq, Repr

/-- `MESH_EVENT_QUARANTINED_CODE`. -/
def meshEventQuarantinedCode : String := "mesh_event_quarantined"

/-- `MESH_CURSOR_REPAIR_REQUIRED_CODE`. -/
def meshCursorRepairRequiredCode : String := "mesh_cursor_repair_required"

/-- `ReplayQuarantineRecord`. -/
structure ReplayQuarantineRecord where
  key : EventKey
  incomingEventId : String
  reason : ReplayQuarantineReason
  degradedCode : String
  cursorBefore : ℕ
  cursorAfter : ℕ
  repairActions : List ReplayRepairAction
  structuredLogEvents : List String
  deriving DecidableEq, Repr

/-- `ReplayRepairAuditRecord`. -/
structure ReplayRepairAuditRecord where
  key : EventKey
  action : ReplayRepairAction
  degradedCode : String
  cursorBefore : ℕ
  cursorAfter : ℕ
  structuredLogEvents : List String
  deriving DecidableEq, Repr

/-- `CursorRepairRecord`. -/
structure CursorRepairRecord where
  originNodeId : String
  cursorBefore : ℕ
  repairedCursor : ℕ
  degradedCode : String
  structuredLogEvents : List String
  deriving DecidableEq, Repr

/-- `ReplayOutcome`. -/
inductive ReplayOutcome where
  | accepted
  | duplicate
  | quarantined (record : ReplayQuarantineRecord)
  | rejectedForkedStream (originNodeId : String) (seq : ℕ)
      (existingEventId incomingEventId : String)
  deriving DecidableEq, Repr

/-! ## The node -/

/-- `ModelNode`. -/
structure ModelNode where
  accepted : ExtTreeMap EventKey ModelEvent
  frontier : ExtTreeMap String ℕ
  quarantined : ExtTreeMap EventKey ReplayQuarantineRecord
  auditedSkips : ExtTreeSet EventKey
  repairAudit : List ReplayRepairAuditRecord
  deriving DecidableEq

namespace ModelNode

/-- `ModelNode::new`. -/
def new : ModelNode where
  accepted := ∅
  frontier := ∅
  quarantined := ∅
  auditedSkips := ∅
  repairAudit := []

/-- `ModelNode::cursor_for`. -/
def cursorFor (node : ModelNode) (originNodeId : String) : ℕ :=
  node.frontier[originNodeId]?.getD 0

/-- `ModelNode::has_durable_or_audited_skip`. -/
def hasDurableOrAuditedSkip (node : ModelNode) (originNodeId : String) (seq : ℕ) : Bool :=
  node.accepted.contains ⟨originNodeId, seq⟩ || node.auditedSkips.contains ⟨originNodeId, seq⟩

/-- `ModelNode::repairable_cursor_for`; the loop leaves at `u64::MAX`. -/
def repairableCursorFor (node : ModelNode) (originNodeId : String) : ℕ :=
  advanceTo u64Max (node.hasDurableOrAuditedSkip originNodeId) (node.cursorFor originNodeId)

/-- `ModelNode::advance_frontier_for`. -/
def advanceFrontierFor (node : ModelNode) (originNodeId : String) : ModelNode :=
  let repairedCursor := node.repairableCursorFor originNodeId
  if repairedCursor > node.cursorFor originNodeId then
    { node with frontier := node.frontier.insert originNodeId repairedCursor }
  else node

/-- `ModelNode::replay`. -/
def replay (node : ModelNode) (event : ModelEvent) : ModelNode × ReplayOutcome :=
  match node.accepted[event.key]? with
  | some existing =>
    if existing.eventId = event.eventId then (node, .duplicate)
    else (node, .rejectedForkedStream event.key.originNodeId event.key.seq existing.eventId
      event.eventId)
  | none =>
    let node := { node with accepted := node.accepted.insert event.key event }
    (node.advanceFrontierFor event.key.originNodeId, .accepted)

/-- `ModelNode::quarantine_event`. -/
def quarantineEvent (node : ModelNode) (key : EventKey) (incomingEventId : String)
    (reason : ReplayQuarantineReason) : ModelNode × ReplayOutcome :=
  let cursorBefore := node.cursorFor key.originNodeId
  let record : ReplayQuarantineRecord :=
    { key := key
      incomingEventId := incomingEventId
      reason := reason
      degradedCode := meshEventQuarantinedCode
      cursorBefore := cursorBefore
      cursorAfter := cursorBefore
      repairActions := [.retry, .skipWithAudit, .revokePeer, .resetCache]
      structuredLogEvents := ["quarantine_entered", "cursor_not_advanced"] }
  ({ node with quarantined := node.quarantined.insert key record }, .quarantined record)

/-- `ModelNode::replay_with_validation`. -/
def replayWithValidation (node : ModelNode) (event : ModelEvent) (validation : ReplayValidation) :
    ModelNode × ReplayOutcome :=
  match validation with
  | .accept => node.replay event
  | .quarantine reason => node.quarantineEvent event.key event.eventId reason

/-- `ModelNode::repair_quarantined_event`. -/
def repairQuarantinedEvent (node : ModelNode) (key : EventKey) (action : ReplayRepairAction) :
    ModelNode × Option ReplayRepairAuditRecord :=
  match node.quarantined[key]? with
  | none => (node, none)
  | some record =>
    let originNodeId := record.key.originNodeId
    let cursorBefore := node.cursorFor originNodeId
    let node :=
      if action = .skipWithAudit then
        advanceFrontierFor { node with auditedSkips := node.auditedSkips.insert record.key }
          originNodeId
      else node
    let audit : ReplayRepairAuditRecord :=
      { key := record.key
        action := action
        degradedCode := meshEventQuarantinedCode
        cursorBefore := cursorBefore
        cursorAfter := node.cursorFor originNodeId
        structuredLogEvents := ["repair_action"] }
    ({ node with repairAudit := node.repairAudit ++ [audit] }, some audit)

/-- `ModelNode::repair_cursor_after_crash`. -/
def repairCursorAfterCrash (node : ModelNode) (originNodeId : String) :
    ModelNode × Option CursorRepairRecord :=
  let cursorBefore := node.cursorFor originNodeId
  let repairedCursor := node.repairableCursorFor originNodeId
  if repairedCursor ≤ cursorBefore then (node, none)
  else
    ({ node with frontier := node.frontier.insert originNodeId repairedCursor },
      some
        { originNodeId := originNodeId
          cursorBefore := cursorBefore
          repairedCursor := repairedCursor
          degradedCode := meshCursorRepairRequiredCode
          structuredLogEvents := ["replay_recovered"] })

/-! ## What a node shows -/

/-- `ModelNode::accepted_event_ids`. -/
def acceptedEventIds (node : ModelNode) : List String :=
  node.accepted.values.map ModelEvent.eventId

/-- The accepted events by logical memory. -/
def eventsByLogical (node : ModelNode) : ExtTreeMap String (List ModelEvent) :=
  node.accepted.values.foldl (fun byLogical event =>
    byLogical.insert event.logicalMemoryId
      (byLogical[event.logicalMemoryId]?.getD [] ++ [event])) ∅

/-- `ModelNode::logical_heads`: of every logical memory the events that no accepted
event is based on, sorted. -/
def logicalHeads (node : ModelNode) : ExtTreeMap String (List String) :=
  let referencedBases : ExtTreeSet String :=
    (node.accepted.values.filterMap ModelEvent.baseEventId).foldl ExtTreeSet.insert ∅
  node.eventsByLogical.map fun _ events =>
    ((events.filter fun event => !referencedBases.contains event.eventId).map
      ModelEvent.eventId).insertionSort fun a b => (compare a b).isLE

/-- `ModelNode::logical_conflicts`. -/
def logicalConflicts (node : ModelNode) : List (String × List String) :=
  node.logicalHeads.toList.filter fun (_, headEventIds) => headEventIds.length > 1

/-- `ModelNode::convergence_digest`. -/
def convergenceDigest (node : ModelNode) : String :=
  let events := ",".intercalate node.acceptedEventIds
  let frontier := ",".intercalate
    (node.frontier.toList.map fun (origin, seq) => origin ++ ":" ++ toString seq)
  let conflicts := ",".intercalate
    (node.logicalConflicts.map fun (logicalMemoryId, headEventIds) =>
      logicalMemoryId ++ ":" ++ "+".intercalate headEventIds)
  "events=[" ++ events ++ "];frontier=[" ++ frontier ++ "];conflicts=[" ++ conflicts ++ "]"

/-! ## Runs -/

/-- Deliver events one after the other, with `replay`. -/
def replayAll (node : ModelNode) (events : List ModelEvent) : ModelNode :=
  events.foldl (fun node event => (node.replay event).1) node

/-- The order in which `replay_deterministically` sorts events. -/
def deliveryLe (left right : ModelEvent) : Bool :=
  ((compare left.key right.key).then (compare left.eventId right.eventId)).isLE

/-- `ModelNode::replay_deterministically`. -/
def replayDeterministically (events : List ModelEvent) : ModelNode :=
  new.replayAll (events.insertionSort fun left right => deliveryLe left right)

end ModelNode

end AntiEntropyModel
