/-
# The replay frontier is exact

Events come in any order, some are refused and skipped under audit, and a crash may
leave a cursor behind.  Whatever a node went through since it was empty, its cursor
for an origin is the end of the longest gapless run of accepted or skipped events
(`Exact`), so nothing is left for the cursor repair to do.  A pull over the ranges that
two frontiers ask for therefore catches up.
-/
import EideticEngine.AntiEntropyReplay

namespace AntiEntropyModel

open Std (ExtTreeMap ExtTreeSet)

namespace ModelNode

/-! ## Cursor repairs -/

/-- `ModelNode::cursor_repair_requirements`. -/
def cursorRepairRequirements (node : ModelNode) : List CursorRepairRecord :=
  let origins : ExtTreeSet String :=
    ((node.accepted.keys ++ node.auditedSkips.toList).map EventKey.originNodeId).foldl
      ExtTreeSet.insert ∅
  origins.toList.filterMap fun originNodeId =>
    let cursorBefore := node.cursorFor originNodeId
    let repairedCursor := node.repairableCursorFor originNodeId
    if repairedCursor > cursorBefore then
      some
        { originNodeId := originNodeId
          cursorBefore := cursorBefore
          repairedCursor := repairedCursor
          degradedCode := meshCursorRepairRequiredCode
          structuredLogEvents := ["cursor_not_advanced"] }
    else none

/-! ## Operations -/

/-- A call that changes a node. -/
inductive NodeOp where
  | replay (event : ModelEvent) (validation : ReplayValidation)
  | repairQuarantined (key : EventKey) (action : ReplayRepairAction)
  | repairCursor (originNodeId : String)
  deriving DecidableEq, Repr

/-- The node after a call. -/
def step (node : ModelNode) : NodeOp → ModelNode
  | .replay event validation => (node.replayWithValidation event validation).1
  | .repairQuarantined key action => (node.repairQuarantinedEvent key action).1
  | .repairCursor originNodeId => (node.repairCursorAfterCrash originNodeId).1

/-- The node after a sequence of calls. -/
def run (node : ModelNode) (ops : List NodeOp) : ModelNode := ops.foldl step node

/-- A node that some sequence of calls leads to from the empty node. -/
def Reachable (node : ModelNode) : Prop := ∃ ops, new.run ops = node

/-- Two nodes with the same stream: they may differ in their quarantine and audit records. -/
structure SameStream (node node' : ModelNode) : Prop where
  accepted_eq : node'.accepted = node.accepted
  frontier_eq : node'.frontier = node.frontier
  auditedSkips_eq : node'.auditedSkips = node.auditedSkips

/-- The node before its frontier moves on: some slots of one origin were filled. -/
structure Filled (node mid : ModelNode) (origin : String) : Prop where
  frontier_eq : mid.frontier = node.frontier
  accepted_mono : ∀ (key : EventKey) (event : ModelEvent),
    node.accepted[key]? = some event → mid.accepted[key]? = some event
  accepted_own : ∀ (key : EventKey) (event : ModelEvent), mid.accepted[key]? = some event →
    node.accepted[key]? = some event ∨ event.key = key
  filled_mono : ∀ other k, node.hasDurableOrAuditedSkip other k = true →
    mid.hasDurableOrAuditedSkip other k = true
  filled_other : ∀ other k, other ≠ origin →
    mid.hasDurableOrAuditedSkip other k = node.hasDurableOrAuditedSkip other k

theorem SameStream.cursorFor {node n' : ModelNode} (h : SameStream node n')
    (o : String) : n'.cursorFor o = node.cursorFor o := by
  unfold ModelNode.cursorFor
  rw [h.frontier_eq]

theorem SameStream.hasDurableOrAuditedSkip {node n' : ModelNode} (h : SameStream node n')
    (o : String) :
    n'.hasDurableOrAuditedSkip o = node.hasDurableOrAuditedSkip o := by
  funext k
  unfold ModelNode.hasDurableOrAuditedSkip
  rw [h.accepted_eq, h.auditedSkips_eq]

theorem Filled.refl (node : ModelNode) (o : String) : Filled node node o :=
  ⟨rfl, fun _ _ h => h, fun _ _ h => Or.inl h, fun _ _ h => h, fun _ _ _ => rfl⟩

/-- A newly accepted event fills a slot of its origin. -/
theorem Filled.accept {node : ModelNode} {event : ModelEvent} (hn : event.key ∉ node.accepted) :
    Filled node { node with accepted := node.accepted.insert event.key event }
      event.key.originNodeId := by
  refine ⟨rfl, ?_, ?_, ?_, ?_⟩
  · intro key old h
    have hne : event.key ≠ key := by
      intro heq
      rw [heq] at hn
      exact hn (ExtTreeMap.mem_iff_isSome_getElem?.mpr (by rw [h]; rfl))
    change (node.accepted.insert event.key event)[key]? = _
    rw [ExtTreeMap.getElem?_insert_ite, if_neg hne]
    exact h
  · intro key present hs
    change (node.accepted.insert event.key event)[key]? = _ at hs
    rw [ExtTreeMap.getElem?_insert_ite] at hs
    split at hs
    · rename_i heq
      cases hs
      exact Or.inr heq
    · exact Or.inl hs
  · intro other k hk
    unfold hasDurableOrAuditedSkip at hk ⊢
    simp only [Bool.or_eq_true, ExtTreeMap.contains_iff_mem, ExtTreeMap.mem_insert_iff] at hk ⊢
    tauto
  · intro other k ho
    have hne : event.key ≠ ⟨other, k⟩ := by
      intro heq
      rw [heq] at ho
      exact ho rfl
    unfold hasDurableOrAuditedSkip
    rw [Bool.eq_iff_iff]
    simp only [Bool.or_eq_true, ExtTreeMap.contains_iff_mem, ExtTreeMap.mem_insert_iff, hne,
      false_or]

/-- An audited skip fills a slot of its origin. -/
theorem Filled.skip (node : ModelNode) (key : EventKey) :
    Filled node { node with auditedSkips := node.auditedSkips.insert key } key.originNodeId := by
  refine ⟨rfl, fun _ _ h => h, fun _ _ h => Or.inl h, ?_, ?_⟩
  · intro other k hk
    unfold hasDurableOrAuditedSkip at hk ⊢
    simp only [Bool.or_eq_true, ExtTreeSet.contains_insert] at hk ⊢
    tauto
  · intro other k ho
    have hne : (compare key (⟨other, k⟩ : EventKey) == .eq) = false := by
      rw [beq_eq_false_iff_ne]
      intro heq
      rw [Std.LawfulEqCmp.eq_of_compare heq] at ho
      exact ho rfl
    unfold hasDurableOrAuditedSkip
    simp only [ExtTreeSet.contains_insert, hne, Bool.false_or]

/-- **What a call does to the stream**: nothing, or it fills slots of one origin and
then moves the frontier of that origin on. -/
theorem step_cases (node : ModelNode) (op : NodeOp) : SameStream node (node.step op) ∨
      ∃ mid o, Filled node mid o ∧ SameStream (mid.advanceFrontierFor o) (node.step op) := by
  cases op with
  | replay event v =>
    cases v with
    | accept =>
      rcases replay_cases node event with ⟨-, hr⟩ | ⟨hn, hr⟩
      · refine Or.inl ?_
        change SameStream node (node.replay event).1
        rw [hr]
        exact ⟨rfl, rfl, rfl⟩
      · refine Or.inr ⟨_, _, Filled.accept hn, ?_⟩
        change SameStream _ (node.replay event).1
        rw [hr]
        exact ⟨rfl, rfl, rfl⟩
    | quarantine reason => exact Or.inl ⟨rfl, rfl, rfl⟩
  | repairQuarantined key a =>
    change SameStream node (node.repairQuarantinedEvent key a).1 ∨ ∃ mid o, _ ∧
      SameStream _ (node.repairQuarantinedEvent key a).1
    unfold repairQuarantinedEvent
    cases node.quarantined[key]? with
    | none => exact Or.inl ⟨rfl, rfl, rfl⟩
    | some record =>
      by_cases hs : a = .skipWithAudit
      · refine Or.inr ⟨_, _, Filled.skip node record.key, ?_⟩
        simp only [hs, if_true]
        exact ⟨rfl, rfl, rfl⟩
      · refine Or.inl ?_
        simp only [hs, if_false]
        exact ⟨rfl, rfl, rfl⟩
  | repairCursor oni =>
    refine Or.inr ⟨node, oni, Filled.refl node oni, ?_⟩
    change SameStream _ (node.repairCursorAfterCrash oni).1
    unfold repairCursorAfterCrash advanceFrontierFor
    simp only
    split
    · rename_i hle
      rw [if_neg (by omega)]
      exact ⟨rfl, rfl, rfl⟩
    · rename_i hlt
      rw [if_pos (by omega)]
      exact ⟨rfl, rfl, rfl⟩

/-! ## Exactness -/

/-- Every cursor is where the filled slots of its origin first have a gap. -/
def Exact (node : ModelNode) : Prop :=
  ∀ origin, IsFrontier u64Max (node.hasDurableOrAuditedSkip origin) 0 (node.cursorFor origin)

/-- The cursors after the frontier of one origin moved on. -/
theorem cursorFor_advanceFrontierFor (node : ModelNode) (nodeId o : String) :
    (node.advanceFrontierFor nodeId).cursorFor o = if nodeId = o then node.repairableCursorFor o
      else node.cursorFor o := by
  have hge : node.cursorFor nodeId ≤ node.repairableCursorFor nodeId := le_advanceTo _ _ _
  have hf := frontier_advanceFrontierFor node nodeId o
  by_cases ho : nodeId = o
  · subst ho
    rw [if_pos rfl]
    unfold cursorFor at hge hf ⊢
    rw [hf]
    split
    · rfl
    · rename_i hn
      simp only [true_and] at hn
      omega
  · rw [if_neg ho]
    unfold cursorFor at hf ⊢
    rw [hf, if_neg fun h => ho h.1]

/-- Moving the frontier on leaves the slots as they are. -/
theorem hasDurableOrAuditedSkip_advanceFrontierFor (node : ModelNode) (nodeId o : String) :
    (node.advanceFrontierFor nodeId).hasDurableOrAuditedSkip o
      = node.hasDurableOrAuditedSkip o := by
  obtain ⟨ha, -, hs, -⟩ := advanceFrontierFor_rest node nodeId
  funext k
  unfold hasDurableOrAuditedSkip
  rw [ha, hs]

theorem Filled.cursorFor {node mid : ModelNode} {o : String} (h : Filled node mid o)
    (other : String) : mid.cursorFor other = node.cursorFor other := by
  unfold ModelNode.cursorFor
  rw [h.frontier_eq]

/-- Filling slots of one origin and moving its frontier on keeps every cursor exact. -/
theorem Exact.advance {node mid : ModelNode} {o : String} (h : Exact node)
    (hf : Filled node mid o) : Exact (mid.advanceFrontierFor o) := by
  intro other
  rw [cursorFor_advanceFrontierFor, hasDurableOrAuditedSkip_advanceFrontierFor]
  by_cases ho : o = other
  · rw [if_pos ho]
    refine (h other).trans (hf.filled_mono other) ?_
    unfold repairableCursorFor
    rw [hf.cursorFor]
    exact advanceTo_isFrontier _ _ _
  · have hs : mid.hasDurableOrAuditedSkip other = node.hasDurableOrAuditedSkip other :=
      funext fun k => hf.filled_other other k fun heq => ho heq.symm
    rw [if_neg ho, hf.cursorFor, hs]
    exact h other

/-- Exactness is a matter of the streams alone. -/
theorem SameStream.exact {node n' : ModelNode} (h : SameStream node n')
    (he : Exact node) : Exact n' := by
  intro o
  rw [h.cursorFor, h.hasDurableOrAuditedSkip]
  exact he o

/-- One call keeps the frontier exact. -/
theorem Exact.step {node : ModelNode} (h : Exact node) (op : NodeOp) : Exact (node.step op) := by
  rcases step_cases node op with hs | ⟨mid, o, hf, hs⟩
  · exact hs.exact h
  · exact hs.exact (h.advance hf)

/-- Any sequence of calls keeps the frontier exact. -/
theorem Exact.run {node : ModelNode} (h : Exact node) (ops : List NodeOp) :
    Exact (node.run ops) := by
  induction ops generalizing node with
  | nil => exact h
  | cons op ops ih => exact ih (h.step op)

theorem exact_new : Exact new := by
  intro o
  have hc : new.cursorFor o = 0 := by
    unfold cursorFor new
    simp
  have hs : ∀ k, new.hasDurableOrAuditedSkip o k = false := by
    intro k
    unfold hasDurableOrAuditedSkip new
    simp
  rw [hc]
  exact ⟨le_rfl, Nat.zero_le _, fun k hlt hle => absurd hlt (by omega), fun _ => hs _⟩

/-- **Every reachable node is exact**. -/
theorem Reachable.exact {node : ModelNode} (h : Reachable node) : Exact node := by
  obtain ⟨ops, rfl⟩ := h
  exact exact_new.run ops

/-- One call lowers no cursor. -/
theorem cursorFor_le_step (node : ModelNode) (op : NodeOp) (o : String) :
    node.cursorFor o ≤ (node.step op).cursorFor o := by
  rcases step_cases node op with hs | ⟨mid, m, hf, hs⟩
  · rw [hs.cursorFor]
  · rw [hs.cursorFor, cursorFor_advanceFrontierFor, ← hf.cursorFor]
    split
    · exact le_advanceTo _ _ _
    · exact le_rfl

/-- One call keeps the accepted events. -/
theorem accepted_step {node : ModelNode} (op : NodeOp) {key : EventKey} {event : ModelEvent}
    (h : node.accepted[key]? = some event) : (node.step op).accepted[key]? = some event := by
  rcases step_cases node op with hs | ⟨mid, m, hf, hs⟩
  · rw [hs.accepted_eq]
    exact h
  · rw [hs.accepted_eq, (advanceFrontierFor_rest mid m).1]
    exact hf.accepted_mono key event h

/-- Any sequence of calls keeps the accepted events. -/
theorem accepted_run {node : ModelNode} (ops : List NodeOp) {key : EventKey} {event : ModelEvent}
    (h : node.accepted[key]? = some event) : (node.run ops).accepted[key]? = some event := by
  induction ops generalizing node with
  | nil => exact h
  | cons op ops ih => exact ih (accepted_step op h)

/-- The key under which an event is accepted is its own. -/
def KeysOwn (node : ModelNode) : Prop :=
  ∀ (key : EventKey) (event : ModelEvent), node.accepted[key]? = some event → event.key = key

/-- An operation keeps every event under its own key. -/
theorem KeysOwn.step {node : ModelNode} (h : KeysOwn node) (op : NodeOp) :
    KeysOwn (node.step op) := by
  intro key event he
  rcases step_cases node op with hs | ⟨mid, m, hf, hs⟩
  · rw [hs.accepted_eq] at he
    exact h key event he
  · rw [hs.accepted_eq, (advanceFrontierFor_rest mid m).1] at he
    exact (hf.accepted_own key event he).elim (h key event) id

theorem Reachable.keysOwn {node : ModelNode} (h : Reachable node) : KeysOwn node := by
  obtain ⟨ops, rfl⟩ := h
  have hn : KeysOwn new := by
    intro key event he
    unfold new at he
    simp at he
  have hr : ∀ (ops : List NodeOp) (node : ModelNode), KeysOwn node → KeysOwn (node.run ops) := by
    intro ops
    induction ops with
    | nil => exact fun _ h => h
    | cons op ops ih => exact fun node h => ih (node.step op) (h.step op)
  exact hr ops new hn

theorem cursorFor_le_run (node : ModelNode) (ops : List NodeOp) (o : String) :
    node.cursorFor o ≤ (node.run ops).cursorFor o := by
  induction ops generalizing node with
  | nil => exact le_rfl
  | cons op ops ih => exact le_trans (cursorFor_le_step node op o) (ih (node.step op))

/-- The lengths of the gapless runs of accepted or skipped events of an origin; sequence
numbers are `u64`. -/
def gaplessRuns (node : ModelNode) (origin : String) : Set ℕ :=
  {n | n ≤ u64Max ∧ ∀ k, 1 ≤ k → k ≤ n →
    (⟨origin, k⟩ : EventKey) ∈ node.accepted ∨ (⟨origin, k⟩ : EventKey) ∈ node.auditedSkips}

theorem hasDurableOrAuditedSkip_iff (node : ModelNode) (o : String) (k : ℕ) :
    node.hasDurableOrAuditedSkip o k = true ↔ (⟨o, k⟩ : EventKey) ∈ node.accepted ∨
        (⟨o, k⟩ : EventKey) ∈ node.auditedSkips := by
  unfold hasDurableOrAuditedSkip
  rw [Bool.or_eq_true, ExtTreeMap.contains_iff_mem, ExtTreeSet.contains_iff_mem]

/-- An exact cursor is the longest gapless run. -/
theorem Exact.isGreatest {node : ModelNode} (h : Exact node) (o : String) :
    IsGreatest (node.gaplessRuns o) (node.cursorFor o) := by
  have hf := h o
  refine ⟨⟨by have := hf.le_cap; omega, ?_⟩, ?_⟩
  · intro k hp hle
    rw [← hasDurableOrAuditedSkip_iff]
    exact hf.filled_of k (by omega) hle
  · rintro n ⟨hc, hr⟩
    by_contra hlt
    -- the slot after the cursor would be filled
    have hs := hr (node.cursorFor o + 1) (by omega) (by omega)
    rw [← hasDurableOrAuditedSkip_iff, hf.stopped (by omega)] at hs
    cases hs

/-- An exact cursor needs no repair. -/
theorem Exact.repairableCursorFor {node : ModelNode} (h : Exact node) (o : String) :
    node.repairableCursorFor o = node.cursorFor o := by
  have hc := (h o).trans (fun _ hk => hk)
    (advanceTo_isFrontier u64Max (node.hasDurableOrAuditedSkip o) (node.cursorFor o))
  exact hc.unique (h o)

theorem Exact.cursorRepairRequirements {node : ModelNode} (h : Exact node) :
    node.cursorRepairRequirements = [] := by
  unfold ModelNode.cursorRepairRequirements
  rw [List.filterMap_eq_nil_iff]
  intro o _
  rw [h.repairableCursorFor]
  exact if_neg (lt_irrefl _)

/-- **The replay frontier is exact** after any sequence of replays, quarantine repairs
and cursor repairs: every cursor is the longest gapless run of its origin, the next call
lowers no cursor, and no cursor waits for a repair. -/
theorem frontier_exact (ops : List NodeOp) :
    (∀ origin, IsGreatest ((new.run ops).gaplessRuns origin) ((new.run ops).cursorFor origin)) ∧
      (∀ op origin, (new.run ops).cursorFor origin ≤ ((new.run ops).step op).cursorFor origin) ∧
      (new.run ops).cursorRepairRequirements = [] := by
  have he : Exact (new.run ops) := exact_new.run ops
  exact ⟨he.isGreatest, cursorFor_le_step _, he.cursorRepairRequirements⟩

/-! ## One pull -/

/-- `EventRange`. -/
structure EventRange where
  originNodeId : String
  startSeq : ℕ
  endSeq : ℕ
  deriving DecidableEq, Repr

/-- `ModelNode::ranges_to_request`. -/
def rangesToRequest (node : ModelNode) (peerFrontier : ExtTreeMap String ℕ) : List EventRange :=
  peerFrontier.toList.filterMap fun (originNodeId, peerTip) =>
    let localTip := node.cursorFor originNodeId
    if peerTip > localTip then some ⟨originNodeId, localTip + 1, peerTip⟩ else none

/-- `ModelNode::events_for_range`. -/
def eventsForRange (node : ModelNode) (range : EventRange) : List ModelEvent :=
  (List.range' range.startSeq (range.endSeq + 1 - range.startSeq)).filterMap fun seq =>
    node.accepted[(⟨range.originNodeId, seq⟩ : EventKey)]?

/-- What a peer returns for the ranges that a node asks of it. -/
def pulledEvents (node peer : ModelNode) : List ModelEvent :=
  (node.rangesToRequest peer.frontier).flatMap peer.eventsForRange

/-- Every origin where the peer is ahead is asked for. -/
theorem mem_rangesToRequest {node peer : ModelNode} {o : String}
    (h : node.cursorFor o < peer.cursorFor o) :
    (⟨o, node.cursorFor o + 1, peer.cursorFor o⟩ : EventRange)
      ∈ node.rangesToRequest peer.frontier := by
  have he : peer.frontier[o]? = some (peer.cursorFor o) := by
    unfold cursorFor at h ⊢
    cases hg : peer.frontier[o]? with
    | none =>
      rw [hg] at h
      exact absurd h (Nat.not_lt_zero _)
    | some tip => rfl
  unfold rangesToRequest
  rw [List.mem_filterMap]
  refine ⟨(o, peer.cursorFor o), ExtTreeMap.mem_toList_iff_getElem?_eq_some.mpr he, ?_⟩
  simp only
  rw [if_pos h]

/-- The peer returns every accepted event of a range. -/
theorem mem_eventsForRange {peer : ModelNode} {o : String} {ss es seq : ℕ}
    {event : ModelEvent} (hs : ss ≤ seq) (he : seq ≤ es)
    (h : peer.accepted[(⟨o, seq⟩ : EventKey)]? = some event) :
    event ∈ peer.eventsForRange ⟨o, ss, es⟩ := by
  unfold eventsForRange
  rw [List.mem_filterMap]
  refine ⟨seq, ?_, h⟩
  rw [List.mem_range'_1]
  change ss ≤ seq ∧ seq < ss + (es + 1 - ss)
  omega

theorem replayAll_eq_run (node : ModelNode) (es : List ModelEvent) :
    node.replayAll es = node.run (es.map fun event => NodeOp.replay event .accept) := by
  unfold replayAll run
  rw [List.foldl_map]
  rfl

/-- A delivered event finds its slot filled afterwards. -/
theorem mem_accepted_replayAll (node : ModelNode) {es : List ModelEvent} {event : ModelEvent}
    (h : event ∈ es) : event.key ∈ (node.replayAll es).accepted := by
  rw [ExtTreeMap.mem_iff_isSome_getElem?, accepted_replayAll, Option.isSome_or, Bool.or_eq_true]
  refine Or.inr ?_
  rw [List.find?_isSome]
  exact ⟨event, h, by simp⟩

/-- **One pull catches up.**  A node asks a peer without audited skips for the ranges
that its frontier shows and replays what the peer returns in some order: no cursor then
stays behind that of the peer, and no accepted event is lost.  The events the two
already have need not even agree. -/
theorem pull_catches_up {peer node : ModelNode} (hpeer : Reachable peer) (hnode : Reachable node)
    (hskips : peer.auditedSkips = ∅) {deliveries : List ModelEvent}
    (hdeliveries : deliveries.Perm (node.pulledEvents peer)) :
    (∀ origin, peer.cursorFor origin ≤ (node.replayAll deliveries).cursorFor origin) ∧
      ∀ (key : EventKey) (event : ModelEvent), node.accepted[key]? = some event →
        (node.replayAll deliveries).accepted[key]? = some event := by
  rw [replayAll_eq_run]
  refine ⟨?_, fun key event => accepted_run _⟩
  intro origin
  rw [← replayAll_eq_run]
  by_contra hbehind
  have hex : Exact (node.replayAll deliveries) := by
    rw [replayAll_eq_run]
    exact hnode.exact.run _
  have hle : node.cursorFor origin ≤ (node.replayAll deliveries).cursorFor origin := by
    rw [replayAll_eq_run]
    exact cursorFor_le_run node _ origin
  set c := (node.replayAll deliveries).cursorFor origin
  -- the peer has the event after the cursor reached
  have hp := (hpeer.exact.isGreatest origin).1
  have hc := hp.1
  obtain ⟨event, he⟩ : ∃ event, peer.accepted[(⟨origin, c + 1⟩ : EventKey)]? = some event := by
    rcases hp.2 (c + 1) (by omega) (by omega) with hm | hm
    · exact Option.isSome_iff_exists.mp (ExtTreeMap.mem_iff_isSome_getElem?.mp hm)
    · rw [hskips] at hm
      exact absurd hm (by simp)
  -- so it was delivered
  have hd : event ∈ deliveries := by
    rw [hdeliveries.mem_iff]
    unfold pulledEvents
    rw [List.mem_flatMap]
    exact ⟨_, mem_rangesToRequest (by omega), mem_eventsForRange (by omega) (by omega) he⟩
  have hf := mem_accepted_replayAll node hd
  rw [hpeer.keysOwn _ _ he] at hf
  have hs := (hasDurableOrAuditedSkip_iff (node.replayAll deliveries) origin
    (c + 1)).mpr (Or.inl hf)
  rw [(hex origin).stopped (by omega)] at hs
  cases hs

/-- A peer with three events and a node that has the second one and one of its own. -/
def samplePeer : ModelNode :=
  new.run (sampleEvents.map fun event => NodeOp.replay event .accept)

/-- See `samplePeer`. -/
def sampleNode : ModelNode :=
  new.run [.replay (.newWithKind "a" 2 "m" none "h2" .revise) .accept,
    .replay (.newWithKind "c" 1 "o" none "h4" .create) .accept]

/-- The node pulls the three events, delivered backwards. -/
theorem samplePull_catches_up : (∀ origin, samplePeer.cursorFor origin
        ≤ (sampleNode.replayAll sampleEvents.reverse).cursorFor origin) ∧
      ∀ (key : EventKey) (event : ModelEvent), sampleNode.accepted[key]? = some event →
        (sampleNode.replayAll sampleEvents.reverse).accepted[key]? = some event := by
  have hp : sampleNode.pulledEvents samplePeer = sampleEvents := by decide +kernel
  have hd : sampleEvents.reverse.Perm (sampleNode.pulledEvents samplePeer) := by
    rw [hp]
    exact List.reverse_perm _
  exact pull_catches_up ⟨_, rfl⟩ ⟨_, rfl⟩ (by decide +kernel) hd

end ModelNode

end AntiEntropyModel
