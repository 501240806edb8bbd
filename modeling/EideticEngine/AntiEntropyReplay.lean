/-
# Replay converges

What a node is after any run of `replay` depends on its start and on its accepted
events only: the frontier of an origin that gained an event is the contiguous closure
of its start cursor (`Grown`).  The accepted events in turn depend on the set of
delivered events only, so delivery order and repetitions do not matter.

`replay_deterministically` sorts first, by key and event id.  Events that differ in
other fields only are left in the order they came in, and the first one is accepted.
-/
import EideticEngine.AntiEntropyModel
import EideticEngine.ComparisonSort

namespace AntiEntropyModel

open Std (ExtTreeMap ExtTreeSet LawfulEqCmp)

namespace ModelNode

variable {start node : ModelNode} {event : ModelEvent}

/-! ## One delivery -/

/-- Moving the frontier of an origin on concerns that origin only. -/
theorem frontier_advanceFrontierFor (node : ModelNode) (nodeId o : String) :
    (node.advanceFrontierFor nodeId).frontier[o]? =
      if nodeId = o ∧ node.cursorFor nodeId < node.repairableCursorFor nodeId
      then some (node.repairableCursorFor nodeId)
      else node.frontier[o]? := by
  unfold advanceFrontierFor
  by_cases hlt : node.cursorFor nodeId < node.repairableCursorFor nodeId
  · simp only [hlt, if_true, and_true]
    exact ExtTreeMap.getElem?_insert_ite _ _ _
  · simp only [hlt, if_false, and_false]

/-- Moving the frontier on changes nothing else. -/
theorem advanceFrontierFor_rest (node : ModelNode) (nodeId : String) :
    (node.advanceFrontierFor nodeId).accepted = node.accepted ∧
      (node.advanceFrontierFor nodeId).quarantined = node.quarantined ∧
      (node.advanceFrontierFor nodeId).auditedSkips = node.auditedSkips ∧
      (node.advanceFrontierFor nodeId).repairAudit = node.repairAudit := by
  unfold advanceFrontierFor
  simp only
  split <;> exact ⟨rfl, rfl, rfl, rfl⟩

/-- What a delivery does: nothing when the position is taken, else it adds the event
and moves the frontier of its origin on. -/
theorem replay_cases (node : ModelNode) (event : ModelEvent) :
    (event.key ∈ node.accepted ∧ (node.replay event).1 = node) ∨
      (event.key ∉ node.accepted ∧ (node.replay event).1 =
        advanceFrontierFor { node with accepted := node.accepted.insert event.key event }
          event.key.originNodeId) := by
  unfold replay
  cases he : node.accepted[event.key]? with
  | some ex =>
    refine Or.inl ⟨ExtTreeMap.mem_iff_isSome_getElem?.mpr (by rw [he]; rfl), ?_⟩
    simp only
    split <;> rfl
  | none =>
    refine Or.inr ⟨?_, rfl⟩
    rw [ExtTreeMap.mem_iff_isSome_getElem?, he]
    simp

/-- The accepted events after a delivery. -/
theorem accepted_replay (node : ModelNode) (event : ModelEvent) (key : EventKey) :
    (node.replay event).1.accepted[key]? =
      (node.accepted[key]?).or (if event.key = key then some event else none) := by
  rcases replay_cases node event with ⟨hm, hr⟩ | ⟨hn, hr⟩
  · rw [hr]
    by_cases heq : event.key = key
    · obtain ⟨ex, he⟩ := Option.isSome_iff_exists.mp (ExtTreeMap.mem_iff_isSome_getElem?.mp hm)
      rw [← heq, he]
      rfl
    · rw [if_neg heq, Option.or_none]
  · rw [hr, (advanceFrontierFor_rest _ _).1, ExtTreeMap.getElem?_insert_ite]
    by_cases heq : event.key = key
    · rw [if_pos heq, if_pos heq, ← heq, ExtTreeMap.getElem?_eq_none hn, Option.none_or]
    · rw [if_neg heq, if_neg heq, Option.or_none]

/-! ## What a run leaves -/

/-- The frontier entry of an origin that gained an event since the start. -/
def closedFrontier (start node : ModelNode) (origin : String) : Option ℕ :=
  let cursor := advanceTo u64Max (node.hasDurableOrAuditedSkip origin) (start.cursorFor origin)
  if start.cursorFor origin < cursor then some cursor else start.frontier[origin]?

/-- The node has gained the event at a key since the start. -/
def Gained (start node : ModelNode) (key : EventKey) : Prop :=
  key ∈ node.accepted ∧ key ∉ start.accepted

/-- How a node relates to the node it started from. -/
structure Grown (start node : ModelNode) : Prop where
  accepted_mono : ∀ key ∈ start.accepted, key ∈ node.accepted
  quarantined_eq : node.quarantined = start.quarantined
  auditedSkips_eq : node.auditedSkips = start.auditedSkips
  repairAudit_eq : node.repairAudit = start.repairAudit
  frontier_gained : ∀ key, Gained start node key →
    node.frontier[key.originNodeId]? = closedFrontier start node key.originNodeId
  frontier_same : ∀ origin, (∀ seq, ¬ Gained start node ⟨origin, seq⟩) →
    node.frontier[origin]? = start.frontier[origin]?

theorem closedFrontier_congr {n' : ModelNode} {o : String}
    (h : ∀ k, node.hasDurableOrAuditedSkip o k = n'.hasDurableOrAuditedSkip o k) :
    closedFrontier start node o = closedFrontier start n' o := by
  unfold closedFrontier
  rw [funext h]

/-- A start and the accepted events determine the node. -/
theorem Grown.ext {n' : ModelNode} (h : Grown start node) (h' : Grown start n')
    (ha : node.accepted = n'.accepted) : node = n' := by
  have hf : node.frontier = n'.frontier := by
    apply ExtTreeMap.ext_getElem?
    intro o
    by_cases hg : ∃ seq, Gained start node ⟨o, seq⟩
    · obtain ⟨seq, hs⟩ := hg
      have hc : closedFrontier start node o = closedFrontier start n' o := by
        refine closedFrontier_congr fun k => ?_
        unfold hasDurableOrAuditedSkip
        rw [ha, h.auditedSkips_eq, h'.auditedSkips_eq]
      have hs' : Gained start n' ⟨o, seq⟩ := by
        unfold Gained at hs ⊢
        rwa [← ha]
      rw [h.frontier_gained _ hs, h'.frontier_gained _ hs', hc]
    · have hn : ∀ seq, ¬ Gained start node ⟨o, seq⟩ := by
        intro seq hs
        exact hg ⟨seq, hs⟩
      have hn' : ∀ seq, ¬ Gained start n' ⟨o, seq⟩ := by
        intro seq
        unfold Gained
        rw [← ha]
        exact hn seq
      rw [h.frontier_same _ hn, h'.frontier_same _ hn']
  have hq := h.quarantined_eq.trans h'.quarantined_eq.symm
  have hsk := h.auditedSkips_eq.trans h'.auditedSkips_eq.symm
  have hau := h.repairAudit_eq.trans h'.repairAudit_eq.symm
  cases node
  cases n'
  simp_all

theorem grown_refl (node : ModelNode) : Grown node node :=
  ⟨fun _ h => h, rfl, rfl, rfl, fun _ h => absurd h.1 h.2, fun _ _ => rfl⟩

/-- An origin either kept its frontier entry or has the closed one. -/
theorem Grown.frontier_cases (h : Grown start node) (o : String) :
    node.frontier[o]? = start.frontier[o]? ∨ node.frontier[o]? = closedFrontier start node o := by
  by_cases hg : ∃ seq, Gained start node ⟨o, seq⟩
  · obtain ⟨seq, hs⟩ := hg
    exact Or.inr (h.frontier_gained _ hs)
  · exact Or.inl (h.frontier_same _ fun seq hs => hg ⟨seq, hs⟩)

/-- The cursor of a closed frontier entry. -/
theorem cursorFor_of_closed {o : String} (h : node.frontier[o]? = closedFrontier start node o) :
    node.cursorFor o = advanceTo u64Max (node.hasDurableOrAuditedSkip o) (start.cursorFor o) := by
  have hle := le_advanceTo u64Max (node.hasDurableOrAuditedSkip o) (start.cursorFor o)
  unfold cursorFor at hle ⊢
  rw [h]
  unfold closedFrontier cursorFor
  simp only
  split
  · rfl
  · omega

/-- Closing further from the cursor of a grown node is closing from the start. -/
theorem Grown.advanceTo_cursorFor (h : Grown start node) (o : String) {f : ℕ → Bool}
    (hm : ∀ k, node.hasDurableOrAuditedSkip o k = true → f k = true) :
    start.cursorFor o ≤ node.cursorFor o ∧ advanceTo u64Max f (node.cursorFor o)
        = advanceTo u64Max f (start.cursorFor o) := by
  rcases h.frontier_cases o with hs | hc
  · have hcu : node.cursorFor o = start.cursorFor o := by
      unfold cursorFor
      rw [hs]
    rw [hcu]
    exact ⟨le_rfl, rfl⟩
  · rw [cursorFor_of_closed hc]
    exact ⟨le_advanceTo _ _ _, advanceTo_advanceTo hm⟩

/-- The closed entry of an origin after it accepted one more event. -/
theorem Grown.closedFrontier_step {mid : ModelNode} {o : String} (h : Grown start node)
    (hf : mid.frontier = node.frontier)
    (hm : ∀ k, node.hasDurableOrAuditedSkip o k = true → mid.hasDurableOrAuditedSkip o k = true) :
    (mid.advanceFrontierFor o).frontier[o]? = closedFrontier start mid o := by
  have hcu : mid.cursorFor o = node.cursorFor o := by
    unfold cursorFor
    rw [hf]
  obtain ⟨hle, hc⟩ := h.advanceTo_cursorFor o hm
  have hr : mid.repairableCursorFor o
      = advanceTo u64Max (mid.hasDurableOrAuditedSkip o) (start.cursorFor o) := by
    unfold repairableCursorFor
    rw [hcu, hc]
  have hge := le_advanceTo u64Max (mid.hasDurableOrAuditedSkip o) (node.cursorFor o)
  rw [hc] at hge
  rw [frontier_advanceFrontierFor, hcu, hr, hf]
  unfold closedFrontier
  simp only [true_and]
  split
  · rename_i hlt
    rw [if_pos (by omega)]
  · -- the cursor stays, so it was closed already or the start cursor is closed
    rename_i hno
    rcases h.frontier_cases o with hs | hcl
    · have hst : node.cursorFor o = start.cursorFor o := by
        unfold cursorFor
        rw [hs]
      rw [if_neg (by omega), hs]
    · have hn := cursorFor_of_closed hcl
      rw [hcl]
      unfold closedFrontier
      simp only
      rw [← hn]
      have heq : advanceTo u64Max (mid.hasDurableOrAuditedSkip o) (start.cursorFor o)
          = node.cursorFor o := by omega
      rw [heq]

/-- **One delivery keeps the relation to the start.** -/
theorem Grown.replay (h : Grown start node) (event : ModelEvent) :
    Grown start (node.replay event).1 := by
  rcases replay_cases node event with ⟨-, hr⟩ | ⟨hne, hr⟩
  · rw [hr]
    exact h
  rw [hr]
  set mid : ModelNode := { node with accepted := node.accepted.insert event.key event } with hmid
  obtain ⟨ha, hq, hs, hau⟩ := advanceFrontierFor_rest mid event.key.originNodeId
  have hm : ∀ key, key ∈ mid.accepted ↔ event.key = key ∨ key ∈ node.accepted := fun key =>
    ExtTreeMap.mem_insert_iff _ _ _
  have hd : ∀ o k, node.hasDurableOrAuditedSkip o k = true →
      mid.hasDurableOrAuditedSkip o k = true := by
    intro o k hk
    unfold hasDurableOrAuditedSkip at hk ⊢
    simp only [Bool.or_eq_true, ExtTreeMap.contains_iff_mem, hm] at hk ⊢
    tauto
  have hot : ∀ o, o ≠ event.key.originNodeId → ∀ k,
      mid.hasDurableOrAuditedSkip o k = node.hasDurableOrAuditedSkip o k := by
    intro o ho k
    have hke : event.key ≠ ⟨o, k⟩ := by
      intro heq
      rw [heq] at ho
      exact ho rfl
    unfold hasDurableOrAuditedSkip
    rw [Bool.eq_iff_iff]
    simp only [Bool.or_eq_true, ExtTreeMap.contains_iff_mem, hm, hke, false_or]
    rfl
  have hf : ∀ o, o ≠ event.key.originNodeId →
      (mid.advanceFrontierFor event.key.originNodeId).frontier[o]? = node.frontier[o]? := by
    intro o ho
    rw [frontier_advanceFrontierFor, if_neg fun hco => ho hco.1.symm]
  have hg : Gained start mid event.key :=
    ⟨(hm _).mpr (Or.inl rfl), fun hst => hne (h.accepted_mono _ hst)⟩
  refine ⟨?_, hq.trans h.quarantined_eq, hs.trans h.auditedSkips_eq,
    hau.trans h.repairAudit_eq, ?_, ?_⟩
  · intro key hke
    rw [ha, hm]
    exact Or.inr (h.accepted_mono key hke)
  · intro key hke
    have hc : closedFrontier start (mid.advanceFrontierFor event.key.originNodeId)
        key.originNodeId = closedFrontier start mid key.originNodeId := by
      refine closedFrontier_congr fun k => ?_
      unfold hasDurableOrAuditedSkip
      rw [ha, hs]
    rw [hc]
    by_cases ho : key.originNodeId = event.key.originNodeId
    · rw [ho]
      exact h.closedFrontier_step rfl (hd _)
    · have hkeyMid : Gained start node key := by
        unfold Gained at hke ⊢
        rw [ha, hm] at hke
        refine ⟨hke.1.resolve_left fun heq => ho (by rw [heq]), hke.2⟩
      rw [hf _ ho, h.frontier_gained key hkeyMid]
      exact closedFrontier_congr fun k => (hot _ ho k).symm
  · intro o hn
    have ho : o ≠ event.key.originNodeId := by
      intro heq
      apply hn event.key.seq
      unfold Gained
      rw [ha, heq]
      exact hg
    rw [hf _ ho]
    refine h.frontier_same o fun seq hse => hn seq ?_
    unfold Gained
    rw [ha, hm]
    exact ⟨Or.inr hse.1, hse.2⟩

/-- Any run of deliveries keeps the relation to the start. -/
theorem Grown.replayAll (h : Grown start node) (es : List ModelEvent) :
    Grown start (node.replayAll es) := by
  induction es generalizing node with
  | nil => exact h
  | cons event es ih => exact ih (h.replay event)

/-- The accepted events after a run: the first delivery at each free position. -/
theorem accepted_replayAll (node : ModelNode) (es : List ModelEvent) (key : EventKey) :
    (node.replayAll es).accepted[key]? =
      (node.accepted[key]?).or (es.find? fun event => event.key = key) := by
  induction es generalizing node with
  | nil => exact (Option.or_none).symm
  | cons event es ih =>
    change (((node.replay event).1).replayAll es).accepted[key]? = _
    rw [ih, accepted_replay, Option.or_assoc, List.find?_cons]
    by_cases heq : event.key = key <;> simp [heq]

/-! ## Convergence -/

/-- No two different events of the set share a position. -/
def KeysUnique (events : Finset ModelEvent) : Prop :=
  ∀ event ∈ events, ∀ event' ∈ events, event.key = event'.key → event = event'

/-- A sequence of deliveries that covers the set, in any order and with repetitions. -/
def Covers (deliveries : List ModelEvent) (events : Finset ModelEvent) : Prop :=
  deliveries.toFinset = events

theorem Covers.find?_key {es : Finset ModelEvent} (hu : KeysUnique es)
    {d d' : List ModelEvent} (h : Covers d es) (h' : Covers d' es) (key : EventKey) :
    d.find? (fun event => event.key = key) = d'.find? fun event => event.key = key := by
  have hm : ∀ event, event ∈ d ↔ event ∈ es := fun event => by
    rw [← h, List.mem_toFinset]
  have hm' : ∀ event, event ∈ d' ↔ event ∈ es := fun event => by
    rw [← h', List.mem_toFinset]
  cases hf : d.find? (fun event => event.key = key) with
  | none =>
    symm
    rw [List.find?_eq_none] at hf ⊢
    exact fun event he => hf event ((hm event).mpr ((hm' event).mp he))
  | some event =>
    have hk : event.key = key := by simpa using List.find?_some hf
    have hin := (hm event).mp (List.mem_of_find?_eq_some hf)
    cases hf' : d'.find? (fun event => event.key = key) with
    | none =>
      rw [List.find?_eq_none] at hf'
      exact absurd (decide_eq_true hk) (hf' event ((hm' event).mpr hin))
    | some e' =>
      have hk' : e'.key = key := by simpa using List.find?_some hf'
      have hi' := (hm' e').mp (List.mem_of_find?_eq_some hf')
      rw [hu event hin e' hi' (hk.trans hk'.symm)]

/-- **Delivery order and repetitions do not matter.** -/
theorem replayAll_eq_of_covers {es : Finset ModelEvent} (hu : KeysUnique es)
    {d d' : List ModelEvent} (h : Covers d es) (h' : Covers d' es) (node : ModelNode) :
    node.replayAll d = node.replayAll d' := by
  refine Grown.ext ((grown_refl node).replayAll d) ((grown_refl node).replayAll d') ?_
  apply ExtTreeMap.ext_getElem?
  intro key
  rw [accepted_replayAll, accepted_replayAll, h.find?_key hu h']

theorem Covers.insertionSort {es : Finset ModelEvent} {d : List ModelEvent} (h : Covers d es) :
    Covers (d.insertionSort fun left right => deliveryLe left right) es := by
  rw [← h]
  exact List.toFinset_eq_of_perm _ _ (List.perm_insertionSort _ _)

/-- **Replay converges regardless of delivery**: two nodes that start equal end equal,
in the state that replaying the sorted events gives, which is that of
`replay_deterministically` when they start empty. -/
theorem replay_converges (events : Finset ModelEvent) (hunique : KeysUnique events)
    (deliveries deliveries' listing : List ModelEvent) (h : Covers deliveries events)
    (h' : Covers deliveries' events) (hlisting : Covers listing events)
    (node node' : ModelNode) (hstart : node = node') :
    (node.replayAll deliveries).accepted = (node'.replayAll deliveries').accepted ∧
      (node.replayAll deliveries).frontier = (node'.replayAll deliveries').frontier ∧
      (node.replayAll deliveries).convergenceDigest
        = (node'.replayAll deliveries').convergenceDigest ∧
      node.replayAll deliveries = node.replayAll
        (listing.insertionSort fun left right => deliveryLe left right) ∧
      (node = new → node.replayAll deliveries = replayDeterministically listing) := by
  subst hstart
  have heq := replayAll_eq_of_covers hunique h h' node
  have hs := replayAll_eq_of_covers hunique h hlisting.insertionSort node
  refine ⟨by rw [heq], by rw [heq], by rw [heq], hs, ?_⟩
  intro hn
  rw [hs, hn]
  rfl

/-- Two events of one origin and one of another. -/
def sampleEvents : List ModelEvent :=
  [.newWithKind "a" 1 "m" none "h1" .create, .newWithKind "a" 2 "m" none "h2" .revise,
    .newWithKind "b" 1 "n" none "h3" .create]

/-- Three events delivered backwards and with a repetition. -/
theorem replay_converges_reversed : (new.replayAll sampleEvents).convergenceDigest
        = (new.replayAll (sampleEvents.reverse ++ sampleEvents)).convergenceDigest ∧
      new.replayAll sampleEvents = replayDeterministically sampleEvents := by
  have hc : Covers (sampleEvents.reverse ++ sampleEvents) sampleEvents.toFinset := by
    unfold Covers
    simp
  have h := replay_converges sampleEvents.toFinset
    (by unfold KeysUnique; decide +kernel) sampleEvents (sampleEvents.reverse ++ sampleEvents)
    sampleEvents rfl hc rfl new new rfl
  exact ⟨h.2.2.1, h.2.2.2.2 rfl⟩

/-- Nodes that start with an event of their own keep it, and `replay_deterministically`
knows nothing of it. -/
theorem replay_not_deterministic_from_start :
    ¬ ∀ (events : Finset ModelEvent) (deliveries deliveries' listing : List ModelEvent)
        (node node' : ModelNode), KeysUnique events → Covers deliveries events →
        Covers deliveries' events → Covers listing events → node = node' →
        (node.replayAll deliveries).accepted = (node'.replayAll deliveries').accepted ∧
        (node.replayAll deliveries).frontier = (node'.replayAll deliveries').frontier ∧
        (node.replayAll deliveries).convergenceDigest
          = (node'.replayAll deliveries').convergenceDigest ∧
        node.replayAll deliveries = replayDeterministically listing := by
  intro hc
  let s := new.replayAll [.newWithKind "a" 1 "m" none "h1" .create]
  let d : List ModelEvent := [.newWithKind "b" 1 "n" none "h3" .create]
  have h := hc d.toFinset d d d s s (by unfold KeysUnique; decide +kernel) rfl rfl rfl rfl
  have hne : s.replayAll d ≠ replayDeterministically d := by decide +kernel
  exact hne h.2.2.2

/-! ## Deterministic replay -/

/-- The comparison behind `deliveryLe`. -/
def deliveryCmp : ModelEvent → ModelEvent → Ordering :=
  compareLex (compareOn ModelEvent.key) (compareOn ModelEvent.eventId)

instance : Std.TransCmp deliveryCmp :=
  inferInstanceAs (Std.TransCmp (compareLex (compareOn ModelEvent.key)
    (compareOn ModelEvent.eventId)))

instance : Std.Total fun left right : ModelEvent => deliveryLe left right = true where
  total left right := by
    change (deliveryCmp left right).isLE = true ∨ (deliveryCmp right left).isLE = true
    have hswap : deliveryCmp right left = (deliveryCmp left right).swap :=
      Std.OrientedCmp.eq_swap
    rw [hswap]
    cases deliveryCmp left right <;> decide

instance : IsTrans ModelEvent fun left right => deliveryLe left right = true where
  trans left mid right h h' := by
    change (deliveryCmp left right).isLE = true
    exact Std.TransCmp.isLE_trans h h'

theorem deliveryLe_refl (event : ModelEvent) : deliveryLe event event = true := by
  have hs : deliveryCmp event event = .eq := Std.ReflCmp.compare_self
  change (deliveryCmp event event).isLE = true
  rw [hs]
  rfl

/-- At one position events are sorted by their ids. -/
theorem deliveryLe_of_key {left right : ModelEvent} (h : left.key = right.key) :
    deliveryLe left right = (compare left.eventId right.eventId).isLE := by
  have hs : compare right.key right.key = .eq := Std.ReflCmp.compare_self
  unfold deliveryLe
  rw [h, hs]
  rfl

/-- No event of the list at the same position has a smaller id. -/
def IsLeast (events : List ModelEvent) (event : ModelEvent) : Prop :=
  ∀ other ∈ events, other.key = event.key → (compare event.eventId other.eventId).isLE = true

/-- Events that share a position and the least id there are equal in every field. -/
def LeastIdsUnique (events : List ModelEvent) : Prop :=
  ∀ event ∈ events, ∀ event' ∈ events, event.key = event'.key → event.eventId = event'.eventId →
    IsLeast events event → event = event'

/-- What `replay_deterministically` accepts at a position. -/
theorem accepted_replayDeterministically (es : List ModelEvent) (key : EventKey) :
    (replayDeterministically es).accepted[key]? =
      (es.insertionSort fun left right => deliveryLe left right).find?
        fun event => event.key = key := by
  unfold replayDeterministically
  rw [accepted_replayAll]
  unfold new
  simp

/-- It accepts an event of the least id at its position. -/
theorem isLeast_of_accepted {es : List ModelEvent} {key : EventKey} {event : ModelEvent}
    (h : (replayDeterministically es).accepted[key]? = some event) :
    event ∈ es ∧ event.key = key ∧ IsLeast es event := by
  rw [accepted_replayDeterministically] at h
  have hk : event.key = key := by simpa using List.find?_some h
  refine ⟨(List.mem_insertionSort _).mp (List.mem_of_find?_eq_some h), hk, ?_⟩
  intro other ho hs
  have hle : deliveryLe event other = true :=
    ComparisonSort.find?_le (r := fun left right => deliveryLe left right = true)
      (deliveryLe_refl event) (List.pairwise_insertionSort _ es) h
      ((List.mem_insertionSort _).mpr ho) (by simpa using hs.trans hk)
  rwa [deliveryLe_of_key hs.symm] at hle

/-- It accepts an event of the least id that comes first in the list. -/
theorem accepted_cons_of_isLeast {event : ModelEvent} {es : List ModelEvent}
    (h : IsLeast (event :: es) event) :
    (replayDeterministically (event :: es)).accepted[event.key]? = some event := by
  rw [accepted_replayDeterministically, List.insertionSort_cons]
  refine ComparisonSort.find?_orderedInsert (by simp) ?_
  intro other ho hk
  have hs : other.key = event.key := by simpa using hk
  rw [deliveryLe_of_key hs.symm]
  exact h other (List.mem_cons_of_mem _ ((List.mem_insertionSort _).mp ho)) hs

theorem mem_accepted_replayDeterministically (es : List ModelEvent) (key : EventKey) :
    ((replayDeterministically es).accepted[key]?).isSome = true ↔
      ∃ event ∈ es, event.key = key := by
  rw [accepted_replayDeterministically, List.find?_isSome]
  simp only [List.mem_insertionSort, decide_eq_true_eq]

theorem IsLeast.perm {es s : List ModelEvent} {event : ModelEvent}
    (h : IsLeast es event) (hp : s.Perm es) : IsLeast s event :=
  fun other ho => h other (hp.mem_iff.mp ho)

/-- The least ids decide what is accepted, so the order does not matter when they
are unique. -/
theorem LeastIdsUnique.replayDeterministically_eq {es s : List ModelEvent}
    (h : LeastIdsUnique es) (hp : s.Perm es) :
    replayDeterministically s = replayDeterministically es := by
  refine Grown.ext ((grown_refl new).replayAll _) ((grown_refl new).replayAll _) ?_
  apply ExtTreeMap.ext_getElem?
  intro key
  have hs : ((replayDeterministically s).accepted[key]?).isSome = true ↔
      ((replayDeterministically es).accepted[key]?).isSome = true := by
    rw [mem_accepted_replayDeterministically, mem_accepted_replayDeterministically]
    simp only [hp.mem_iff]
  cases hl : (replayDeterministically s).accepted[key]? with
  | none =>
    rw [hl] at hs
    symm
    rw [← Option.not_isSome_iff_eq_none]
    exact fun hr => by simpa using hs.mpr hr
  | some event =>
    rw [hl] at hs
    obtain ⟨e', hr⟩ := Option.isSome_iff_exists.mp (hs.mp rfl)
    obtain ⟨hm, hk, hlea⟩ := isLeast_of_accepted hl
    obtain ⟨hm', hk', hl'⟩ := isLeast_of_accepted hr
    have hi : compare event.eventId e'.eventId = .eq := by
      have hle := hlea e' (hp.mem_iff.mpr hm') (hk'.trans hk.symm)
      have hge := hl' event (hp.mem_iff.mp hm) (hk.trans hk'.symm)
      rw [Ordering.isLE_iff_ne_gt] at hle hge
      exact ComparisonSort.eq_of_ne_gt hle hge
    rw [hr, h event (hp.mem_iff.mp hm) e' hm' (hk.trans hk'.symm)
      (LawfulEqCmp.eq_of_compare hi) (hlea.perm hp.symm)]

/-- **When deterministic replay is order independent**: exactly when events that share a
position and the least event id there are equal in every field. -/
theorem deterministic_replay_order_independent_iff (events : List ModelEvent) :
    (∀ shuffled : List ModelEvent, shuffled.Perm events →
      (replayDeterministically shuffled).accepted = (replayDeterministically events).accepted ∧
        (replayDeterministically shuffled).convergenceDigest
          = (replayDeterministically events).convergenceDigest) ↔
      LeastIdsUnique events := by
  constructor
  · intro h event hm e' hm' hk hid hl
    have hl' : IsLeast events e' := by
      intro other ho hs
      rw [← hid]
      exact hl other ho (hs.trans hk.symm)
    -- each of the two is accepted when it comes first
    have hp := List.perm_cons_erase hm
    have hp' := List.perm_cons_erase hm'
    have hf := accepted_cons_of_isLeast (hl.perm hp.symm)
    have hf' := accepted_cons_of_isLeast (hl'.perm hp'.symm)
    rw [(h _ hp.symm).1] at hf
    rw [(h _ hp'.symm).1, ← hk, hf] at hf'
    exact Option.some_injective _ hf'
  · intro h shuffled hp
    rw [h.replayDeterministically_eq hp]
    exact ⟨rfl, rfl⟩

/-- Two versions of one event that differ in the event they are based on, and that event. -/
def sampleRebased : List ModelEvent :=
  let base : ModelEvent := .newWithKind "b" 1 "m" none "h0" .create
  [.newWithKind "a" 1 "m" none "h1" .revise,
    .newWithKind "a" 1 "m" (some base.eventId) "h1" .revise, base]

/-- The event id says nothing of the base event, so the version that comes first is
accepted, and with it the conflict of the two heads. -/
theorem deterministic_replay_depends_on_order :
    ¬ ∀ events shuffled : List ModelEvent, (∀ event ∈ events, event.Constructed) →
        shuffled.Perm events →
        (replayDeterministically shuffled).accepted = (replayDeterministically events).accepted ∧
          (replayDeterministically shuffled).convergenceDigest
            = (replayDeterministically events).convergenceDigest := by
  intro hcl
  have hc : ∀ event ∈ sampleRebased, event.Constructed := by
    intro event he
    unfold sampleRebased at he
    simp only [List.mem_cons, List.not_mem_nil, or_false] at he
    rcases he with rfl | rfl | rfl <;> exact .newWithKind ..
  have h := (hcl sampleRebased sampleRebased.reverse hc (List.reverse_perm _)).2
  revert h
  decide +kernel

end ModelNode

end AntiEntropyModel
