/-
# Planning anti-entropy rounds (`src/mesh/anti_entropy_protocol.rs`)

A peer advertises, per origin, how far its stream is complete; the planner compares
that with the local cursors and asks for one bounded range of each origin that is
behind, unless the range has used up its attempts or waits for its retry time.  The
cursor moves on only over events that were durably replayed.
-/
import EideticEngine.ContiguousCursor
import EideticEngine.MachineInt
import EideticEngine.OrderedMap

namespace AntiEntropyProtocol

open Std (ExtTreeMap TransOrd TransCmp LawfulEqOrd LawfulEqCmp)

/-! ## Origins, tips and cursors -/

/-- `MeshOriginKey`: one append-only origin stream. -/
structure MeshOriginKey where
  originNodeId : String
  originWorkspaceId : Option String
  deriving DecidableEq, Repr

namespace MeshOriginKey

/-- The derived order: by node, then by workspace, an absent one first. -/
instance : Ord MeshOriginKey :=
  ⟨compareLex (compareOn originNodeId) (compareOn originWorkspaceId)⟩

instance : TransOrd MeshOriginKey :=
  inferInstanceAs (TransCmp (compareLex (compareOn originNodeId) (compareOn originWorkspaceId)))

instance : LawfulEqOrd MeshOriginKey where
  eq_of_compare {a b} h := by
    have hthen : (compare a.originNodeId b.originNodeId).then
        (compare a.originWorkspaceId b.originWorkspaceId) = .eq := h
    rw [Ordering.then_eq_eq] at hthen
    have hnode := LawfulEqCmp.eq_of_compare hthen.1
    have hworkspace := LawfulEqCmp.eq_of_compare hthen.2
    cases a
    cases b
    simp_all

end MeshOriginKey

/-- `MeshPeerTip`, without the hashes that only the summaries use. -/
structure MeshPeerTip where
  origin : MeshOriginKey
  lastContiguousSeq : ℕ
  seq_le : lastContiguousSeq ≤ u64Max

/-- `MeshPeerCursor`, likewise. -/
structure MeshPeerCursor where
  peerId : String
  origin : MeshOriginKey
  lastDurableSeq : ℕ
  seq_le : lastDurableSeq ≤ u64Max

/-- `MeshRangeKey`. -/
structure MeshRangeKey where
  peerId : String
  origin : MeshOriginKey
  startSeq : ℕ
  endSeq : ℕ
  deriving DecidableEq, Repr

/-- `MeshRangeRetryState`. -/
structure MeshRangeRetryState where
  key : MeshRangeKey
  attempts : ℕ
  nextRetryAfterEpochMs : Option ℕ
  deriving DecidableEq, Repr

/-! ## Plans -/

/-- `MeshRangeRequest`. -/
structure MeshRangeRequest where
  peerId : String
  origin : MeshOriginKey
  startSeq : ℕ
  endSeq : ℕ
  attempt : ℕ
  deriving DecidableEq, Repr

/-- `MeshRangeRequest::key`. -/
def MeshRangeRequest.key (request : MeshRangeRequest) : MeshRangeKey :=
  ⟨request.peerId, request.origin, request.startSeq, request.endSeq⟩

/-- `MeshBlockedRangeReason`. -/
inductive MeshBlockedRangeReason where
  | maxAttemptsExceeded
  | peerPolicyRefused
  | transportUnavailable
  | supervisorBudgetExceeded
  deriving DecidableEq, Repr

/-- `MeshBlockedRange`. -/
structure MeshBlockedRange where
  key : MeshRangeKey
  retryAfter : String
  reason : MeshBlockedRangeReason
  deriving DecidableEq, Repr

/-- `MeshWaitingRange`. -/
structure MeshWaitingRange where
  key : MeshRangeKey
  nextRetryAfterEpochMs : ℕ
  deriving DecidableEq, Repr

/-- `MeshRangePlan`. -/
structure MeshRangePlan where
  requests : List MeshRangeRequest := []
  waitingRanges : List MeshWaitingRange := []
  blockedRanges : List MeshBlockedRange := []
  deriving DecidableEq, Repr

/-- The ranges of a plan, in whichever of its lists they are. -/
def MeshRangePlan.keys (plan : MeshRangePlan) : List MeshRangeKey :=
  plan.requests.map MeshRangeRequest.key ++ plan.waitingRanges.map MeshWaitingRange.key
    ++ plan.blockedRanges.map MeshBlockedRange.key

/-! ## The planner -/

/-- The largest number seen for each origin. -/
def maxByOrigin (entries : List (MeshOriginKey × ℕ)) : ExtTreeMap MeshOriginKey ℕ :=
  entries.foldl (fun byOrigin (origin, seq) =>
    byOrigin.insert origin (match byOrigin[origin]? with
      | some existing => max existing seq
      | none => seq)) ∅

/-- `cursor_map_for_peer`. -/
def cursorMapForPeer (peerId : String) (localCursors : List MeshPeerCursor) :
    ExtTreeMap MeshOriginKey ℕ :=
  maxByOrigin ((localCursors.filter fun cursor => cursor.peerId = peerId).map fun cursor =>
    (cursor.origin, cursor.lastDurableSeq))

/-- The tips of `plan`, by origin. -/
def tipsByOrigin (peerTips : List MeshPeerTip) : ExtTreeMap MeshOriginKey ℕ :=
  maxByOrigin (peerTips.map fun tip => (tip.origin, tip.lastContiguousSeq))

/-- The map `retry_by_key` of `plan`: a later state of a range replaces an earlier one. -/
def retryByKey (retryState : List MeshRangeRetryState) (key : MeshRangeKey) :
    Option MeshRangeRetryState :=
  retryState.reverse.find? fun state => state.key = key

/-- `MeshRangePlanner`, of whose policy `plan` uses the number of attempts. -/
structure MeshRangePlanner where
  maxAttempts : ℕ
  maxEventsPerRange : ℕ
  deriving DecidableEq, Repr

namespace MeshRangePlanner

/-- The body of the loop of `MeshRangePlanner::plan`. -/
def planOrigin (planner : MeshRangePlanner) (peerId : String)
    (localByOrigin : ExtTreeMap MeshOriginKey ℕ) (retryState : List MeshRangeRetryState)
    (nowEpochMs : ℕ) (retryAfterRfc3339 : String) (plan : MeshRangePlan)
    (entry : MeshOriginKey × ℕ) : MeshRangePlan :=
  let (origin, peerTip) := entry
  let localSeq := localByOrigin[origin]?.getD 0
  if peerTip ≤ localSeq then plan
  else
    let maxEvents := max planner.maxEventsPerRange 1
    let startSeq := satAdd64 localSeq 1
    let endSeq := min peerTip (satAdd64 startSeq (maxEvents - 1))
    let key : MeshRangeKey := ⟨peerId, origin, startSeq, endSeq⟩
    let retry := retryByKey retryState key
    let attempts := (retry.map MeshRangeRetryState.attempts).getD 0
    let request : MeshRangePlan := { plan with
      requests := plan.requests ++ [⟨peerId, origin, startSeq, endSeq, satAdd32 attempts 1⟩] }
    if attempts ≥ planner.maxAttempts then
      { plan with
        blockedRanges := plan.blockedRanges ++ [⟨key, retryAfterRfc3339, .maxAttemptsExceeded⟩] }
    else match retry.bind MeshRangeRetryState.nextRetryAfterEpochMs with
      | some nextRetryAfterEpochMs =>
        if nextRetryAfterEpochMs > nowEpochMs then
          { plan with waitingRanges := plan.waitingRanges ++ [⟨key, nextRetryAfterEpochMs⟩] }
        else request
      | none => request

/-- `MeshRangePlanner::plan`. -/
def plan (planner : MeshRangePlanner) (peerId : String) (localCursors : List MeshPeerCursor)
    (peerTips : List MeshPeerTip) (retryState : List MeshRangeRetryState) (nowEpochMs : ℕ)
    (retryAfterRfc3339 : String) : MeshRangePlan :=
  let localByOrigin := cursorMapForPeer peerId localCursors
  (tipsByOrigin peerTips).toList.foldl
    (planner.planOrigin peerId localByOrigin retryState nowEpochMs retryAfterRfc3339) {}

end MeshRangePlanner

/-- `cursor_after_durable_replay`; the loop leaves at `u64::MAX`. -/
def cursorAfterDurableReplay (previousCursor : ℕ) (durableAcceptedSeqs : List ℕ) : ℕ :=
  advanceTo u64Max (fun seq => seq ∈ durableAcceptedSeqs) previousCursor

/-! ## What the maps hold -/

/-- The local cursor for an origin of a peer, as `plan` looks it up. -/
def cursorOf (peerId : String) (localCursors : List MeshPeerCursor) (origin : MeshOriginKey) : ℕ :=
  (cursorMapForPeer peerId localCursors)[origin]?.getD 0

/-- The tip that a peer advertises for an origin. -/
def tipOf (peerTips : List MeshPeerTip) (origin : MeshOriginKey) : ℕ :=
  (tipsByOrigin peerTips)[origin]?.getD 0

theorem maxByOrigin_concat (entries : List (MeshOriginKey × ℕ)) (o : MeshOriginKey) (seq : ℕ) :
    maxByOrigin (entries ++ [(o, seq)]) =
      (maxByOrigin entries).insert o (match (maxByOrigin entries)[o]? with
        | some ex => max ex seq
        | none => seq) := by
  unfold maxByOrigin
  rw [List.foldl_append]
  rfl

/-- The map holds the largest number of each origin. -/
theorem getElem?_maxByOrigin (entries : List (MeshOriginKey × ℕ)) (o : MeshOriginKey) :
    (∀ n, (maxByOrigin entries)[o]? = some n → (o, n) ∈ entries ∧ ∀ m, (o, m) ∈ entries → m ≤ n) ∧
    ((maxByOrigin entries)[o]? = none → ∀ m, (o, m) ∉ entries) := by
  induction entries using List.reverseRecOn with
  | nil =>
    unfold maxByOrigin
    simp
  | append_singleton entries en ih =>
    obtain ⟨other, seq⟩ := en
    rw [maxByOrigin_concat, ExtTreeMap.getElem?_insert_ite]
    simp only [List.mem_append, List.mem_singleton, Prod.mk.injEq]
    by_cases ho : other = o
    · subst ho
      rw [if_pos rfl]
      cases hg : (maxByOrigin entries)[other]? with
      | none =>
        have hn := ih.2 hg
        simp only [hn, false_or, true_and]
        refine ⟨?_, fun h => by cases h⟩
        rintro n ⟨⟩
        exact ⟨rfl, fun m hm => le_of_eq hm⟩
      | some ex =>
        obtain ⟨hme, hma⟩ := ih.1 ex hg
        simp only [true_and]
        refine ⟨?_, fun h => by cases h⟩
        rintro n ⟨⟩
        refine ⟨?_, ?_⟩
        · rcases le_total ex seq with hle | hle
          · exact Or.inr (max_eq_right hle)
          · rw [max_eq_left hle]
            exact Or.inl hme
        · rintro m (hm | rfl)
          · exact le_trans (hma m hm) (le_max_left _ _)
          · exact le_max_right _ _
    · have hne : ¬ o = other := fun h => ho h.symm
      rw [if_neg ho]
      simp only [hne, false_and, or_false]
      exact ih

/-- The map holds the largest number of each origin. -/
theorem getD_maxByOrigin_le_iff {entries : List (MeshOriginKey × ℕ)} {o : MeshOriginKey} {n : ℕ} :
    (maxByOrigin entries)[o]?.getD 0 ≤ n ↔ ∀ m, (o, m) ∈ entries → m ≤ n := by
  obtain ⟨hsome, hnone⟩ := getElem?_maxByOrigin entries o
  cases hg : (maxByOrigin entries)[o]? with
  | none => exact iff_of_true n.zero_le fun m hm => absurd hm (hnone hg m)
  | some k =>
    obtain ⟨hmem, hmax⟩ := hsome k hg
    exact ⟨fun hle m hm => (hmax m hm).trans hle, fun h => h k hmem⟩

/-- The cursor is the largest one of the peer for the origin. -/
theorem cursorOf_le_iff {peerId : String} {localCursors : List MeshPeerCursor} {o : MeshOriginKey}
    {n : ℕ} : cursorOf peerId localCursors o ≤ n ↔ ∀ cursor ∈ localCursors,
      cursor.peerId = peerId → cursor.origin = o → cursor.lastDurableSeq ≤ n := by
  unfold cursorOf cursorMapForPeer
  rw [getD_maxByOrigin_le_iff]
  simp only [List.mem_map, List.mem_filter, decide_eq_true_eq, Prod.mk.injEq]
  constructor
  · exact fun h cursor hc hpeer ho => h _ ⟨cursor, ⟨hc, hpeer⟩, ho, rfl⟩
  · rintro h m ⟨cursor, ⟨hc, hpeer⟩, ho, rfl⟩
    exact h cursor hc hpeer ho

/-- The tip is the largest one that is advertised. -/
theorem tipOf_le_iff {peerTips : List MeshPeerTip} {o : MeshOriginKey} {n : ℕ} :
    tipOf peerTips o ≤ n ↔ ∀ tip ∈ peerTips, tip.origin = o → tip.lastContiguousSeq ≤ n := by
  unfold tipOf tipsByOrigin
  rw [getD_maxByOrigin_le_iff]
  simp only [List.mem_map, Prod.mk.injEq]
  constructor
  · exact fun h tip ht ho => h _ ⟨tip, ht, ho, rfl⟩
  · rintro h m ⟨tip, ht, ho, rfl⟩
    exact h tip ht ho

theorem tipOf_le (peerTips : List MeshPeerTip) (o : MeshOriginKey) : tipOf peerTips o ≤ u64Max :=
  tipOf_le_iff.mpr fun tip _ _ => tip.seq_le

/-- No advertised tip is above the one that `plan` goes by. -/
theorem le_tipOf {peerTips : List MeshPeerTip} {tip : MeshPeerTip} (h : tip ∈ peerTips) :
    tip.lastContiguousSeq ≤ tipOf peerTips tip.origin :=
  tipOf_le_iff.mp le_rfl tip h rfl

/-! ## What a plan holds -/

namespace MeshRangePlanner

/-- How many events a range may ask for. -/
def maxEvents (planner : MeshRangePlanner) : ℕ := max planner.maxEventsPerRange 1

/-- The range that is planned for an origin whose tip is above the cursor. -/
def rangeFor (planner : MeshRangePlanner) (peerId : String) (origin : MeshOriginKey)
    (localSeq peerTip : ℕ) : MeshRangeKey where
  peerId := peerId
  origin := origin
  startSeq := satAdd64 localSeq 1
  endSeq := min peerTip (satAdd64 (satAdd64 localSeq 1) (planner.maxEvents - 1))

variable (planner : MeshRangePlanner) (peerId : String) (localCursors : List MeshPeerCursor)
  (peerTips : List MeshPeerTip) (retryState : List MeshRangeRetryState) (nowEpochMs : ℕ)
  (retryAfterRfc3339 : String)

/-- One origin adds its range to one of the three lists, or none when it is not behind. -/
theorem keys_planOrigin (lbo : ExtTreeMap MeshOriginKey ℕ) (plan : MeshRangePlan)
    (en : MeshOriginKey × ℕ) :
    (planner.planOrigin peerId lbo retryState nowEpochMs retryAfterRfc3339 plan en).keys.Perm
      (plan.keys ++ if en.2 ≤ lbo[en.1]?.getD 0 then []
        else [planner.rangeFor peerId en.1 (lbo[en.1]?.getD 0) en.2]) := by
  obtain ⟨o, pt⟩ := en
  unfold planOrigin
  simp only
  split
  · rw [List.append_nil]
  have hr : ∀ (r : MeshRangeRequest) (key : MeshRangeKey), r.key = key →
      ({ plan with requests := plan.requests ++ [r] } : MeshRangePlan).keys.Perm
        (plan.keys ++ [key]) := by
    rintro r key rfl
    unfold MeshRangePlan.keys
    simp only [List.map_append, List.map_cons, List.map_nil, List.append_assoc]
    refine List.Perm.append_left _ (List.perm_append_comm.trans ?_)
    rw [List.append_assoc]
  split
  · unfold MeshRangePlan.keys
    simp only [List.map_append, List.append_assoc]
    rfl
  · split
    · split
      · unfold MeshRangePlan.keys
        simp only [List.map_append, List.append_assoc]
        exact List.Perm.append_left _ (List.Perm.append_left _ List.perm_append_comm)
      · exact hr _ _ rfl
    · exact hr _ _ rfl

/-- **The ranges of a plan**: one for each origin that is behind. -/
theorem keys_plan :
    (planner.plan peerId localCursors peerTips retryState nowEpochMs retryAfterRfc3339).keys.Perm
      ((tipsByOrigin peerTips).toList.flatMap fun en =>
        if en.2 ≤ cursorOf peerId localCursors en.1 then []
        else [planner.rangeFor peerId en.1 (cursorOf peerId localCursors en.1) en.2]) := by
  unfold plan
  simp only
  generalize (tipsByOrigin peerTips).toList = entries
  have hf : ∀ (entries : List (MeshOriginKey × ℕ)) (start : MeshRangePlan),
      (entries.foldl (planner.planOrigin peerId (cursorMapForPeer peerId localCursors) retryState
        nowEpochMs retryAfterRfc3339) start).keys.Perm
      (start.keys ++ entries.flatMap fun en => if en.2 ≤ cursorOf peerId localCursors en.1 then []
        else [planner.rangeFor peerId en.1 (cursorOf peerId localCursors en.1) en.2]) := by
    intro entries
    induction entries with
    | nil =>
      intro start
      simp
    | cons en entries ih =>
      intro start
      rw [List.foldl_cons, List.flatMap_cons, ← List.append_assoc]
      refine (ih _).trans (List.Perm.append_right _ ?_)
      exact keys_planOrigin planner peerId retryState nowEpochMs retryAfterRfc3339 _ start en
  exact hf entries {}

/-- Of the advertised entries, one of an origin is above its cursor when its tip is. -/
theorem countP_behind (c : ℕ) (o : MeshOriginKey) :
    (tipsByOrigin peerTips).toList.countP (fun en => en.1 = o ∧ c < en.2)
      = if c < tipOf peerTips o then 1 else 0 := by
  have ht : ∀ en ∈ (tipsByOrigin peerTips).toList, en.1 = o →
      (tipsByOrigin peerTips)[o]? = some en.2 := by
    rintro ⟨other, tip⟩ hm rfl
    exact ExtTreeMap.mem_toList_iff_getElem?_eq_some.mp hm
  split
  · rename_i hlt
    have he : (tipsByOrigin peerTips)[o]? = some (tipOf peerTips o) := by
      unfold tipOf at hlt ⊢
      cases hg : (tipsByOrigin peerTips)[o]? with
      | none =>
        rw [hg] at hlt
        exact absurd hlt (Nat.not_lt_zero _)
      | some tip => rfl
    have hno : (tipsByOrigin peerTips).toList.Nodup :=
      ExtTreeMap.distinct_keys_toList.imp fun hne heq => hne (by
        rw [heq]
        exact Std.ReflCmp.compare_self)
    have hm := ExtTreeMap.mem_toList_iff_getElem?_eq_some.mpr he
    rw [← List.count_eq_one_of_mem hno hm, List.count]
    refine List.countP_congr fun en hin => ?_
    simp only [decide_eq_true_eq, beq_iff_eq]
    constructor
    · rintro ⟨ho, -⟩
      have hs := ht en hin ho
      rw [he] at hs
      exact Prod.ext ho (Option.some_injective _ hs).symm
    · rintro rfl
      exact ⟨rfl, hlt⟩
  · rename_i hn
    rw [List.countP_eq_zero]
    intro en hin
    simp only [decide_eq_true_eq, not_and]
    intro ho
    have hs := ht en hin ho
    unfold tipOf at hn
    rw [hs] at hn
    exact hn

/-- An origin is planned once when its tip is above the cursor, and else not at all. -/
theorem countP_keys_plan (o : MeshOriginKey) :
    (planner.plan peerId localCursors peerTips retryState nowEpochMs
        retryAfterRfc3339).keys.countP (fun key => key.origin = o)
      = if cursorOf peerId localCursors o < tipOf peerTips o then 1 else 0 := by
  rw [(keys_plan ..).countP_eq, ← countP_behind]
  induction (tipsByOrigin peerTips).toList with
  | nil => rfl
  | cons en entries ih =>
    rw [List.flatMap_cons, List.countP_append, ih, List.countP_cons, Nat.add_comm]
    congr 1
    by_cases ho : en.1 = o
    · subst ho
      by_cases hle : en.2 ≤ cursorOf peerId localCursors en.1
      · simp [hle, Nat.not_lt.mpr hle]
      · simp [hle, Nat.lt_of_not_le hle, rangeFor]
    · by_cases hle : en.2 ≤ cursorOf peerId localCursors en.1
      · simp [hle, ho]
      · simp [hle, ho, rangeFor]

/-- A planned range starts right after the cursor and ends at the tip or at the limit. -/
theorem mem_keys_plan {key : MeshRangeKey}
    (h : key ∈ (planner.plan peerId localCursors peerTips retryState nowEpochMs
      retryAfterRfc3339).keys) :
    key.peerId = peerId ∧ cursorOf peerId localCursors key.origin < tipOf peerTips key.origin ∧
      key.startSeq = cursorOf peerId localCursors key.origin + 1 ∧
      key.endSeq = min (tipOf peerTips key.origin)
        (cursorOf peerId localCursors key.origin + planner.maxEvents) := by
  rw [(keys_plan ..).mem_iff, List.mem_flatMap] at h
  obtain ⟨⟨o, tip⟩, hm, hk⟩ := h
  have ht : tip = tipOf peerTips o := by
    unfold tipOf
    rw [ExtTreeMap.mem_toList_iff_getElem?_eq_some.mp hm]
    rfl
  subst ht
  simp only at hk
  split at hk
  · cases hk
  · rename_i hn
    rw [List.mem_singleton] at hk
    subst hk
    have hc := tipOf_le peerTips o
    have hp : 1 ≤ planner.maxEvents := le_max_right _ _
    have hs : satAdd64 (cursorOf peerId localCursors o) 1 = cursorOf peerId localCursors o + 1 := by
      unfold satAdd64
      omega
    unfold rangeFor
    simp only [hs, true_and]
    refine ⟨by omega, ?_⟩
    unfold satAdd64
    omega

end MeshRangePlanner

/-! ## Rounds -/

/-- A round with a peer: a plan in which nothing waits or is blocked, and a durable replay
of every range it asks for.  More may have been accepted before, and the cursors of
origins that are not asked for stay. -/
structure Round (planner : MeshRangePlanner) (peerId : String) (peerTips : List MeshPeerTip)
    (before after : List MeshPeerCursor) where
  retryState : List MeshRangeRetryState
  nowEpochMs : ℕ
  retryAfterRfc3339 : String
  durable : MeshOriginKey → List ℕ
  waiting_eq : (planner.plan peerId before peerTips retryState nowEpochMs
    retryAfterRfc3339).waitingRanges = []
  blocked_eq : (planner.plan peerId before peerTips retryState nowEpochMs
    retryAfterRfc3339).blockedRanges = []
  replayed : ∀ request ∈ (planner.plan peerId before peerTips retryState nowEpochMs
      retryAfterRfc3339).requests, ∀ seq, request.startSeq ≤ seq → seq ≤ request.endSeq →
    seq ∈ durable request.origin
  cursor_eq : ∀ request ∈ (planner.plan peerId before peerTips retryState nowEpochMs
      retryAfterRfc3339).requests, cursorOf peerId after request.origin
    = cursorAfterDurableReplay (cursorOf peerId before request.origin) (durable request.origin)
  cursor_same : ∀ origin, (∀ request ∈ (planner.plan peerId before peerTips retryState nowEpochMs
      retryAfterRfc3339).requests, request.origin ≠ origin) →
    cursorOf peerId after origin = cursorOf peerId before origin

/-- Some number of rounds, one after the other, while the peer's tips stay. -/
inductive Rounds (planner : MeshRangePlanner) (peerId : String) (peerTips : List MeshPeerTip) :
    ℕ → List MeshPeerCursor → List MeshPeerCursor → Prop where
  | nil (cursors : List MeshPeerCursor) : Rounds planner peerId peerTips 0 cursors cursors
  | cons {n : ℕ} {before mid after : List MeshPeerCursor}
      (round : Round planner peerId peerTips before mid)
      (rest : Rounds planner peerId peerTips n mid after) :
      Rounds planner peerId peerTips (n + 1) before after

variable {planner : MeshRangePlanner} {peerId : String} {peerTips : List MeshPeerTip}

/-- A plan with nothing waiting or blocked asks for every origin that is behind. -/
theorem exists_request {localCursors : List MeshPeerCursor}
    {retryState : List MeshRangeRetryState} {nowEpochMs : ℕ} {retryAfterRfc3339 : String}
    {o : MeshOriginKey}
    (hw : (planner.plan peerId localCursors peerTips retryState nowEpochMs
      retryAfterRfc3339).waitingRanges = [])
    (hb : (planner.plan peerId localCursors peerTips retryState nowEpochMs
      retryAfterRfc3339).blockedRanges = [])
    (hbe : cursorOf peerId localCursors o < tipOf peerTips o) :
    ∃ r ∈ (planner.plan peerId localCursors peerTips retryState nowEpochMs
      retryAfterRfc3339).requests, r.origin = o := by
  have hc := planner.countP_keys_plan peerId localCursors peerTips retryState nowEpochMs
    retryAfterRfc3339 o
  rw [if_pos hbe] at hc
  unfold MeshRangePlan.keys at hc
  rw [hw, hb] at hc
  simp only [List.map_nil, List.append_nil] at hc
  have hp : 0 < ((planner.plan peerId localCursors peerTips retryState nowEpochMs
      retryAfterRfc3339).requests.map MeshRangeRequest.key).countP
      fun key => key.origin = o := by omega
  obtain ⟨key, hk, ho⟩ := List.countP_pos_iff.mp hp
  obtain ⟨r, hr, rfl⟩ := List.mem_map.mp hk
  exact ⟨r, hr, of_decide_eq_true ho⟩

theorem MeshRangeRequest.key_mem_keys {plan : MeshRangePlan} {r : MeshRangeRequest}
    (h : r ∈ plan.requests) : r.key ∈ plan.keys := by
  unfold MeshRangePlan.keys
  rw [List.append_assoc, List.mem_append]
  exact Or.inl (List.mem_map.mpr ⟨r, h, rfl⟩)

/-- **One round** brings every cursor a full range closer to its tip, or to it. -/
theorem Round.cursor_ge {b after : List MeshPeerCursor}
    (round : Round planner peerId peerTips b after) (o : MeshOriginKey) :
    min (tipOf peerTips o) (cursorOf peerId b o + planner.maxEvents) ≤ cursorOf peerId after o := by
  by_cases hb : cursorOf peerId b o < tipOf peerTips o
  · obtain ⟨r, hr, rfl⟩ := exists_request round.waiting_eq round.blocked_eq hb
    obtain ⟨-, -, hs, he⟩ := MeshRangePlanner.mem_keys_plan (h := r.key_mem_keys hr)
    change r.startSeq = cursorOf peerId b r.origin + 1 at hs
    change r.endSeq = min (tipOf peerTips r.origin)
      (cursorOf peerId b r.origin + planner.maxEvents) at he
    rw [round.cursor_eq r hr]
    have hc := tipOf_le peerTips r.origin
    unfold cursorAfterDurableReplay
    refine le_advanceTo_of_filled (by omega) fun seq hlt hle => ?_
    rw [decide_eq_true_eq]
    refine round.replayed r hr seq (by omega) ?_
    rw [he]
    exact hle
  · have hn : ∀ r ∈ (planner.plan peerId b peerTips round.retryState
        round.nowEpochMs round.retryAfterRfc3339).requests, r.origin ≠ o := by
      rintro r hr rfl
      exact hb (MeshRangePlanner.mem_keys_plan (h := r.key_mem_keys hr)).2.1
    rw [round.cursor_same o hn]
    omega

/-- Where a round takes the cursor of an origin. -/
def roundTarget (planner : MeshRangePlanner) (peerId : String) (localCursors : List MeshPeerCursor)
    (peerTips : List MeshPeerTip) (origin : MeshOriginKey) : ℕ :=
  min (tipOf peerTips origin) (cursorOf peerId localCursors origin + planner.maxEvents)

/-- The cursors with those that a round adds. -/
def cursorsAfterRound (planner : MeshRangePlanner) (peerId : String)
    (localCursors : List MeshPeerCursor) (peerTips : List MeshPeerTip) : List MeshPeerCursor :=
  localCursors ++ peerTips.map fun tip =>
    ⟨peerId, tip.origin, roundTarget planner peerId localCursors peerTips tip.origin,
      (min_le_left _ _).trans (tipOf_le _ _)⟩

/-- A round takes every cursor to its target. -/
theorem cursorOf_cursorsAfterRound (localCursors : List MeshPeerCursor) (o : MeshOriginKey) :
    cursorOf peerId (cursorsAfterRound planner peerId localCursors peerTips) o
      = max (cursorOf peerId localCursors o)
        (roundTarget planner peerId localCursors peerTips o) := by
  refine eq_of_forall_ge_iff fun n => ?_
  rw [max_le_iff, cursorOf_le_iff, cursorOf_le_iff, cursorsAfterRound]
  simp only [List.forall_mem_append, List.forall_mem_map, true_implies]
  refine and_congr_right fun _ => ⟨fun h => ?_, ?_⟩
  · by_cases htip : ∃ tip ∈ peerTips, tip.origin = o
    · obtain ⟨tip, ht, rfl⟩ := htip
      exact h tip ht rfl
    · -- an origin without a tip has nothing to reach
      have hzero : tipOf peerTips o ≤ 0 :=
        tipOf_le_iff.mpr fun tip ht ho => absurd ⟨tip, ht, ho⟩ htip
      exact (min_le_left _ _).trans (hzero.trans n.zero_le)
  · rintro h tip - rfl
    exact h

/-- **A round exists whenever nothing waits and nothing is blocked**: the peer delivers the
ranges that the plan asks for. -/
def Round.ofPlan {localCursors : List MeshPeerCursor} {retryState : List MeshRangeRetryState}
    {nowEpochMs : ℕ} {retryAfterRfc3339 : String}
    (hwaiting : (planner.plan peerId localCursors peerTips retryState nowEpochMs
      retryAfterRfc3339).waitingRanges = [])
    (hblocked : (planner.plan peerId localCursors peerTips retryState nowEpochMs
      retryAfterRfc3339).blockedRanges = []) :
    Round planner peerId peerTips localCursors
      (cursorsAfterRound planner peerId localCursors peerTips) where
  retryState := retryState
  nowEpochMs := nowEpochMs
  retryAfterRfc3339 := retryAfterRfc3339
  durable origin := List.range (roundTarget planner peerId localCursors peerTips origin + 1)
  waiting_eq := hwaiting
  blocked_eq := hblocked
  replayed r hr seq _ hle := by
    have hend := (MeshRangePlanner.mem_keys_plan (h := r.key_mem_keys hr)).2.2.2
    exact List.mem_range.mpr (Nat.lt_succ_of_le (hle.trans_eq hend))
  cursor_eq r hr := by
    have hbehind := (MeshRangePlanner.mem_keys_plan (h := r.key_mem_keys hr)).2.1
    change cursorOf peerId localCursors r.origin < tipOf peerTips r.origin at hbehind
    have hle : cursorOf peerId localCursors r.origin
        ≤ roundTarget planner peerId localCursors peerTips r.origin :=
      le_min hbehind.le (Nat.le_add_right _ _)
    rw [cursorOf_cursorsAfterRound, max_eq_right hle]
    refine IsFrontier.unique ⟨hle, ?_, ?_, ?_⟩ (advanceTo_isFrontier _ _ _)
    · exact ((min_le_left _ _).trans (tipOf_le _ _)).trans (le_max_right _ _)
    · exact fun k _ hk => decide_eq_true (List.mem_range.mpr (Nat.lt_succ_of_le hk))
    · exact fun _ => decide_eq_false fun hmem => Nat.lt_irrefl _ (List.mem_range.mp hmem)
  cursor_same o hnone := by
    have hnot : ¬ cursorOf peerId localCursors o < tipOf peerTips o := fun hbehind => by
      obtain ⟨r, hr, ho⟩ := exists_request hwaiting hblocked hbehind
      exact hnone r hr ho
    rw [cursorOf_cursorsAfterRound]
    exact max_eq_left ((min_le_left _ _).trans (Nat.le_of_not_lt hnot))

/-- Any number of rounds. -/
theorem Rounds.cursor_ge {n : ℕ} {b after : List MeshPeerCursor}
    (rs : Rounds planner peerId peerTips n b after) (o : MeshOriginKey) :
    min (tipOf peerTips o) (cursorOf peerId b o + n * planner.maxEvents)
      ≤ cursorOf peerId after o := by
  induction rs with
  | nil => omega
  | cons round r ih =>
    have hr := round.cursor_ge o
    rw [Nat.succ_mul]
    omega

/-- The number of full ranges that the origin furthest behind still needs. -/
def roundsNeeded (planner : MeshRangePlanner) (peerId : String) (localCursors : List MeshPeerCursor)
    (peerTips : List MeshPeerTip) : ℕ :=
  (peerTips.map fun tip =>
    (tipOf peerTips tip.origin - cursorOf peerId localCursors tip.origin + planner.maxEvents - 1)
      / planner.maxEvents).foldr max 0

/-- **The planner covers every gap and terminates.**  An origin whose tip is above the
cursor is in exactly one of the three lists of a plan, once, and no other origin is.  A
request starts right after the cursor, does not pass the tip and asks for at least one
and at most `max 1 limit` events.  Rounds in which nothing waits or is blocked reach
every advertised tip, as many of them as the largest gap has full ranges. -/
theorem plan_covers_and_terminates (planner : MeshRangePlanner) (peerId : String)
    (localCursors : List MeshPeerCursor) (peerTips : List MeshPeerTip)
    (retryState : List MeshRangeRetryState) (nowEpochMs : ℕ) (retryAfterRfc3339 : String) :
    let plan := planner.plan peerId localCursors peerTips retryState nowEpochMs retryAfterRfc3339
    (∀ origin, plan.requests.countP (fun request => request.origin = origin)
        + plan.waitingRanges.countP (fun range => range.key.origin = origin)
        + plan.blockedRanges.countP (fun range => range.key.origin = origin)
      = if cursorOf peerId localCursors origin < tipOf peerTips origin then 1 else 0) ∧
    (∀ request ∈ plan.requests, request.peerId = peerId ∧
      request.startSeq = cursorOf peerId localCursors request.origin + 1 ∧
      request.endSeq ≤ tipOf peerTips request.origin ∧ request.startSeq ≤ request.endSeq ∧
      request.endSeq + 1 - request.startSeq ≤ max 1 planner.maxEventsPerRange) ∧
    ∀ n after, roundsNeeded planner peerId localCursors peerTips ≤ n →
      Rounds planner peerId peerTips n localCursors after →
      ∀ tip ∈ peerTips, tip.lastContiguousSeq ≤ cursorOf peerId after tip.origin := by
  intro plan
  refine ⟨?_, ?_, ?_⟩
  · intro origin
    have hc := planner.countP_keys_plan peerId localCursors peerTips retryState nowEpochMs
      retryAfterRfc3339 origin
    unfold MeshRangePlan.keys at hc
    rw [List.countP_append, List.countP_append, List.countP_map, List.countP_map,
      List.countP_map] at hc
    exact hc
  · intro request hr
    obtain ⟨hpe, hb, hs, he⟩ := MeshRangePlanner.mem_keys_plan (h := request.key_mem_keys hr)
    change request.startSeq = cursorOf peerId localCursors request.origin + 1 at hs
    change request.endSeq = min (tipOf peerTips request.origin)
      (cursorOf peerId localCursors request.origin + planner.maxEvents) at he
    change cursorOf peerId localCursors request.origin < tipOf peerTips request.origin at hb
    have hp : 1 ≤ planner.maxEvents := le_max_right _ _
    have hm : planner.maxEvents = max 1 planner.maxEventsPerRange := max_comm _ _
    exact ⟨hpe, hs, by omega, by omega, by omega⟩
  · intro n after hn rounds tip ht
    have hge := rounds.cursor_ge tip.origin
    have hle := le_tipOf ht
    have hp : 0 < planner.maxEvents := lt_of_lt_of_le Nat.one_pos (le_max_right _ _)
    have hne : (tipOf peerTips tip.origin - cursorOf peerId localCursors tip.origin
        + planner.maxEvents - 1) / planner.maxEvents ≤ n :=
      le_trans (List.le_max_of_le (List.mem_map.mpr ⟨tip, ht, rfl⟩) le_rfl) hn
    -- the gap fits into `n` full ranges
    have hg : tipOf peerTips tip.origin - cursorOf peerId localCursors tip.origin
        ≤ n * planner.maxEvents := by
      rw [Nat.div_le_iff_le_mul_add_pred hp] at hne
      rw [Nat.mul_comm]
      omega
    omega

/-- The cursor that a single entry gives. -/
theorem cursorOf_singleton (peerId : String) (o other : MeshOriginKey) (seq : ℕ)
    (hs : seq ≤ u64Max) :
    cursorOf peerId [⟨peerId, o, seq, hs⟩] other = if o = other then seq else 0 := by
  refine eq_of_forall_ge_iff fun n => ?_
  rw [cursorOf_le_iff]
  simp only [List.mem_singleton, forall_eq, true_implies]
  split <;> simp [*]

/-- A planner with two events to a range and a peer that is three events ahead. -/
def samplePlanner : MeshRangePlanner := ⟨5, 2⟩

/-- See `samplePlanner`. -/
def sampleTips : List MeshPeerTip := [⟨⟨"a", none⟩, 3, by decide⟩]

/-- See `samplePlanner`. -/
def sampleCursors (seq : ℕ) (hseq : seq ≤ u64Max) : List MeshPeerCursor :=
  [⟨"p", ⟨"a", none⟩, seq, hseq⟩]

/-- A round of the sample planner that replays the events up to the second number. -/
def sampleRound {seq seq' : ℕ} (hseq : seq ≤ u64Max) (hseq' : seq' ≤ u64Max)
    (hplan : samplePlanner.plan "p" (sampleCursors seq hseq) sampleTips [] 0 ""
      = { requests := [⟨"p", ⟨"a", none⟩, seq + 1, seq', 1⟩] })
    (hreplay : cursorAfterDurableReplay seq (List.range (seq' + 1)) = seq') :
    Round samplePlanner "p" sampleTips (sampleCursors seq hseq) (sampleCursors seq' hseq') where
  retryState := []
  nowEpochMs := 0
  retryAfterRfc3339 := ""
  durable := fun _ => List.range (seq' + 1)
  waiting_eq := by rw [hplan]
  blocked_eq := by rw [hplan]
  replayed := by
    rw [hplan]
    simp only [List.mem_singleton, forall_eq, List.mem_range]
    omega
  cursor_eq := by
    rw [hplan]
    simp only [List.mem_singleton, forall_eq]
    unfold sampleCursors
    rw [cursorOf_singleton, cursorOf_singleton, if_pos rfl, if_pos rfl, hreplay]
  cursor_same := by
    rw [hplan]
    simp only [List.mem_singleton, forall_eq]
    intro origin hne
    unfold sampleCursors
    rw [cursorOf_singleton, cursorOf_singleton, if_neg hne, if_neg hne]

/-- Two rounds bring the three events. -/
theorem samplePlanner_reaches_tip :
    3 ≤ cursorOf "p" (sampleCursors 3 (by decide)) ⟨"a", none⟩ := by
  have rs : Rounds samplePlanner "p" sampleTips 2 (sampleCursors 0 (by decide))
      (sampleCursors 3 (by decide)) :=
    .cons (@sampleRound 0 2 (by decide) (by decide) (by decide +kernel) (by decide +kernel))
      (.cons (sampleRound _ _ (by decide +kernel) (by decide +kernel)) (.nil _))
  have h := (plan_covers_and_terminates samplePlanner "p" (sampleCursors 0 (by decide)) sampleTips
    [] 0 "").2.2 2 _ (by decide +kernel) rs
  exact h ⟨⟨"a", none⟩, 3, by decide⟩ (List.mem_singleton.mpr rfl)

end AntiEntropyProtocol
