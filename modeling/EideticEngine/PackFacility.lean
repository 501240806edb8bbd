/-
# Facility-location assembly (`src/pack/mod.rs`)

The selector of the submodular profile.  A lazy priority queue holds an entry per
candidate with its marginal gain at some earlier generation; an entry of the
current generation is the choice, a stale one is refreshed and pushed back.  With
compressed level-of-detail tiers the queue is not used and every round scans all
candidates.  The chosen candidate leaves its profile, whose signature and weight
keep counting for coverage.

The loop continues only after it took a candidate out of an active profile, which
needs the invariant that a profile is active exactly as long as it holds its
candidate (`FacilityState.Consistent`).
-/
import EideticEngine.BoundedLoop
import EideticEngine.ExceptRules
import EideticEngine.ScanBest
import EideticEngine.PackLedger

namespace Pack

open StableSort (sortBy sortBy_perm)

variable {F : Type}

/-! ## Profiles and similarities -/

/-- `FacilityCandidateProfile`. -/
structure FacilityCandidateProfile (F : Type) where
  candidate : Option (PackCandidate F)
  signature : CandidateSignature
  weight : F
  redactions : List PackItemRedaction

section Selection

variable [F32 F]

/-- `facility_candidate_weight`: 0.70 relevance and 0.30 utility. -/
def facilityCandidateWeight (candidate : PackCandidate F) : F :=
  F32.add (F32.mul (F32.lit (70 / 100)) candidate.relevance)
    (F32.mul (F32.lit (30 / 100)) candidate.utility)

/-- `FacilityCandidateProfile::from_candidate`. -/
def FacilityCandidateProfile.fromCandidate (env : PackEnv F) (outputRedactionEnabled : Bool)
    (candidate : PackCandidate F) : FacilityCandidateProfile F :=
  let (candidate, redactions) := prepareCandidate env candidate outputRedactionEnabled
  { candidate := some candidate
    signature := .ofCandidate candidate
    weight := facilityCandidateWeight candidate
    redactions := redactions }

/-- `FacilitySimilarityCache`: a dense matrix in row order, or the signatures when
the matrix was not built. -/
structure FacilitySimilarityCache (F : Type) where
  width : ℕ
  values : List F
  fallbackSignatures : List CandidateSignature

namespace FacilitySimilarityCache

/-- `FacilitySimilarityCache::dense_cell_count`. -/
def denseCellCount (width maxBytes : ℕ) : Option ℕ :=
  let cells := width * width
  let bytes := cells * 4
  if cells ≤ u64Max ∧ bytes ≤ u64Max ∧ bytes ≤ maxBytes then some cells else none

/-- The similarity of two profiles, with the operands in index order. -/
def orderedSimilarity (env : PackEnv F) (signatures : List CandidateSignature)
    (left right : ℕ) : F :=
  if left = right then F32.lit 1
  else
    match signatures[min left right]?, signatures[max left right]? with
    | some a, some b => env.facilitySignatureSimilarity a b
    | _, _ => F32.lit 0

/-- `FacilitySimilarityCache::new`; `reserved` is whether the matrix could be
allocated. -/
def new (env : PackEnv F) (profiles : List (FacilityCandidateProfile F)) (reserved : Bool) :
    FacilitySimilarityCache F :=
  let width := profiles.length
  let signatures := profiles.map (·.signature)
  match denseCellCount width (16 * 1024 * 1024), reserved with
  | some cells, true =>
    { width := width
      values := (List.range cells).map fun k =>
        orderedSimilarity env signatures (k / width) (k % width)
      fallbackSignatures := [] }
  | _, _ => { width := width, values := [], fallbackSignatures := signatures }

/-- `FacilitySimilarityCache::similarity`. -/
def similarity (env : PackEnv F) (cache : FacilitySimilarityCache F)
    (profileIndex selectedIndex : ℕ) : F :=
  if profileIndex ≥ cache.width ∨ selectedIndex ≥ cache.width then F32.lit 0
  else if cache.values ≠ [] then
    cache.values.getD (profileIndex * cache.width + selectedIndex) (F32.lit 0)
  else orderedSimilarity env cache.fallbackSignatures profileIndex selectedIndex

/-- A cached entry is the similarity of the two profiles. -/
theorem similarity_new (env : PackEnv F) (profiles : List (FacilityCandidateProfile F))
    (reserved : Bool) {i j : ℕ} (hi : i < profiles.length) (hj : j < profiles.length) :
    (new env profiles reserved).similarity env i j
      = orderedSimilarity env (profiles.map (·.signature)) i j := by
  have hrange : ¬ (i ≥ profiles.length ∨ j ≥ profiles.length) := by omega
  have hfallback : similarity env
      { width := profiles.length, values := [],
        fallbackSignatures := profiles.map (·.signature) } i j
        = orderedSimilarity env (profiles.map (·.signature)) i j := by
    simp [similarity, hrange]
  unfold new
  simp only
  split
  · rename_i cells hcells
    have hcells' : cells = profiles.length * profiles.length := by
      simp only [denseCellCount, Option.ite_none_right_eq_some, Option.some.injEq] at hcells
      exact hcells.2.symm
    have hlt : i * profiles.length + j < cells := by
      rw [hcells']
      calc i * profiles.length + j < i * profiles.length + profiles.length := by omega
        _ = (i + 1) * profiles.length := by ring
        _ ≤ profiles.length * profiles.length := Nat.mul_le_mul_right _ hi
    have hpos : 0 < profiles.length := by omega
    have hdiv : (i * profiles.length + j) / profiles.length = i := by
      rw [Nat.mul_comm, Nat.mul_add_div hpos, Nat.div_eq_of_lt hj, Nat.add_zero]
    have hmod : (i * profiles.length + j) % profiles.length = j := by
      rw [Nat.mul_comm, Nat.mul_add_mod, Nat.mod_eq_of_lt hj]
    have hne : cells ≠ 0 := by omega
    simp [similarity, hrange, hne, hlt, hdiv, hmod]
  · exact hfallback

/-- The matrix and the fallback answer alike, also outside the matrix. -/
theorem similarity_new_reserved (env : PackEnv F) (ps : List (FacilityCandidateProfile F))
    (reserved r' : Bool) :
    (new env ps reserved).similarity env = (new env ps r').similarity env := by
  have hw : ∀ b, (new env ps b).width = ps.length := by
    intro b
    unfold new
    simp only
    split <;> rfl
  funext i j
  by_cases h : i < ps.length ∧ j < ps.length
  · rw [similarity_new env ps reserved h.1 h.2, similarity_new env ps r' h.1 h.2]
  · have ho : i ≥ ps.length ∨ j ≥ ps.length := by omega
    simp [similarity, hw, ho]

end FacilitySimilarityCache

/-- The inputs of one facility-location assembly, with the lookup
`similarity_cache.similarity(..)` in the cache that was built from them. -/
structure FacilityContext (F : Type) extends AssemblyContext F where
  similarity : ℕ → ℕ → F

/-- `facility_marginal_gain_cached`. -/
def facilityMarginalGainCached (fctx : FacilityContext F) (profileIndex : ℕ)
    (profiles : List (FacilityCandidateProfile F)) (currentCoverages : List F) : F :=
  F32.sum ((profiles.zip currentCoverages).zipIdx.map
    fun ((profile, currentCoverage), i) =>
      let candidateSim := fctx.similarity profileIndex i
      let newCoverage := F32.max currentCoverage candidateSim
      let gain := F32.sub newCoverage currentCoverage
      F32.mul profile.weight gain)

/-- The coverages after `update_facility_coverages_cached`. -/
def updateFacilityCoveragesCached (fctx : FacilityContext F)
    (profiles : List (FacilityCandidateProfile F)) (currentCoverages : List F)
    (selectedIndex : ℕ) : List F :=
  (profiles.zip currentCoverages).zipIdx.map (fun ((_, currentCoverage), i) =>
      F32.max currentCoverage (fctx.similarity selectedIndex i))
    ++ currentCoverages.drop profiles.length

/-- The objective value that `update_facility_coverages_cached` returns, from the
updated coverages. -/
def facilityObjectiveValue (profiles : List (FacilityCandidateProfile F))
    (updatedCoverages : List F) : F :=
  (profiles.zip updatedCoverages).foldl
    (fun total (profile, coverage) => F32.add total (F32.mul profile.weight coverage)) (F32.lit 0)

/-! ## The lazy queue -/

/-- `FacilityQueueEntry`. -/
structure FacilityQueueEntry (F : Type) where
  profileIndex : ℕ
  marginalGain : F
  gainRatio : F
  generation : ℕ

/-- `Ord::cmp` of queue entries. -/
def FacilityQueueEntry.cmp (a b : FacilityQueueEntry F) : Ordering :=
  (F32.totalCmp a.gainRatio b.gainRatio).then
    ((F32.totalCmp a.marginalGain b.marginalGain).then
      ((compare b.profileIndex a.profileIndex).then (compare a.generation b.generation)))

/-- `FacilitySelectionQueue`, with the binary heap as the list of its entries. -/
structure FacilitySelectionQueue (F : Type) where
  heap : List (FacilityQueueEntry F)
  generation : ℕ

/-- `facility_queue_entry`. -/
def facilityQueueEntry (fctx : FacilityContext F) (profileIndex : ℕ)
    (profiles : List (FacilityCandidateProfile F)) (currentCoverages : List F)
    (generation : ℕ) : Option (FacilityQueueEntry F) :=
  match profiles[profileIndex]? with
  | none => none
  | some profile =>
    match profile.candidate with
    | none => none
    | some candidate =>
      if candidate.estimatedTokens = 0 then none
      else
        let marginalGain := facilityMarginalGainCached fctx profileIndex profiles currentCoverages
        some
          { profileIndex := profileIndex
            marginalGain := marginalGain
            gainRatio := F32.div marginalGain (F32.castNat candidate.estimatedTokens)
            generation := generation }

/-- `BinaryHeap::pop`: a greatest entry and the rest. -/
def popHeap (heap : List (FacilityQueueEntry F)) :
    Option (FacilityQueueEntry F × List (FacilityQueueEntry F)) :=
  (heap.scanBest (fun _ _ => true) fun (_, entry) (_, best) => entry.cmp best == .gt).map
    fun (i, entry) => (entry, heap.eraseIdx i)

/-- What `select` reads besides its own heap. -/
structure FacilityView (F : Type) where
  profiles : List (FacilityCandidateProfile F)
  currentCoverages : List F
  ledger : Ledger F

/-- The candidate that a profile still holds. -/
def heldCandidate (profiles : List (FacilityCandidateProfile F)) (i : ℕ) :
    Option (PackCandidate F) :=
  profiles[i]?.bind (·.candidate)

/-- One round of `while let Some(entry) = self.heap.pop()`. -/
def queueRound (fctx : FacilityContext F) (view : FacilityView F) (generation : ℕ)
    (heap : List (FacilityQueueEntry F)) :
    List (FacilityQueueEntry F) ⊕ (Option (ℕ × F) × List (FacilityQueueEntry F)) :=
  match popHeap heap with
  | none => .inr (none, [])
  | some (entry, heap) =>
    match heldCandidate view.profiles entry.profileIndex with
    | none => .inl heap
    | some candidate =>
      if (view.ledger.plan fctx.toAssemblyContext candidate).isNone then .inl heap
      else if entry.generation = generation then
        .inr (some (entry.profileIndex, entry.marginalGain), heap)
      else
        match facilityQueueEntry fctx entry.profileIndex view.profiles view.currentCoverages
            generation with
        | none => .inl heap
        | some refreshed => .inl (refreshed :: heap)

/-- A stale entry may be refreshed once more in this generation, a current one
may not. -/
def queueWeight (generation : ℕ) (heap : List (FacilityQueueEntry F)) : ℕ :=
  (heap.map fun entry => if entry.generation = generation then 1 else 2).sum

/-- A popped entry and the rest are the heap. -/
theorem perm_of_popHeap {he r : List (FacilityQueueEntry F)} {en : FacilityQueueEntry F}
    (h : popHeap he = some (en, r)) : he.Perm (en :: r) := by
  simp only [popHeap, Option.map_eq_some_iff] at h
  obtain ⟨⟨i, e⟩, hs, heq⟩ := h
  cases heq
  obtain ⟨hlt, rfl⟩ := List.getElem?_eq_some_iff.mp (List.scanBest_eq_some hs).1
  exact (List.getElem_cons_eraseIdx_perm hlt).symm

/-- Every continuing round makes the heap lighter. -/
theorem queueWeight_queueRound {fctx : FacilityContext F} {view : FacilityView F}
    {g : ℕ} {he h' : List (FacilityQueueEntry F)}
    (h : queueRound fctx view g he = .inl h') :
    queueWeight g h' < queueWeight g he := by
  unfold queueRound at h
  split at h
  · cases h
  · rename_i en re hp
    have hw : queueWeight g he = (if en.generation = g then 1 else 2) + queueWeight g re := by
      unfold queueWeight
      rw [((perm_of_popHeap hp).map _).sum_eq, List.map_cons, List.sum_cons]
    split at h
    · cases h
      split at hw <;> omega
    · split at h
      · cases h
        split at hw <;> omega
      · split at h
        · cases h
        · rename_i hs
          rw [if_neg hs] at hw
          split at h
          · cases h
            omega
          · rename_i r hr
            cases h
            have hg : r.generation = g := by
              unfold facilityQueueEntry at hr
              split at hr
              · cases hr
              · split at hr
                · cases hr
                · split at hr
                  · cases hr
                  · cases hr; rfl
            have hc : queueWeight g (r :: re) = 1 + queueWeight g re := by
              simp [queueWeight, hg]
            omega

/-- The pop loop of `FacilitySelectionQueue::select`. -/
def queueLoop (fctx : FacilityContext F) (view : FacilityView F) (generation : ℕ) :
    Loop (List (FacilityQueueEntry F)) (Option (ℕ × F) × List (FacilityQueueEntry F)) where
  step := queueRound fctx view generation
  Inv _ := True
  measure := queueWeight generation
  inv_step _ _ _ _ := trivial
  measure_step _ _ _ h := queueWeight_queueRound h

/-- The tokens of the plan that `select_facility_lod_candidate_index` considers for
a profile, when it considers one. -/
def lodPlannedTokens (fctx : FacilityContext F) (view : FacilityView F)
    (profile : FacilityCandidateProfile F) : Option ℕ :=
  match profile.candidate with
  | none => none
  | some candidate =>
    if candidate.estimatedTokens = 0 then none
    else
      match view.ledger.plan fctx.toAssemblyContext candidate with
      | none => none
      | some plan =>
        if plan.candidate.estimatedTokens = 0 then none else some plan.candidate.estimatedTokens

/-- `select_facility_lod_candidate_index`. -/
def selectFacilityLodCandidateIndex (fctx : FacilityContext F) (view : FacilityView F) :
    Option (ℕ × F) :=
  let gain := fun i => facilityMarginalGainCached fctx i view.profiles view.currentCoverages
  let ratio := fun (i : ℕ) (profile : FacilityCandidateProfile F) =>
    F32.div (gain i) (F32.castNat ((lodPlannedTokens fctx view profile).getD 0))
  (view.profiles.scanBest (fun _ profile => (lodPlannedTokens fctx view profile).isSome)
    fun (i, profile) (bestIndex, best) =>
      (F32.totalCmp (ratio i profile) (ratio bestIndex best)).then
        ((F32.totalCmp (gain i) (gain bestIndex)).then (compare bestIndex i)) == .gt).map
    fun (i, _) => (i, gain i)

/-- `FacilitySelectionQueue::select`. -/
def FacilitySelectionQueue.select (fctx : FacilityContext F) (view : FacilityView F)
    (queue : FacilitySelectionQueue F) : Option (ℕ × F) × FacilitySelectionQueue F :=
  if view.ledger.lodUsage.hasCompressedTiers then
    (selectFacilityLodCandidateIndex fctx view, queue)
  else
    let (choice, heap) := (queueLoop fctx view queue.generation).run queue.heap trivial
    (choice, { queue with heap := heap })

/-- `FacilitySelectionQueue::new`. -/
def FacilitySelectionQueue.new (fctx : FacilityContext F)
    (profiles : List (FacilityCandidateProfile F)) (currentCoverages : List F) :
    FacilitySelectionQueue F where
  heap := (List.range profiles.length).filterMap fun i =>
    facilityQueueEntry fctx i profiles currentCoverages 0
  generation := 0

/-- `FacilitySelectionQueue::advance_round`. -/
def FacilitySelectionQueue.advanceRound (queue : FacilitySelectionQueue F) :
    FacilitySelectionQueue F :=
  { queue with generation := satAdd32 queue.generation 1 }

/-- A choice of the scan is a profile that still holds its candidate. -/
theorem heldCandidate_of_selectLod {fctx : FacilityContext F} {view : FacilityView F} {i : ℕ}
    {g : F} (h : selectFacilityLodCandidateIndex fctx view = some (i, g)) :
    (heldCandidate view.profiles i).isSome := by
  simp only [selectFacilityLodCandidateIndex, Option.map_eq_some_iff] at h
  obtain ⟨⟨j, p⟩, hs, hj⟩ := h
  obtain ⟨rfl, -⟩ := Prod.mk.inj hj
  obtain ⟨hg, he⟩ := List.scanBest_eq_some hs
  cases hc : p.candidate with
  | none => simp [lodPlannedTokens, hc] at he
  | some candidate => simp [heldCandidate, hg, hc]

/-- A choice of the queue is a profile that still holds its candidate. -/
theorem heldCandidate_of_queueLoop {fctx : FacilityContext F} {view : FacilityView F}
    {g : ℕ} (h : List (FacilityQueueEntry F)) :
    ∀ i ga, ((queueLoop fctx view g).run h trivial).1 = some (i, ga) →
      (heldCandidate view.profiles i).isSome := by
  refine (queueLoop fctx view g).run_induction (P := fun _ => True)
    (Q := fun r => ∀ i ga, r.1 = some (i, ga) → (heldCandidate view.profiles i).isSome)
    (fun _ _ _ _ _ => trivial) ?_ h trivial trivial
  intro h r _ _ hs i ga hr
  change queueRound fctx view g h = .inr r at hs
  unfold queueRound at hs
  split at hs
  · cases hs
    cases hr
  · split at hs
    · cases hs
    · rename_i candidate hh
      split at hs
      · cases hs
      · split at hs
        · cases hs
          cases hr
          rw [hh]
          rfl
        · split at hs <;> cases hs

theorem heldCandidate_of_select {fctx : FacilityContext F} {view : FacilityView F}
    {qu : FacilitySelectionQueue F} {i : ℕ} {g : F}
    (h : (qu.select fctx view).1 = some (i, g)) :
    (heldCandidate view.profiles i).isSome := by
  unfold FacilitySelectionQueue.select at h
  split at h
  · exact heldCandidate_of_selectLod h
  · exact heldCandidate_of_queueLoop _ i g h

/-! ## State and rounds -/

/-- The locals of a facility-location assembly. -/
structure FacilityState (F : Type) where
  profiles : List (FacilityCandidateProfile F)
  active : List Bool
  remainingCount : ℕ
  currentCoverages : List F
  selector : FacilitySelectionQueue F
  ledger : Ledger F
  objectiveValue : F

namespace FacilityState

/-- What the selector reads of a state. -/
def view (st : FacilityState F) : FacilityView F :=
  ⟨st.profiles, st.currentCoverages, st.ledger⟩

/-- `active.get(i).copied().unwrap_or(false)`. -/
def isActive (st : FacilityState F) (i : ℕ) : Bool :=
  st.active.getD i false

/-- The state after the selector moved on. -/
def withSelector (st : FacilityState F) (selector : FacilitySelectionQueue F) :
    FacilityState F :=
  { st with selector := selector }

/-- Push an omission onto the ledger. -/
def pushOmitted (st : FacilityState F) (omission : PackOmission F) : FacilityState F :=
  { st with ledger := st.ledger.pushOmitted omission }

/-- `candidate.take()` and `mem::take(redactions)` on the profile at an index, with
its mask bit cleared and the remaining count lowered. -/
def takeProfile (st : FacilityState F) (i : ℕ) : FacilityState F :=
  { st with
    active := st.active.set i false
    remainingCount := st.remainingCount - 1
    profiles := st.profiles.modify i fun profile =>
      { profile with candidate := none, redactions := [] } }

/-- The candidates of the profiles that are still active, in order. -/
def activeCandidates (st : FacilityState F) : List (PackCandidate F) :=
  st.active.zipIdx.filterMap fun (isActive, i) =>
    if isActive then heldCandidate st.profiles i else none

/-- Omit every active candidate. -/
def omitActive (st : FacilityState F) (omission : PackCandidate F → PackOmission F) :
    FacilityState F :=
  { st with
    ledger :=
      { st.ledger with
        draft :=
          { st.ledger.draft with
            omitted := st.ledger.draft.omitted ++ st.activeCandidates.map omission } } }

end FacilityState

/-- Record a planned candidate of profile `i`.  Unlike the MMR selector, an
overflow of the token count is an error here. -/
def facilitySelect (fctx : FacilityContext F) (st : FacilityState F) (i : ℕ)
    (redactions : List PackItemRedaction) (tier : PackLodTier) (candidate : PackCandidate F)
    (phase : PackSelectionPhase) (marginalGain : F) :
    Except PackValidationError (FacilityState F) :=
  let coverages := updateFacilityCoveragesCached fctx st.profiles st.currentCoverages i
  let objectiveValue := facilityObjectiveValue st.profiles coverages
  match st.ledger.admitItem tier candidate redactions phase marginalGain objectiveValue with
  | .error e => .error e
  | .ok none => .error .candidateRankOverflow
  | .ok (some ledger) =>
    .ok { st with
      ledger := ledger
      currentCoverages := coverages
      objectiveValue := objectiveValue
      selector := st.selector.advanceRound }

/-- `FACILITY_LOCATION_EPSILON`. -/
def facilityLocationEpsilon : F := F32.lit (1 / 1000000)

/-- `anti_pattern_first_facility_candidate_index`. -/
def antiPatternFirstFacilityCandidateIndex (fctx : FacilityContext F)
    (st : FacilityState F) : Option ℕ :=
  (st.profiles.scanBest
    (fun i profile =>
      st.isActive i &&
        (match profile.candidate with
        | none => false
        | some candidate =>
          isAntiPatternFirstCandidate candidate fctx.options.effectiveRelevanceFloor
            && !F32.le (facilityMarginalGainCached fctx i st.profiles st.currentCoverages)
              facilityLocationEpsilon
            && (st.ledger.plan fctx.toAssemblyContext candidate).isSome))
    fun (_, profile) (_, best) =>
      match profile.candidate, best.candidate with
      | some candidate, some bestCandidate => compareCandidates candidate bestCandidate == .lt
      | _, _ => true).map Prod.fst

/-- Take the candidate of profile `i` out and record it, or omit it when there is
no plan for it: the body shared by the reservation and by the loop, which differ
in the phase and in what they do to the planned candidate. -/
def facilityTake (fctx : FacilityContext F) (st : FacilityState F) (i : ℕ)
    (mark : PackCandidate F → PackCandidate F) (phase : PackSelectionPhase) (marginalGain : F) :
    Except PackValidationError (FacilityState F) :=
  match st.profiles[i]? with
  | none => .ok (st.takeProfile i)
  | some profile =>
    let st := st.takeProfile i
    match profile.candidate with
    | none => .ok st
    | some candidate =>
      match st.ledger.plan fctx.toAssemblyContext candidate with
      | none => .ok (st.pushOmitted (st.ledger.budgetOmission fctx.toAssemblyContext candidate))
      | some plan =>
        facilitySelect fctx st i profile.redactions plan.tier (mark plan.candidate) phase
          marginalGain

/-- The reservation of one failure item before the loop. -/
def facilityAntiPatternFirst (fctx : FacilityContext F) (st : FacilityState F) :
    Except PackValidationError (FacilityState F) :=
  if fctx.options.includeAntiPatternFirst then
    match antiPatternFirstFacilityCandidateIndex fctx st with
    | none => .ok st
    | some i =>
      if st.isActive i then
        facilityTake fctx st i markAntiPatternFirstCandidate .antiPatternFirst
          (facilityMarginalGainCached fctx i st.profiles st.currentCoverages)
      else .ok st
  else .ok st

/-- One round of `while remaining_count > 0`. -/
def facilityRound (fctx : FacilityContext F) (st : FacilityState F) :
    FacilityState F ⊕ Except PackValidationError (FacilityState F) :=
  if st.remainingCount = 0 then .inr (.ok st)
  else
    let choice := (st.selector.select fctx st.view).1
    let st := st.withSelector (st.selector.select fctx st.view).2
    match choice with
    | none => .inr (.ok (st.omitActive (st.ledger.budgetOmission fctx.toAssemblyContext)))
    | some (i, marginalGain) =>
      if F32.le marginalGain facilityLocationEpsilon then
        .inr (.ok (st.omitActive redundantOmission))
      else if st.isActive i then
        match facilityTake fctx st i id .facilityLocation marginalGain with
        | .error e => .inr (.error e)
        | .ok st => .inl st
      else .inl st

end Selection

/-! ## Active profiles hold their candidates -/

namespace FacilityState

/-- A profile is active exactly as long as it holds its candidate. -/
def Consistent (st : FacilityState F) : Prop :=
  st.active = st.profiles.map (·.candidate.isSome)

/-- The candidates that the profiles still hold, in order. -/
def held (st : FacilityState F) : List (PackCandidate F) :=
  st.profiles.filterMap (·.candidate)

theorem Consistent.isActive_eq {st : FacilityState F} (h : st.Consistent) (i : ℕ) :
    st.isActive i = (heldCandidate st.profiles i).isSome := by
  unfold isActive heldCandidate
  rw [h, List.getD_eq_getElem?_getD, List.getElem?_map]
  cases st.profiles[i]? <;> rfl

/-- Taking a profile out keeps the queue consistent. -/
theorem Consistent.takeProfile {st : FacilityState F} (h : st.Consistent) (i : ℕ) :
    (st.takeProfile i).Consistent := by
  unfold Consistent FacilityState.takeProfile at *
  rw [h]
  apply List.ext_getElem?
  intro k
  rw [List.getElem?_set, List.getElem?_map, List.getElem?_map, List.getElem?_modify]
  cases hk : st.profiles[k]? with
  | none =>
    have hle := List.getElem?_eq_none_iff.mp hk
    by_cases hik : i = k <;> simp [hik, hle]
  | some p =>
    have hlt := (List.getElem?_eq_some_iff.mp hk).1
    by_cases hik : i = k <;> simp [hik, hlt]

/-- The active candidates are the held ones. -/
theorem Consistent.activeCandidates_eq {st : FacilityState F} (h : st.Consistent) :
    st.activeCandidates = st.held := by
  have hz : ∀ (pre suf : List (FacilityCandidateProfile F)), st.profiles = pre ++ suf →
      ((suf.map (·.candidate.isSome)).zipIdx pre.length).filterMap
          (fun (p : Bool × ℕ) => if p.1 then heldCandidate st.profiles p.2 else none)
        = suf.filterMap (·.candidate) := by
    intro pre suf
    induction suf generalizing pre with
    | nil => intro _; rfl
    | cons pr suf ih =>
      intro hs
      have hg : heldCandidate st.profiles pre.length = pr.candidate := by
        simp [heldCandidate, hs]
      have ht := ih (pre ++ [pr]) (by rw [hs]; simp)
      rw [List.length_append, List.length_singleton] at ht
      rw [List.map_cons, List.zipIdx_cons, List.filterMap_cons, List.filterMap_cons, ht]
      cases hc : pr.candidate with
      | none => simp
      | some candidate => simp [hg, hc]
  have ha := hz [] st.profiles rfl
  unfold activeCandidates held
  rw [show st.active = _ from h]
  exact ha

/-- Taking a profile's candidate takes it out of the held ones. -/
theorem perm_held_takeProfile {st : FacilityState F} {i : ℕ}
    {p : FacilityCandidateProfile F} {candidate : PackCandidate F}
    (hg : st.profiles[i]? = some p) (hc : p.candidate = some candidate) :
    st.held.Perm (candidate :: (st.takeProfile i).held) := by
  obtain ⟨hlt, rfl⟩ := List.getElem?_eq_some_iff.mp hg
  have hbe : st.profiles.Perm (st.profiles[i] :: st.profiles.eraseIdx i) :=
    (List.getElem_cons_eraseIdx_perm hlt).symm
  have haf : (st.takeProfile i).profiles.Perm
      ({ st.profiles[i] with candidate := none, redactions := [] } :: st.profiles.eraseIdx i) := by
    unfold takeProfile
    simp only
    rw [List.modify_eq_set_getElem? , List.getElem?_eq_getElem hlt]
    exact List.set_perm_cons_eraseIdx hlt _
  have hb := hbe.filterMap (·.candidate)
  have ha := haf.filterMap (·.candidate)
  rw [List.filterMap_cons_some hc] at hb
  rw [List.filterMap_cons_none rfl] at ha
  exact hb.trans (ha.symm.cons candidate)

end FacilityState

/-! ## Every candidate is accounted for -/

/-- The memory identifiers of a list of candidates. -/
def candidateIds (l : List (PackCandidate F)) : Multiset MemoryId :=
  ↑(l.map (·.memoryId))

/-- **The invariant of the run.**  The books are balanced, and every candidate of
the input is on the books or still held by its profile. -/
structure FacilityAccounted (ctx : AssemblyContext F) (inputs : List (PackCandidate F))
    (ids : Multiset MemoryId) (st : FacilityState F) : Prop where
  balanced : ∃ tiers, st.ledger.Balanced ctx inputs tiers
  ids_eq : st.ledger.ids + candidateIds st.held = ids
  held_mem : ∀ c ∈ st.held, c ∈ inputs
  count_eq : st.remainingCount = st.held.length

/-- Omitting all active candidates settles everything. -/
theorem FacilityAccounted.omitActive {ctx : AssemblyContext F} {inputs : List (PackCandidate F)}
    {ids : Multiset MemoryId} {st : FacilityState F} (h : FacilityAccounted ctx inputs ids st)
    (hst : st.Consistent) {o : PackCandidate F → PackOmission F}
    (hid : ∀ c, (o c).memoryId = c.memoryId) :
    (∃ ts, (st.omitActive o).ledger.Balanced ctx inputs ts) ∧
      (st.omitActive o).ledger.ids = ids := by
  obtain ⟨ts, hb⟩ := h.balanced
  refine ⟨⟨ts, hb.used_eq, hb.used_le, hb.section_eq, hb.section_le, hb.limits_eq,
    hb.tier_eq, hb.tier_le, hb.rendered, hb.rank_eq, hb.nextRank_eq,
    hb.nextRank_le, hb.tokens_pos, hb.steps_eq⟩, ?_⟩
  have ho : (st.activeCandidates.map o).map (·.memoryId) = st.held.map (·.memoryId) := by
    rw [hst.activeCandidates_eq, List.map_map]
    exact List.map_congr_left fun c _ => hid c
  rw [← h.ids_eq]
  simp only [FacilityState.omitActive, Ledger.ids, List.map_append, ho, ← Multiset.coe_add,
    candidateIds, add_assoc]

/-- Nothing remains to be settled when no profile holds a candidate. -/
theorem FacilityAccounted.ids_of_count_eq_zero {ctx : AssemblyContext F}
    {inputs : List (PackCandidate F)} {ids : Multiset MemoryId} {st : FacilityState F}
    (h : FacilityAccounted ctx inputs ids st)
    (hz : st.remainingCount = 0) : st.ledger.ids = ids := by
  have hn : st.held = [] := by
    rw [h.count_eq] at hz
    exact List.length_eq_zero_iff.mp hz
  rw [← h.ids_eq, hn]
  simp [candidateIds]

section Run

variable [F32 F]

/-! ## What a round does -/

/-- What recording a planned candidate leaves alone, and what it does to the
ledger. -/
theorem facilitySelect_eq_ok {fctx : FacilityContext F} {st st' : FacilityState F} {i : ℕ}
    {rs : List PackItemRedaction} {t : PackLodTier} {candidate : PackCandidate F}
    {p : PackSelectionPhase} {g : F}
    (h : facilitySelect fctx st i rs t candidate p g = .ok st') :
    st'.profiles = st.profiles ∧ st'.active = st.active ∧ st'.remainingCount = st.remainingCount ∧
      ∃ o, st.ledger.admitItem t candidate rs p g o = .ok (some st'.ledger) := by
  unfold facilitySelect at h
  simp only at h
  split at h
  · cases h
  · cases h
  · rename_i l ha
    cases h
    exact ⟨rfl, rfl, rfl, _, ha⟩

/-- The fate of a profile's candidate after it was taken out: omitted, or recorded
as planned. -/
theorem facilityTake_eq_ok {fctx : FacilityContext F} {st st' : FacilityState F} {i : ℕ}
    {mark : PackCandidate F → PackCandidate F} {p : PackSelectionPhase} {g : F}
    {candidate : PackCandidate F} (hh : heldCandidate st.profiles i = some candidate)
    (h : facilityTake fctx st i mark p g = .ok st') :
    st'.profiles = (st.takeProfile i).profiles ∧ st'.active = (st.takeProfile i).active ∧
      st'.remainingCount = st.remainingCount - 1 ∧
      ((∃ om, om.memoryId = candidate.memoryId ∧ st'.ledger = st.ledger.pushOmitted om) ∨
        ∃ plan rs o, st.ledger.plan fctx.toAssemblyContext candidate = some plan ∧
            st.ledger.admitItem plan.tier (mark plan.candidate) rs p g o
              = .ok (some st'.ledger)) := by
  obtain ⟨pr, hpr, hc⟩ := Option.bind_eq_some_iff.mp hh
  unfold facilityTake at h
  simp only [hpr, hc] at h
  split at h
  · cases h
    exact ⟨rfl, rfl, rfl, Or.inl ⟨_, rfl, rfl⟩⟩
  · rename_i plan hpl
    obtain ⟨hp, hac, hco, o, ha⟩ := facilitySelect_eq_ok h
    exact ⟨hp, hac, hco, Or.inr ⟨plan, _, o, hpl, ha⟩⟩

/-- **The outcomes of a round** from a consistent state: nothing remains, an error,
all active candidates are omitted at once, or one held candidate is taken out. -/
theorem facilityRound_cases (fctx : FacilityContext F) {st : FacilityState F}
    (hst : st.Consistent) :
    (st.remainingCount = 0 ∧ facilityRound fctx st = .inr (.ok st)) ∨
      (∃ e, facilityRound fctx st = .inr (.error e)) ∨
      (∃ s o, (∀ c : PackCandidate F, (o c).memoryId = c.memoryId) ∧ facilityRound fctx st
          = .inr (.ok ((st.withSelector s).omitActive o))) ∨
      ∃ s i candidate g st', st.remainingCount ≠ 0 ∧
        heldCandidate (st.withSelector s).profiles i = some candidate ∧
        facilityRound fctx st = .inl st' ∧
        facilityTake fctx (st.withSelector s) i id .facilityLocation g = .ok st' := by
  generalize hr : facilityRound fctx st = outcome
  unfold facilityRound at hr
  split at hr
  · rename_i hz
    exact Or.inl ⟨hz, hr.symm⟩
  rename_i hre
  right
  simp only at hr
  split at hr
  · right; left
    exact ⟨_, _, fun _ => rfl, hr.symm⟩
  rename_i i g hch
  split at hr
  · right; left
    exact ⟨_, _, fun _ => rfl, hr.symm⟩
  -- the chosen profile still holds its candidate, so it is active
  have hh : (heldCandidate st.profiles i).isSome := heldCandidate_of_select hch
  have ha : st.isActive i = true := by rw [hst.isActive_eq, hh]
  obtain ⟨candidate, hc⟩ := Option.isSome_iff_exists.mp hh
  split at hr
  · split at hr
    · rename_i e _
      exact Or.inl ⟨e, hr.symm⟩
    · rename_i st' ht
      right; right
      exact ⟨(st.selector.select fctx st.view).2, i, candidate, g, st', hre, hc, hr.symm, ht⟩
  · rename_i hi
    exact absurd ha hi

/-- The selection loop: every continuing round takes a candidate away. -/
def facilityLoop (fctx : FacilityContext F) :
    Loop (FacilityState F) (Except PackValidationError (FacilityState F)) where
  step := facilityRound fctx
  Inv := FacilityState.Consistent
  measure := FacilityState.remainingCount
  inv_step := by
    intro st st' hst hstep
    rcases facilityRound_cases fctx hst with ⟨-, hr⟩ | ⟨e, hr⟩ | ⟨_, _, -, hr⟩ |
      ⟨selector, i, candidate, gain, st₁, -, hheld, hr, htake⟩
    all_goals rw [hr] at hstep
    all_goals cases hstep
    obtain ⟨hprofiles, hactive, -, -⟩ := facilityTake_eq_ok hheld htake
    have hst₁ : (st.withSelector selector).Consistent := hst
    have htaken := hst₁.takeProfile i
    unfold FacilityState.Consistent
    rw [hprofiles, hactive]
    exact htaken
  measure_step := by
    intro st st' hst hstep
    rcases facilityRound_cases fctx hst with ⟨-, hr⟩ | ⟨e, hr⟩ | ⟨_, _, -, hr⟩ |
      ⟨selector, i, candidate, gain, st₁, hrem, hheld, hr, htake⟩
    all_goals rw [hr] at hstep
    all_goals cases hstep
    obtain ⟨-, -, hcount, -⟩ := facilityTake_eq_ok hheld htake
    have hsame : (st.withSelector selector).remainingCount = st.remainingCount := rfl
    omega

/-! ## The assembly -/

/-- The state at the start of an assembly over the given draft buffers. -/
def facilityStart (fctx : FacilityContext F) (draft : PackDraftScratch F)
    (profiles : List (FacilityCandidateProfile F)) : FacilityState F :=
  let currentCoverages := List.replicate profiles.length (F32.lit 0)
  { profiles := profiles
    active := List.replicate profiles.length true
    remainingCount := profiles.length
    currentCoverages := currentCoverages
    selector := .new fctx profiles currentCoverages
    ledger := .start fctx.toAssemblyContext draft
    objectiveValue := F32.lit 0 }

/-- The profiles of an assembly, in candidate order. -/
def facilityProfiles (ctx : AssemblyContext F) (candidates : List (PackCandidate F)) :
    List (FacilityCandidateProfile F) :=
  (sortBy compareCandidates candidates).map
    (.fromCandidate ctx.env ctx.options.outputRedactionEnabled)

/-- Every new profile holds its candidate. -/
theorem consistent_facilityStart (fctx : FacilityContext F) (draft : PackDraftScratch F)
    (ctx : AssemblyContext F) (cs : List (PackCandidate F)) :
    (facilityStart fctx draft (facilityProfiles ctx cs)).Consistent := by
  have ha : ∀ p ∈ facilityProfiles ctx cs, p.candidate.isSome = true := by
    intro p hm
    obtain ⟨candidate, -, rfl⟩ := List.mem_map.mp hm
    rfl
  unfold FacilityState.Consistent facilityStart
  simp only
  rw [eq_comm, List.eq_replicate_iff]
  refine ⟨List.length_map _, ?_⟩
  intro b hb
  obtain ⟨p, hm, rfl⟩ := List.mem_map.mp hb
  exact ha p hm

/-- The reservation keeps the mask and the profiles in step. -/
theorem consistent_facilityAntiPatternFirst {fctx : FacilityContext F} {st st' : FacilityState F}
    (hst : st.Consistent) (h : facilityAntiPatternFirst fctx st = .ok st') : st'.Consistent := by
  unfold facilityAntiPatternFirst at h
  split at h
  · split at h
    · cases h
      exact hst
    · rename_i i _
      split at h
      · rename_i ha
        rw [hst.isActive_eq] at ha
        obtain ⟨candidate, hh⟩ := Option.isSome_iff_exists.mp ha
        obtain ⟨hp, hm, -, -⟩ := facilityTake_eq_ok hh h
        have ht := hst.takeProfile i
        unfold FacilityState.Consistent
        rw [hp, hm]
        exact ht
      · cases h
        exact hst
  · cases h
    exact hst

/-- The two phases of `assemble_facility_location_draft`, from a consistent state. -/
def facilityRun (fctx : FacilityContext F) (st : FacilityState F) (hst : st.Consistent) :
    Except PackValidationError (FacilityState F) :=
  match h : facilityAntiPatternFirst fctx st with
  | .error e => .error e
  | .ok st => (facilityLoop fctx).run st (consistent_facilityAntiPatternFirst hst h)

/-- The draft that a facility-location assembly returns. -/
def facilityDraft (ctx : AssemblyContext F) (query : String) (candidateCount : ℕ)
    (st : FacilityState F) : PackDraft F where
  query := query
  budget := ctx.budget
  usedTokens := st.ledger.usedTokens
  evidenceItems := []
  ruleItems := []
  items := st.ledger.draft.items
  omitted := st.ledger.draft.omitted
  hash := none
  selectionAudit :=
    { profile := ctx.profile
      objective := .facilityLocation
      algorithmId := "deterministic_greedy_facility_location_gain_per_token"
      algorithmDescription :=
        "Deterministic budgeted greedy selection over the facility-location objective."
      candidateCount := candidateCount
      selectedCount := st.ledger.draft.items.length
      omittedCount := st.ledger.draft.omitted.length
      budgetLimit := ctx.budget.maxTokens
      budgetUsed := st.ledger.usedTokens
      totalObjectiveValue := st.objectiveValue
      monotone := true
      submodular := true
      selectedItems := selectedItemsFromDraftItems st.ledger.draft.items
      steps := st.ledger.draft.steps }

/-- The context of an assembly over the given candidates; `reserved` is whether the
similarity matrix could be allocated. -/
def facilityContext (ctx : AssemblyContext F) (reserved : Bool)
    (candidates : List (PackCandidate F)) : FacilityContext F :=
  { ctx with
    similarity := (FacilitySimilarityCache.new ctx.env (facilityProfiles ctx candidates)
      reserved).similarity ctx.env }

/-- Whether the matrix was allocated cannot be told from the lookups. -/
theorem facilityContext_reserved (ctx : AssemblyContext F) (reserved r' : Bool)
    (cs : List (PackCandidate F)) :
    facilityContext ctx reserved cs = facilityContext ctx r' cs := by
  unfold facilityContext
  rw [FacilitySimilarityCache.similarity_new_reserved ctx.env _ reserved r']

/-- The selection of `assemble_facility_location_draft` over the given draft
buffers. -/
def facilityAssembly (ctx : AssemblyContext F) (reserved : Bool) (draft : PackDraftScratch F)
    (candidates : List (PackCandidate F)) : Except PackValidationError (FacilityState F) :=
  facilityRun (facilityContext ctx reserved candidates)
    (facilityStart (facilityContext ctx reserved candidates) draft
      (facilityProfiles ctx candidates))
    (consistent_facilityStart _ _ _ _)

/-- `assemble_facility_location_draft`. -/
def assembleFacilityLocationDraft (ctx : AssemblyContext F) (reserved : Bool) (query : String)
    (candidates : List (PackCandidate F)) : Except PackValidationError (PackDraft F) := do
  let query ← trimRequired query .emptyQuery
  let st ← facilityAssembly ctx reserved {} candidates
  return facilityDraft ctx query candidates.length st

/-! ## The run keeps every candidate accounted for -/

namespace FacilityAccounted

variable {fctx : FacilityContext F} {inputs : List (PackCandidate F)} {ids : Multiset MemoryId}
  {st st' : FacilityState F}

/-- Taking a held candidate out and recording or omitting it keeps everything
accounted for. -/
theorem take (h : FacilityAccounted fctx.toAssemblyContext inputs ids st) {i : ℕ}
    {candidate : PackCandidate F} (hh : heldCandidate st.profiles i = some candidate)
    {mark : PackCandidate F → PackCandidate F}
    (hm : ∀ c, SameRendering (mark c) c) {p : PackSelectionPhase} {g : F}
    (ht : facilityTake fctx st i mark p g = .ok st') :
    FacilityAccounted fctx.toAssemblyContext inputs ids st' := by
  obtain ⟨pr, hpro, hc⟩ := Option.bind_eq_some_iff.mp hh
  obtain ⟨hpr, -, hco, hl⟩ := facilityTake_eq_ok hh ht
  have hp := FacilityState.perm_held_takeProfile hpro hc
  have hh' : st'.held = (st.takeProfile i).held := by
    unfold FacilityState.held
    rw [hpr]
  have hi : candidateIds st.held = candidate.memoryId ::ₘ candidateIds st'.held := by
    rw [hh']
    exact Multiset.coe_eq_coe.mpr (hp.map _)
  have hme : candidate ∈ inputs := h.held_mem candidate (hp.symm.subset List.mem_cons_self)
  have hb : (∃ ts, st'.ledger.Balanced fctx.toAssemblyContext inputs ts) ∧
      st'.ledger.ids = candidate.memoryId ::ₘ st.ledger.ids := by
    obtain ⟨ts, hba⟩ := h.balanced
    rcases hl with ⟨o, hid, heq⟩ | ⟨plan, rs, ob, hpl, ha⟩
    · rw [heq, Ledger.ids_pushOmitted, hid]
      exact ⟨⟨ts, hba.pushOmitted o⟩, rfl⟩
    · refine ⟨⟨_, hba.admitItem hme hpl (hm _) ha⟩, ?_⟩
      rw [Ledger.ids_admitItem ha, (hm _).memoryId, (planFits_of_plan hpl).memoryId]
  refine ⟨hb.1, ?_, ?_, ?_⟩
  · rw [hb.2, ← h.ids_eq, hi, Multiset.cons_add, Multiset.add_cons]
  · intro c hc'
    rw [hh'] at hc'
    exact h.held_mem c (hp.symm.subset (List.mem_cons_of_mem _ hc'))
  · have hle := hp.length_eq
    rw [List.length_cons, ← hh', ← h.count_eq] at hle
    omega

/-- The loop settles everything. -/
theorem loop (h : FacilityAccounted fctx.toAssemblyContext inputs ids st) (hst : st.Consistent)
    (hru : (facilityLoop fctx).run st hst = .ok st') :
    (∃ ts, st'.ledger.Balanced fctx.toAssemblyContext inputs ts) ∧ st'.ledger.ids = ids := by
  have hal : ∀ st', (facilityLoop fctx).run st hst = .ok st' →
      (∃ ts, st'.ledger.Balanced fctx.toAssemblyContext inputs ts) ∧ st'.ledger.ids = ids := by
    refine (facilityLoop fctx).run_induction
      (P := FacilityAccounted fctx.toAssemblyContext inputs ids)
      (Q := fun r => ∀ st', r = .ok st' →
        (∃ ts, st'.ledger.Balanced fctx.toAssemblyContext inputs ts) ∧ st'.ledger.ids = ids)
      ?_ ?_ st hst h
    · intro s s' hs ha hste
      change facilityRound fctx s = .inl s' at hste
      rcases facilityRound_cases fctx hs with ⟨-, hr⟩ | ⟨e, hr⟩ | ⟨_, _, -, hr⟩ |
        ⟨se, i, candidate, g, s₁, -, hh, hr, ht⟩
      all_goals rw [hr] at hste
      all_goals cases hste
      have ha' : FacilityAccounted fctx.toAssemblyContext inputs ids (s.withSelector se) :=
        ⟨ha.balanced, ha.ids_eq, ha.held_mem, ha.count_eq⟩
      exact ha'.take hh SameRendering.refl ht
    · intro s r hs ha hste s' hr'
      subst hr'
      change facilityRound fctx s = .inr (.ok s') at hste
      rcases facilityRound_cases fctx hs with ⟨hz, hr⟩ | ⟨e, hr⟩ | ⟨se, o, hid, hr⟩ |
        ⟨se, i, candidate, g, s₁, -, -, hr, -⟩
      all_goals rw [hr] at hste
      all_goals cases hste
      · exact ⟨ha.balanced, ha.ids_of_count_eq_zero hz⟩
      · have hs' : (s.withSelector se).Consistent := hs
        have ha' : FacilityAccounted fctx.toAssemblyContext inputs ids (s.withSelector se) :=
          ⟨ha.balanced, ha.ids_eq, ha.held_mem, ha.count_eq⟩
        exact ha'.omitActive hs' hid
  exact hal st' hru

/-- The reservation keeps everything accounted for. -/
theorem antiPatternFirst (h : FacilityAccounted fctx.toAssemblyContext inputs ids st)
    (hst : st.Consistent) (hr : facilityAntiPatternFirst fctx st = .ok st') :
    FacilityAccounted fctx.toAssemblyContext inputs ids st' := by
  unfold facilityAntiPatternFirst at hr
  split at hr
  · split at hr
    · cases hr
      exact h
    · split at hr
      · rename_i ha
        rw [hst.isActive_eq] at ha
        obtain ⟨candidate, hh⟩ := Option.isSome_iff_exists.mp ha
        exact h.take hh sameRendering_markAntiPatternFirstCandidate hr
      · cases hr
        exact h
  · cases hr
    exact h

end FacilityAccounted

/-- The candidates that new profiles hold. -/
theorem held_facilityStart (fctx : FacilityContext F) (draft : PackDraftScratch F)
    (ctx : AssemblyContext F) (cs : List (PackCandidate F)) :
    (facilityStart fctx draft (facilityProfiles ctx cs)).held
      = (sortBy compareCandidates cs).map fun c =>
          (prepareCandidate ctx.env c ctx.options.outputRedactionEnabled).1 := by
  unfold FacilityState.held facilityStart facilityProfiles
  simp only
  rw [List.filterMap_map, ← List.filterMap_eq_map]
  rfl

/-- The start of a run over empty draft buffers is accounted for. -/
theorem facilityAccounted_start (fctx : FacilityContext F) (ctx : AssemblyContext F)
    (cs : List (PackCandidate F)) :
    FacilityAccounted fctx.toAssemblyContext
      (cs.map fun c => (prepareCandidate ctx.env c ctx.options.outputRedactionEnabled).1)
      (candidateIds cs) (facilityStart fctx {} (facilityProfiles ctx cs)) where
  balanced := ⟨[], Ledger.balanced_start _ _⟩
  ids_eq := by
    rw [held_facilityStart]
    have hi : candidateIds ((sortBy compareCandidates cs).map fun c =>
        (prepareCandidate ctx.env c ctx.options.outputRedactionEnabled).1)
        = candidateIds cs := by
      unfold candidateIds
      rw [List.map_map, Multiset.coe_eq_coe]
      refine List.Perm.trans ?_ ((sortBy_perm compareCandidates cs).map (·.memoryId))
      rw [List.map_congr_left]
      intro c _
      exact prepareCandidate_memoryId _ _ _
    rw [hi]
    simp [facilityStart, Ledger.start, Ledger.ids]
  held_mem := by
    intro c hc
    rw [held_facilityStart] at hc
    exact ((sortBy_perm _ _).map _).subset hc
  count_eq := by
    rw [held_facilityStart]
    simp [facilityStart, facilityProfiles]

/-- **A facility-location run over empty draft buffers settles every candidate.** -/
theorem facilityAssembly_accounted {ctx : AssemblyContext F} {reserved : Bool}
    {cs : List (PackCandidate F)} {st : FacilityState F}
    (h : facilityAssembly ctx reserved {} cs = .ok st) :
    (∃ ts, st.ledger.Balanced ctx (cs.map fun c =>
          (prepareCandidate ctx.env c ctx.options.outputRedactionEnabled).1) ts) ∧
      st.ledger.ids = candidateIds cs := by
  have hs := facilityAccounted_start (facilityContext ctx reserved cs) ctx cs
  unfold facilityAssembly facilityRun at h
  split at h
  · cases h
  · rename_i st₁ hf
    have hst := consistent_facilityStart (facilityContext ctx reserved cs) {} ctx cs
    exact (hs.antiPatternFirst hst hf).loop (consistent_facilityAntiPatternFirst hst hf) h

end Run

end Pack
