/-
# The contradiction guard (`src/core/contradiction_guard.rs`, `src/pack/mod.rs`)

Unresolved contradictions are pairs of memory identifiers.  The decision core keeps
a conflict-free subset of the selected memories in standing order (trust, then
rank, then identifier); the guard on a draft moves the suppressed memories to the
omissions.  The ranks of the memories that stay are left as they are.
-/
import EideticEngine.PackTypes
import EideticEngine.PackSignature

namespace Pack

open StableSort (sortBy)

variable {F : Type}

/-! ## The decision core -/

/-- `GuardedMemory`. -/
structure GuardedMemory where
  memoryId : String
  trustMilli : ℤ
  freshnessEpoch : ℤ
  deriving DecidableEq, Repr

/-- `SuppressionBasis`. -/
inductive SuppressionBasis where
  | higherTrust
  | fresher
  | deterministicTieBreak
  deriving DecidableEq, Repr

/-- `ContradictionSuppression`. -/
structure ContradictionSuppression where
  keptMemoryId : String
  suppressedMemoryId : String
  basis : SuppressionBasis
  deriving DecidableEq, Repr

/-- `decide_contradiction_survivor`. -/
def decideContradictionSurvivor (left right : GuardedMemory) : ContradictionSuppression :=
  match compare left.trustMilli right.trustMilli with
  | .gt => ⟨left.memoryId, right.memoryId, .higherTrust⟩
  | .lt => ⟨right.memoryId, left.memoryId, .higherTrust⟩
  | .eq =>
    match compare left.freshnessEpoch right.freshnessEpoch with
    | .gt => ⟨left.memoryId, right.memoryId, .fresher⟩
    | .lt => ⟨right.memoryId, left.memoryId, .fresher⟩
    | .eq =>
      if left.memoryId ≤ right.memoryId then
        ⟨left.memoryId, right.memoryId, .deterministicTieBreak⟩
      else ⟨right.memoryId, left.memoryId, .deterministicTieBreak⟩

/-- `canonical_pair`. -/
def canonicalPair (a b : String) : Option (String × String) :=
  let a := RustText.trim a
  let b := RustText.trim b
  if a = "" ∨ b = "" ∨ a = b then none
  else if a ≤ b then some (a, b)
  else some (b, a)

/-- Standing order: more trust, then fresher, then the smaller identifier. -/
def compareStanding (a b : GuardedMemory) : Ordering :=
  (compare b.trustMilli a.trustMilli).then
    ((compare b.freshnessEpoch a.freshnessEpoch).then (compare a.memoryId b.memoryId))

/-- The members in standing order, each identifier at its strongest standing. -/
def rankedMembers (members : List GuardedMemory) : List GuardedMemory :=
  (sortBy compareStanding (members.filter fun m => RustText.trim m.memoryId ≠ "")).eraseDupsBy
    fun a b => a.memoryId == b.memoryId

/-- `standing.get(id)`. -/
def standingOf (ranked : List GuardedMemory) (id : String) : Option GuardedMemory :=
  ranked.find? fun m => m.memoryId = id

/-- `neighbors.get(id)`: the identifiers that contradict `id`, in the order of the
set they are kept in. -/
def contradictionNeighbors (ranked : List GuardedMemory) (unresolved : List (String × String))
    (id : String) : List String :=
  let adjacent := unresolved.filterMap fun (a, b) =>
    match canonicalPair a b with
    | none => none
    | some (a, b) =>
      if (standingOf ranked a).isNone ∨ (standingOf ranked b).isNone then none
      else if a = id then some b
      else if b = id then some a
      else none
  (adjacent.insertionSort (· ≤ ·)).destutter (· ≠ ·)

/-- One neighbour of a retained memory. -/
def suppressNeighbor (ranked : List GuardedMemory) (memory : GuardedMemory)
    (acc : List String × List ContradictionSuppression) (id : String) :
    List String × List ContradictionSuppression :=
  if id ∈ acc.1 then acc
  else
    match standingOf ranked id with
    | none => acc
    | some other =>
      let decision := decideContradictionSurvivor memory other
      (decision.suppressedMemoryId :: acc.1, acc.2 ++ [decision])

/-- `decide_contradiction_suppressions`. -/
def decideContradictionSuppressions (members : List GuardedMemory)
    (unresolved : List (String × String)) : List ContradictionSuppression :=
  let ranked := rankedMembers members
  let (_, decisions) := ranked.foldl (fun acc memory =>
      if memory.memoryId ∈ acc.1 then acc
      else
        (contradictionNeighbors ranked unresolved memory.memoryId).foldl
          (suppressNeighbor ranked memory) acc) ([], [])
  sortBy (fun a b => compare a.suppressedMemoryId b.suppressedMemoryId) decisions

/-! ## The guard on a draft -/

/-- Whether `PackTrustPosture::for_class` is authoritative. -/
def TrustClass.isAuthoritative : TrustClass → Bool
  | .humanExplicit | .peerHumanAttested | .agentValidated => true
  | .agentAssertion | .cassEvidence | .legacyImport => false

/-- `PackTrustSignal::effective_class`. -/
def PackTrustSignal.effectiveClass (trust : PackTrustSignal) : TrustClass :=
  if trust.subclass = some "procedural_rule" ∧ trust.trustClass.isAuthoritative then
    .agentAssertion
  else trust.trustClass

/-- `trust_class_rank_milli`. -/
def trustClassRankMilli : TrustClass → ℤ
  | .humanExplicit => 6000
  | .peerHumanAttested => 5000
  | .agentValidated => 4000
  | .agentAssertion => 3000
  | .cassEvidence => 2000
  | .legacyImport => 1000

/-- `selection_phase_contributes_to_objective`. -/
def selectionPhaseContributesToObjective : PackSelectionObjective → PackSelectionPhase → Bool
  | .mmrRedundancy, phase => phase = .antiPatternFirst ∨ phase = .strictMmr
  | .facilityLocation, phase => phase = .antiPatternFirst ∨ phase = .facilityLocation

/-- `refresh_selection_audit_objective_after_guard`: drop the steps of items that are
gone and add the gains up again.  Of several items under one key the map keeps the
last. -/
def refreshSelectionAuditObjectiveAfterGuard [F32 F] (audit : PackSelectionAudit F)
    (items : List (PackDraftItem F)) : PackSelectionAudit F :=
  let phaseOf := fun (step : PackSelectionStep F) =>
    (items.reverse.find? fun item => item.memoryId = step.memoryId ∧ item.rank = step.rank).map
      (·.selectedIn)
  let (objectiveValue, steps) := audit.steps.foldl
    (fun (acc : F × List (PackSelectionStep F)) step =>
      match phaseOf step with
      | none => acc
      | some phase =>
        let objectiveValue :=
          if selectionPhaseContributesToObjective audit.objective phase then
            F32.add acc.1 (F32.max step.marginalGain (F32.lit 0))
          else acc.1
        (objectiveValue, acc.2 ++ [{ step with objectiveValue := objectiveValue }]))
    (F32.lit 0, [])
  { audit with totalObjectiveValue := objectiveValue, steps := steps }

/-- The standing of the selected memories: a lower rank counts as fresher. -/
def PackDraft.guardStanding (draft : PackDraft F) : List GuardedMemory :=
  draft.items.map fun item =>
    { memoryId := item.memoryId.toText
      trustMilli := trustClassRankMilli item.trust.effectiveClass
      freshnessEpoch := -(item.rank : ℤ) }

/-- The identifiers that the guard suppresses. -/
def PackDraft.suppressedMemoryIds (draft : PackDraft F)
    (unresolvedPairs : List (String × String)) (forced : Bool) : List String :=
  if forced ∨ unresolvedPairs = [] ∨ draft.items.length < 2 then []
  else
    (decideContradictionSuppressions draft.guardStanding unresolvedPairs).map
      (·.suppressedMemoryId)

/-- The omission of a suppressed memory. -/
def suppressedOmission (item : PackDraftItem F) : PackOmission F where
  memoryId := item.memoryId
  estimatedTokens := item.estimatedTokens
  relevance := item.relevance
  utility := item.utility
  reason := .contradictionSuppressed
  rejectedAt := .selection
  feasible := true
  couldFitWithBudget := none

/-- The tokens of all selected items, as the guard and the displacement add them up. -/
def PackDraft.itemTokens (draft : PackDraft F) : List ℕ :=
  draft.items.map (·.estimatedTokens) ++ draft.ruleItems.map (·.estimatedTokens)
    ++ draft.evidenceItems.map (·.estimatedTokens)

/-- `PackDraft::apply_contradiction_guard`, without the count it returns. -/
def PackDraft.applyContradictionGuard [F32 F] (draft : PackDraft F)
    (unresolvedPairs : List (String × String)) (forced : Bool) : PackDraft F :=
  let suppressed := draft.suppressedMemoryIds unresolvedPairs forced
  if suppressed = [] then draft
  else
    let items := draft.items.filter fun item => item.memoryId.toText ∉ suppressed
    let omitted := draft.omitted
      ++ (draft.items.filter fun item => item.memoryId.toText ∈ suppressed).map suppressedOmission
    let usedTokens := wrappingSum32 ({ draft with items := items } : PackDraft F).itemTokens
    { draft with
      items := items
      omitted := omitted
      usedTokens := usedTokens
      selectionAudit := refreshSelectionAuditObjectiveAfterGuard
        { draft.selectionAudit with
          selectedCount := items.length
          omittedCount := omitted.length
          budgetUsed := usedTokens
          selectedItems := selectedItemsFromDraftItems items } items
      hash := none }

/-- The memories that the guard keeps, in order and with their ranks. -/
def PackDraft.keptItems (draft : PackDraft F) (unresolvedPairs : List (String × String))
    (forced : Bool) : List (PackDraftItem F) :=
  draft.items.filter fun item =>
    item.memoryId.toText ∉ draft.suppressedMemoryIds unresolvedPairs forced

/-- What the guard does to the selected items: it keeps some memories and touches
no native item. -/
theorem PackDraft.applyContradictionGuard_items [F32 F] (draft : PackDraft F)
    (unresolvedPairs : List (String × String)) (forced : Bool) :
    (draft.applyContradictionGuard unresolvedPairs forced).items
      = draft.keptItems unresolvedPairs forced := by
  unfold applyContradictionGuard keptItems
  simp only
  split
  · rename_i hn
    simp [hn]
  · rfl

theorem PackDraft.applyContradictionGuard_native [F32 F] (draft : PackDraft F)
    (unresolvedPairs : List (String × String)) (forced : Bool) :
    (draft.applyContradictionGuard unresolvedPairs forced).ruleItems = draft.ruleItems ∧
      (draft.applyContradictionGuard unresolvedPairs forced).evidenceItems = draft.evidenceItems ∧
      (draft.applyContradictionGuard unresolvedPairs forced).budget = draft.budget := by
  unfold applyContradictionGuard
  simp only
  split <;> exact ⟨rfl, rfl, rfl⟩

/-- The tokens of the items that the guard leaves in the draft. -/
def PackDraft.keptTokens (draft : PackDraft F) (unresolvedPairs : List (String × String))
    (forced : Bool) : List ℕ :=
  ({ draft with items := draft.keptItems unresolvedPairs forced } : PackDraft F).itemTokens

theorem PackDraft.itemTokens_applyContradictionGuard [F32 F] (draft : PackDraft F)
    (unresolvedPairs : List (String × String)) (forced : Bool) :
    (draft.applyContradictionGuard unresolvedPairs forced).itemTokens
      = draft.keptTokens unresolvedPairs forced := by
  obtain ⟨hrules, hevidence, -⟩ := draft.applyContradictionGuard_native unresolvedPairs forced
  rw [itemTokens, applyContradictionGuard_items, hrules, hevidence]
  rfl

/-- The token count after the guard: a wrapping sum, or the old count when nothing is
suppressed. -/
theorem PackDraft.usedTokens_applyContradictionGuard [F32 F] (draft : PackDraft F)
    (unresolvedPairs : List (String × String)) (forced : Bool) :
    (draft.applyContradictionGuard unresolvedPairs forced).usedTokens
      = if draft.suppressedMemoryIds unresolvedPairs forced = [] then draft.usedTokens
        else wrappingSum32 (draft.keptTokens unresolvedPairs forced) := by
  unfold applyContradictionGuard
  simp only
  split
  · rfl
  · rfl

/-- The guard keeps a count that is the sum of the selected items' tokens, as long as that
sum is a `u32`. -/
theorem PackDraft.applyContradictionGuard_usedTokens [F32 F] {draft : PackDraft F}
    (hu : draft.usedTokens = draft.itemTokens.sum) (hle : draft.itemTokens.sum ≤ u32Max)
    (unresolvedPairs : List (String × String)) (forced : Bool) :
    (draft.applyContradictionGuard unresolvedPairs forced).usedTokens
      = (draft.applyContradictionGuard unresolvedPairs forced).itemTokens.sum := by
  rw [usedTokens_applyContradictionGuard, itemTokens_applyContradictionGuard]
  split
  · rename_i hnone
    rw [hu, keptTokens, keptItems, hnone]
    simp [itemTokens]
  · apply wrappingSum32_eq_sum_iff.mpr
    refine le_trans (List.Sublist.sum_le_sum ?_ (by simp)) hle
    have hkept : (draft.keptItems unresolvedPairs forced).Sublist draft.items :=
      List.filter_sublist
    exact ((hkept.map _).append_right _).append_right _

end Pack
