/-
# Pack assembly (`src/pack/mod.rs`)

The entry points of assembly.  Options are validated, candidates below an explicit
relevance floor are set apart, the profile picks the selector, and the candidates
set apart join the omissions of the draft at the end.

Two results about whole calls: a draft is a partition of its candidates within
every budget, and a sequence of calls on one arena returns what the calls return
without an arena.
-/
import EideticEngine.PackWorkspace

namespace Pack

open StableSort (sortBy sortBy_perm)

variable {F : Type}

/-! ## What a draft promises -/

/-- The candidates as both selectors prepare them for output. -/
def preparedCandidates (ctx : AssemblyContext F) (candidates : List (PackCandidate F)) :
    List (PackCandidate F) :=
  candidates.map fun c => (prepareCandidate ctx.env c ctx.options.outputRedactionEnabled).1

/-- The books of a draft: balanced, over the identifiers `ids`. -/
structure Settled (ctx : AssemblyContext F) (inputs : List (PackCandidate F))
    (ids : Multiset MemoryId) (draft : PackDraft F) : Prop where
  used_eq : draft.usedTokens = (draft.items.map (·.estimatedTokens)).sum
  used_le : draft.usedTokens ≤ ctx.budget.maxTokens
  section_le : ∀ s, Ledger.sectionTokens draft.items s ≤ (ctx.quotas.get s).maxTokens
  tier_le : ∃ tiers, List.Forall₂ (Ledger.RenderedAt ctx.env inputs) tiers draft.items ∧
    ∀ tier, Ledger.tierTokens tiers draft.items tier
      ≤ (PackLodBudgetState.fromOptions ctx.options ctx.budget).limits.limit tier
  rank_eq : draft.items.map (·.rank) = List.range' 1 draft.items.length
  length_lt : draft.items.length < u32Max
  tokens_pos : ∀ item ∈ draft.items, 0 < item.estimatedTokens
  native_nil : draft.ruleItems = [] ∧ draft.evidenceItems = []
  budget_eq : draft.budget = ctx.budget
  ids_eq : (↑(draft.items.map (·.memoryId)) : Multiset MemoryId)
    + ↑(draft.omitted.map (·.memoryId)) = ids
  selected_eq : draft.selectionAudit.selectedItems = selectedItemsFromDraftItems draft.items
  steps_eq : draft.selectionAudit.steps.map (·.selectedItem)
    = selectedItemsFromDraftItems draft.items

/-- Balanced books at the end of a run settle the draft that is read off them. -/
theorem Settled.of_balanced {ctx : AssemblyContext F} {is : List (PackCandidate F)}
    {ids : Multiset MemoryId} {l : Ledger F} {draft : PackDraft F}
    (hb : ∃ ts, l.Balanced ctx is ts) (hid : l.ids = ids)
    (hu : draft.usedTokens = l.usedTokens) (hi : draft.items = l.draft.items)
    (ho : draft.omitted = l.draft.omitted)
    (hn : draft.ruleItems = [] ∧ draft.evidenceItems = [])
    (hbu : draft.budget = ctx.budget)
    (hse : draft.selectionAudit.selectedItems = selectedItemsFromDraftItems l.draft.items)
    (hst : draft.selectionAudit.steps = l.draft.steps) : Settled ctx is ids draft := by
  obtain ⟨ts, hb⟩ := hb
  refine ⟨?_, ?_, ?_, ⟨ts, ?_, ?_⟩, ?_, ?_, ?_, hn, hbu, ?_, ?_, ?_⟩
  · rw [hu, hi, hb.used_eq]
  · rw [hu]
    exact hb.used_le
  · intro s
    rw [hi, ← hb.section_eq]
    exact hb.section_le s
  · rw [hi]
    exact hb.rendered
  · intro t
    rw [hi, ← hb.tier_eq, ← hb.limits_eq]
    exact hb.tier_le t
  · rw [hi]
    exact hb.rank_eq
  · have hle := hb.nextRank_le
    rw [hb.nextRank_eq] at hle
    rw [hi]
    exact hle
  · rw [hi]
    exact hb.tokens_pos
  · rw [hi, ho]
    exact hid
  · rw [hi, hse]
  · rw [hi, hst, hb.steps_eq]

/-- Changing the arena mode changes nothing that a draft is measured by. -/
theorem Settled.of_withArenaMode {ctx : AssemblyContext F} {mode : ArenaMode}
    {is : List (PackCandidate F)} {ids : Multiset MemoryId} {draft : PackDraft F}
    (h : Settled (ctx.withArenaMode mode) is ids draft) : Settled ctx is ids draft :=
  ⟨h.used_eq, h.used_le, h.section_le, h.tier_le, h.rank_eq, h.length_lt, h.tokens_pos,
    h.native_nil, h.budget_eq, h.ids_eq, h.selected_eq, h.steps_eq⟩

/-- More inputs to choose from. -/
theorem Settled.mono {ctx : AssemblyContext F} {is is' : List (PackCandidate F)}
    {ids : Multiset MemoryId} {draft : PackDraft F} (h : Settled ctx is ids draft)
    (hs : is ⊆ is') : Settled ctx is' ids draft := by
  obtain ⟨ts, hre, hle⟩ := h.tier_le
  exact ⟨h.used_eq, h.used_le, h.section_le, ⟨ts, hre.imp fun _ _ hr => hr.mono hs, hle⟩,
    h.rank_eq, h.length_lt, h.tokens_pos, h.native_nil, h.budget_eq, h.ids_eq,
    h.selected_eq, h.steps_eq⟩

section Assembly

variable [F32 F]

/-! ## The relevance floor -/

/-- `PackAssemblyOptions::validate_relevance_floor`. -/
def PackAssemblyOptions.validateRelevanceFloor (options : PackAssemblyOptions F) :
    Except PackValidationError Unit :=
  let isInvalid := fun floor =>
    !F32.isFinite floor || !(F32.le (F32.lit 0) floor && F32.le floor (F32.lit 1))
  if options.relevanceFloor.any isInvalid then .error .invalidRelevanceFloor else .ok ()

/-- `PackAssemblyOptions::relevance_floor_omission`. -/
def PackAssemblyOptions.relevanceFloorOmission (options : PackAssemblyOptions F)
    (candidate : PackCandidate F) : Option (PackOmission F) :=
  match options.relevanceFloor with
  | none => none
  | some floor =>
    if F32.lt candidate.relevance floor then
      some (.fromCandidateAt candidate .belowRelevanceFloor .candidateFilter none)
    else none

/-- The candidates that pass the floor. -/
def PackAssemblyOptions.aboveFloor (options : PackAssemblyOptions F)
    (candidates : List (PackCandidate F)) : List (PackCandidate F) :=
  candidates.filter fun candidate => (options.relevanceFloorOmission candidate).isNone

/-- `relevance_floor_omissions`, in candidate order. -/
def PackAssemblyOptions.floorOmissions (options : PackAssemblyOptions F)
    (candidates : List (PackCandidate F)) : List (PackOmission F) :=
  candidates.filterMap options.relevanceFloorOmission

/-- `compare_omissions_for_output`. -/
def compareOmissionsForOutput (left right : PackOmission F) : Ordering :=
  let leftScore := F32.add left.relevance left.utility
  let rightScore := F32.add right.relevance right.utility
  (F32.totalCmp rightScore leftScore).then (left.memoryId.cmp right.memoryId)

/-- The draft with the omissions of the floor joined in. -/
def PackDraft.joinFloorOmissions (draft : PackDraft F) (omissions : List (PackOmission F)) :
    PackDraft F :=
  if omissions.isEmpty then draft
  else
    let omitted := sortBy compareOmissionsForOutput (draft.omitted ++ omissions)
    { draft with
      omitted := omitted
      selectionAudit :=
        { draft.selectionAudit with
          candidateCount := satAdd64 draft.selectionAudit.candidateCount omissions.length
          omittedCount := omitted.length } }

/-! ## The entry points -/

/-- The selector that the profile asks for, on the arena when the mode asks for
that. -/
def assembleProfileDraft (ctx : AssemblyContext F) (reserved : Bool) (query : String)
    (candidates : List (PackCandidate F)) (workspace : Option (PackArenaWorkspace F)) :
    Except PackValidationError (PackDraft F) × Option (PackArenaWorkspace F) :=
  match ctx.profile with
  | .submodular =>
    match workspace with
    | some arena =>
      if ctx.options.arenaMode = .workspaceReuse then
        (assembleFacilityLocationDraftReusingWorkspace ctx reserved query candidates arena).map id
          some
      else (assembleFacilityLocationDraft ctx reserved query candidates, workspace)
    | none => (assembleFacilityLocationDraft ctx reserved query candidates, workspace)
  | .compact | .balanced | .grounding | .orientation | .thorough =>
    match workspace with
    | some arena =>
      if ctx.options.arenaMode = .workspaceReuse then
        (assembleMmrDraftReusingWorkspace ctx query candidates arena).map id some
      else (assembleMmrDraft ctx query candidates, workspace)
    | none => (assembleMmrDraft ctx query candidates, workspace)

/-- `assemble_draft_with_profile_and_options_seeded_inner`. -/
def assembleDraftWithProfileAndOptionsSeededInner (ctx : AssemblyContext F) (reserved : Bool)
    (query : String) (candidates : List (PackCandidate F))
    (workspace : Option (PackArenaWorkspace F)) :
    Except PackValidationError (PackDraft F) × Option (PackArenaWorkspace F) :=
  match ctx.options.validateRelevanceFloor with
  | .error e => (.error e, workspace)
  | .ok () =>
    let ctx :=
      if ctx.options.arenaMode = .workspaceReuse ∧ workspace.isNone then
        ctx.withArenaMode .disabled
      else ctx
    let omissions := ctx.options.floorOmissions candidates
    let (outcome, workspace) :=
      assembleProfileDraft ctx reserved query (ctx.options.aboveFloor candidates) workspace
    (outcome.map (·.joinFloorOmissions omissions), workspace)

/-- `assemble_draft_with_profile_and_options_seeded`. -/
def assembleDraftWithProfileAndOptionsSeeded (ctx : AssemblyContext F) (reserved : Bool)
    (query : String) (candidates : List (PackCandidate F)) :
    Except PackValidationError (PackDraft F) :=
  (assembleDraftWithProfileAndOptionsSeededInner ctx reserved query candidates none).1

/-- `assemble_draft_with_profile_and_options_seeded_in_workspace`. -/
def assembleDraftWithProfileAndOptionsSeededInWorkspace (ctx : AssemblyContext F)
    (reserved : Bool) (query : String) (candidates : List (PackCandidate F))
    (workspace : PackArenaWorkspace F) :
    Except PackValidationError (PackDraft F) × PackArenaWorkspace F :=
  let (outcome, workspace') :=
    assembleDraftWithProfileAndOptionsSeededInner ctx reserved query candidates (some workspace)
  (outcome, workspace'.getD workspace)

/-! ## Every assembled draft is settled -/

/-- The MMR draft is settled. -/
theorem settled_of_assembleMmrDraft {ctx : AssemblyContext F} {qu : String}
    {cs : List (PackCandidate F)} {draft : PackDraft F}
    (h : assembleMmrDraft ctx qu cs = .ok draft) :
    Settled ctx (preparedCandidates ctx cs) (candidateIds cs) draft := by
  obtain ⟨t, -, h⟩ := Except.bind_eq_ok_iff.mp h
  obtain ⟨st, hr, h⟩ := Except.bind_eq_ok_iff.mp h
  cases h
  obtain ⟨hb, hi⟩ := mmrRun_accounted hr
  have hpe : ((mmrCandidates ctx cs).map (·.candidate)).Perm (preparedCandidates ctx cs) := by
    refine ((sortBy_perm _ _).map _).trans ?_
    rw [List.map_map]
    rfl
  refine Settled.of_balanced (l := st.ledger) ?_ ?_ rfl rfl rfl ⟨rfl, rfl⟩ rfl rfl rfl
  · obtain ⟨ts, hb⟩ := hb
    exact ⟨ts, hb.mono hpe.subset⟩
  · rw [hi]
    unfold mmrIds candidateIds
    rw [Multiset.coe_eq_coe]
    have hp : (preparedCandidates ctx cs).map (·.memoryId) = cs.map (·.memoryId) := by
      rw [preparedCandidates, List.map_map]
      exact List.map_congr_left fun c _ => prepareCandidate_memoryId _ _ _
    have hm := hpe.map (·.memoryId)
    rwa [hp, List.map_map] at hm

/-- The facility-location draft is settled. -/
theorem settled_of_assembleFacilityLocationDraft {ctx : AssemblyContext F} {reserved : Bool}
    {qu : String} {cs : List (PackCandidate F)} {draft : PackDraft F}
    (h : assembleFacilityLocationDraft ctx reserved qu cs = .ok draft) :
    Settled ctx (preparedCandidates ctx cs) (candidateIds cs) draft := by
  obtain ⟨t, -, h⟩ := Except.bind_eq_ok_iff.mp h
  obtain ⟨st, hr, h⟩ := Except.bind_eq_ok_iff.mp h
  cases h
  obtain ⟨hb, hi⟩ := facilityAssembly_accounted hr
  exact Settled.of_balanced (l := st.ledger) hb hi rfl rfl rfl ⟨rfl, rfl⟩ rfl rfl rfl

/-- The candidates above the floor and the omissions of the floor are all the
candidates. -/
theorem candidateIds_floor (os : PackAssemblyOptions F) (cas : List (PackCandidate F)) :
    candidateIds (os.aboveFloor cas)
      + ↑((os.floorOmissions cas).map (·.memoryId)) = candidateIds cas := by
  induction cas with
  | nil => rfl
  | cons c cs ih =>
    have hco : candidateIds (c :: cs) = c.memoryId ::ₘ candidateIds cs := rfl
    cases hc : os.relevanceFloorOmission c with
    | none =>
      have ha : os.aboveFloor (c :: cs) = c :: os.aboveFloor cs := by
        simp [PackAssemblyOptions.aboveFloor, hc]
      have ho : os.floorOmissions (c :: cs) = os.floorOmissions cs := by
        simp [PackAssemblyOptions.floorOmissions, hc]
      rw [ha, ho, hco, ← ih]
      rfl
    | some o =>
      have hid : o.memoryId = c.memoryId := by
        unfold PackAssemblyOptions.relevanceFloorOmission at hc
        split at hc
        · cases hc
        · split at hc
          · cases hc; rfl
          · cases hc
      have ha : os.aboveFloor (c :: cs) = os.aboveFloor cs := by
        simp [PackAssemblyOptions.aboveFloor, hc]
      have ho : os.floorOmissions (c :: cs) = o :: os.floorOmissions cs := by
        simp [PackAssemblyOptions.floorOmissions, hc]
      rw [ha, ho, hco, ← ih, List.map_cons, ← Multiset.cons_coe, hid, Multiset.add_cons]

/-- Joining the omissions of the floor settles their candidates too. -/
theorem Settled.joinFloorOmissions {ctx : AssemblyContext F} {is : List (PackCandidate F)}
    {ids : Multiset MemoryId} {draft : PackDraft F} (h : Settled ctx is ids draft)
    (os : List (PackOmission F)) :
    Settled ctx is (ids + ↑(os.map (·.memoryId))) (draft.joinFloorOmissions os) := by
  unfold PackDraft.joinFloorOmissions
  split
  · rename_i hn
    rw [List.isEmpty_iff.mp hn]
    exact ⟨h.used_eq, h.used_le, h.section_le, h.tier_le, h.rank_eq, h.length_lt,
      h.tokens_pos, h.native_nil, h.budget_eq, by simp [← h.ids_eq], h.selected_eq,
      h.steps_eq⟩
  · refine ⟨h.used_eq, h.used_le, h.section_le, h.tier_le, h.rank_eq, h.length_lt,
      h.tokens_pos, h.native_nil, h.budget_eq, ?_, h.selected_eq, h.steps_eq⟩
    have hp := (sortBy_perm compareOmissionsForOutput (draft.omitted ++ os)).map (·.memoryId)
    simp only
    rw [Multiset.coe_eq_coe.mpr hp, List.map_append, ← Multiset.coe_add, ← add_assoc, h.ids_eq]

/-- The draft of either selector is settled. -/
theorem settled_of_assembleProfileDraft {ctx : AssemblyContext F} {reserved : Bool}
    {qu : String} {cs : List (PackCandidate F)} {draft : PackDraft F}
    (h : (assembleProfileDraft ctx reserved qu cs none).1 = .ok draft) :
    Settled ctx (preparedCandidates ctx cs) (candidateIds cs) draft := by
  unfold assembleProfileDraft at h
  split at h
  · exact settled_of_assembleFacilityLocationDraft h
  all_goals exact settled_of_assembleMmrDraft h

/-- An assembled draft is settled over all its candidates. -/
theorem settled_of_assemble {ctx : AssemblyContext F} {reserved : Bool} {qu : String}
    {cs : List (PackCandidate F)} {draft : PackDraft F}
    (h : assembleDraftWithProfileAndOptionsSeeded ctx reserved qu cs = .ok draft) :
    Settled ctx (preparedCandidates ctx cs) (candidateIds cs) draft := by
  unfold assembleDraftWithProfileAndOptionsSeeded assembleDraftWithProfileAndOptionsSeededInner at h
  split at h
  · cases h
  · simp only at h
    -- without a workspace the mode is lowered; either way the selector runs on the same inputs
    have hj : ∀ c' : AssemblyContext F, c' = ctx ∨ c' = ctx.withArenaMode .disabled →
        (assembleProfileDraft c' reserved qu (c'.options.aboveFloor cs) none).1.map
          (·.joinFloorOmissions (c'.options.floorOmissions cs)) = .ok draft →
        Settled ctx (preparedCandidates ctx cs) (candidateIds cs) draft := by
      intro c' hc' hr
      obtain ⟨inn, hi, rfl⟩ := Except.map_eq_ok_iff.mp hr
      have hs := (settled_of_assembleProfileDraft hi).joinFloorOmissions
        (c'.options.floorOmissions cs)
      rw [candidateIds_floor] at hs
      have ha : Settled c' (preparedCandidates c' cs) (candidateIds cs)
          (inn.joinFloorOmissions (c'.options.floorOmissions cs)) :=
        hs.mono (List.map_subset _ (List.filter_subset_self _))
      rcases hc' with rfl | rfl
      · exact ha
      · exact ha.of_withArenaMode
    split at h
    · exact hj _ (Or.inr rfl) h
    · exact hj _ (Or.inl rfl) h

/-- **Assembly is a partition within budget.**  Whatever the profile, the options
that pass validation, the candidates and the functions of the environment: the
draft's tokens are the sum of its items' and stay within the budget, within each
section's quota and within each level-of-detail tier's limit (`tiers` names the
tier each item was rendered at); the ranks are `1, …, n`; and the items and the
omissions together have exactly the memory identifiers of the candidates. -/
theorem assembled_draft_partitions_candidates {ctx : AssemblyContext F} {reserved : Bool}
    {query : String} {candidates : List (PackCandidate F)} {draft : PackDraft F}
    (h : assembleDraftWithProfileAndOptionsSeeded ctx reserved query candidates = .ok draft) :
    draft.usedTokens = (draft.items.map (·.estimatedTokens)).sum ∧
      draft.usedTokens ≤ ctx.budget.maxTokens ∧
      (∀ s, Ledger.sectionTokens draft.items s
        ≤ ((SectionQuotas.forProfile ctx.profile ctx.budget.maxTokens).get s).maxTokens) ∧
      (∃ tiers, List.Forall₂ (Ledger.RenderedAt ctx.env (preparedCandidates ctx candidates))
          tiers draft.items ∧
        ∀ tier, Ledger.tierTokens tiers draft.items tier
          ≤ (PackLodBudgetState.fromOptions ctx.options ctx.budget).limits.limit tier) ∧
      draft.items.map (·.rank) = List.range' 1 draft.items.length ∧
      (↑(draft.items.map (·.memoryId)) : Multiset MemoryId) + ↑(draft.omitted.map (·.memoryId))
        = ↑(candidates.map (·.memoryId)) := by
  have hs := settled_of_assemble h
  exact ⟨hs.used_eq, hs.used_le, hs.section_le, hs.tier_le, hs.rank_eq, hs.ids_eq⟩

/-- A candidate of a small run. -/
def sampleCandidate (id : Fin (2 ^ 128)) (packSection : PackSection) (content : String)
    (estimatedTokens : ℕ) (relevance : ℚ) : PackCandidate ℚ where
  memoryId := ⟨id⟩
  packSection := packSection
  content := content
  estimatedTokens := estimatedTokens
  relevance := relevance
  utility := 1 / 2
  provenance := []
  why := "matches the query"
  diversityKey := none
  trust := ⟨.humanExplicit, none⟩

theorem hundred_pos : 0 < 100 := by decide

theorem hundred_le : 100 ≤ u32Max := by decide

/-- The program's own similarities, a tokenizer that counts characters, and an
explicit relevance floor. -/
def sampleContext : AssemblyContext ℚ where
  env := .ofTokenizer String.length false fun content => (content, [])
  profile := .balanced
  budget := ⟨100, by decide, by decide⟩
  options := { relevanceFloor := some (1 / 10) }

/-- Four candidates: the third is too long to be shown in full, the fourth is below
the floor. -/
def sampleCandidates : List (PackCandidate ℚ) :=
  [sampleCandidate 1 .proceduralRules "run the tests" 10 (9 / 10),
    sampleCandidate 2 .failures "skipped the tests" 12 (8 / 10),
    sampleCandidate 3 .evidence "long transcript" 90 (7 / 10),
    sampleCandidate 4 .decisions "unrelated" 5 (1 / 20)]

theorem assembled_draft_partitions_sample :
    ∃ draft, assembleDraftWithProfileAndOptionsSeeded sampleContext true "tests" sampleCandidates
        = .ok draft ∧
      draft.items.length = 3 ∧ draft.omitted.length = 1 ∧ draft.usedTokens ≤ 100 ∧
      draft.items.map (·.rank) = List.range' 1 draft.items.length ∧
      (↑(draft.items.map (·.memoryId)) : Multiset MemoryId) + ↑(draft.omitted.map (·.memoryId))
        = ↑(sampleCandidates.map (·.memoryId)) := by
  have hc : (assembleDraftWithProfileAndOptionsSeeded sampleContext true "tests"
      sampleCandidates).toOption.map (fun draft => (draft.items.length, draft.omitted.length))
        = some (3, 1) := by decide +kernel
  cases hr : assembleDraftWithProfileAndOptionsSeeded sampleContext true "tests"
      sampleCandidates with
  | error e =>
    rw [hr] at hc
    cases hc
  | ok draft =>
    rw [hr] at hc
    obtain ⟨hi, ho⟩ := Prod.mk.inj (Option.some.inj hc)
    obtain ⟨-, hu, -, -, hra, hid⟩ := assembled_draft_partitions_candidates hr
    exact ⟨draft, rfl, hi, ho, hu, hra, hid⟩

/-! ## Sequences of calls on one arena -/

/-- The inputs of one assembly call, with the outcome of its matrix allocation. -/
structure AssemblyCall (F : Type) where
  ctx : AssemblyContext F
  reserved : Bool
  query : String
  candidates : List (PackCandidate F)

/-- The results of a sequence of calls that share one arena. -/
def assembleAllInWorkspace : List (AssemblyCall F) → PackArenaWorkspace F →
    List (Except PackValidationError (PackDraft F))
  | [], _ => []
  | call :: calls, arena =>
    let (outcome, arena) := assembleDraftWithProfileAndOptionsSeededInWorkspace call.ctx
      call.reserved call.query call.candidates arena
    outcome :: assembleAllInWorkspace calls arena

/-- The selector on the arena returns what the selector without one returns, in
whatever mode and with whatever luck in allocating the matrix. -/
theorem assembleProfileDraft_fst (ctx : AssemblyContext F) (mode : ArenaMode)
    (reserved r' : Bool) (qu : String) (cs : List (PackCandidate F))
    (w : Option (PackArenaWorkspace F)) :
    (assembleProfileDraft ctx reserved qu cs w).1
      = (assembleProfileDraft (ctx.withArenaMode mode) r' qu cs none).1 := by
  have hf := assembleFacilityLocationDraft_reserved ctx reserved r' qu cs
  have hm : (ctx.withArenaMode mode).profile = ctx.profile := rfl
  unfold assembleProfileDraft
  rw [hm, assembleFacilityLocationDraft_withArenaMode, assembleMmrDraft_withArenaMode]
  cases w with
  | none => cases ctx.profile <;> simp [hf]
  | some a =>
    by_cases hr : ctx.options.arenaMode = .workspaceReuse
    · cases ctx.profile <;>
        simp [hr, hf, assembleFacilityLocationDraftReusingWorkspace_fst,
          assembleMmrDraftReusingWorkspace_fst]
    · cases ctx.profile <;> simp [hr, hf]

/-- One call on any arena returns what the call returns without one. -/
theorem assembleInWorkspace_fst (ctx : AssemblyContext F) (reserved r' : Bool)
    (qu : String) (cs : List (PackCandidate F)) (a : PackArenaWorkspace F) :
    (assembleDraftWithProfileAndOptionsSeededInWorkspace ctx reserved qu cs a).1
      = assembleDraftWithProfileAndOptionsSeeded ctx r' qu cs := by
  unfold assembleDraftWithProfileAndOptionsSeededInWorkspace
    assembleDraftWithProfileAndOptionsSeeded assembleDraftWithProfileAndOptionsSeededInner
  cases hv : ctx.options.validateRelevanceFloor with
  | error e => rfl
  | ok _ =>
    simp only [Option.isNone_some, Option.isNone_none, Bool.false_eq_true, and_false, and_true,
      if_false]
    split
    · rw [assembleProfileDraft_fst ctx .disabled reserved r']
      rfl
    · have hm : ctx.withArenaMode ctx.options.arenaMode = ctx := rfl
      rw [assembleProfileDraft_fst ctx ctx.options.arenaMode reserved r', hm]

/-- **Reusing an arena never changes a pack.**  From any arena, fresh, poisoned or
full of leftovers, every result of a sequence of calls equals the result of the
same call without an arena; `reserved` is the luck of those calls in allocating
their matrices. -/
theorem assembleAllInWorkspace_eq_map (reserved : AssemblyCall F → Bool)
    (calls : List (AssemblyCall F)) (arena : PackArenaWorkspace F) :
    assembleAllInWorkspace calls arena
      = calls.map fun call => assembleDraftWithProfileAndOptionsSeeded call.ctx (reserved call)
          call.query call.candidates := by
  induction calls generalizing arena with
  | nil => rfl
  | cons call calls ih =>
    simp only [assembleAllInWorkspace, List.map_cons]
    rw [ih, assembleInWorkspace_fst call.ctx call.reserved (reserved call)]

end Assembly

end Pack
