/-
# The reusable arena (`src/pack/mod.rs`)

`PackArenaWorkspace` keeps the scratch buffers of one assembly for the next.  The
reusing selectors take the buffers out, run the same selection over them, copy the
draft and put the buffers back; an error in between loses them, and a request above
the capacity cap poisons the arena for good.

The source repeats both selection bodies word for word in the reusing functions;
here they are `mmrRun` and `facilityAssembly` over the buffers taken from the arena.
What makes reuse invisible is that a buffer is reset when it is taken, so that no
entry of an earlier call is read.
-/
import EideticEngine.PackFacility
import EideticEngine.PackMmr

namespace Pack

variable {F : Type}

/-! ## Resetting buffers -/

/-- `Vec::resize`. -/
def resize {α : Type} (values : List α) (newLen : ℕ) (value : α) : List α :=
  values.take newLen ++ List.replicate (newLen - values.length) value

/-- `PackDraftScratch::reset_for_candidate_capacity`, on the contents: the three
buffers are cleared, whatever capacity they keep. -/
def PackDraftScratch.resetForCandidateCapacity (scratch : PackDraftScratch F) :
    PackDraftScratch F :=
  { scratch with items := [], omitted := [], steps := [] }

/-- `MmrAssemblyScratch::reset_for_candidate_capacity`. -/
def MmrAssemblyScratch.resetForCandidateCapacity [F32 F] (scratch : MmrAssemblyScratch F)
    (candidateCount : ℕ) : MmrAssemblyScratch F :=
  { scratch with
    draft := scratch.draft.resetForCandidateCapacity
    selectedSignatures := []
    coverageFillCandidates := []
    maxSelectedSimilarities := resize [] candidateCount (F32.lit 0) }

/-- Reset draft buffers are new draft buffers. -/
theorem PackDraftScratch.reset_eq_new (scratch : PackDraftScratch F) :
    scratch.resetForCandidateCapacity = {} := rfl

/-- Reset buffers are new buffers. -/
theorem MmrAssemblyScratch.reset_eq_new [F32 F] (scratch : MmrAssemblyScratch F) (n : ℕ) :
    scratch.resetForCandidateCapacity n = .withCandidateCapacity n := by
  simp [resetForCandidateCapacity, withCandidateCapacity, resize,
    PackDraftScratch.reset_eq_new]

/-! ## The workspace -/

/-- `PackArenaWorkspaceStats`. -/
structure PackArenaWorkspaceStats where
  freshScratchAllocations : ℕ := 0
  resetCount : ℕ := 0
  fallbackCount : ℕ := 0
  maxCandidateCapacity : ℕ := 0
  poisoned : Bool := false
  poisonReason : Option String := none
  deriving DecidableEq, Repr

/-- `PackArenaWorkspace`, without the key that only names its generation. -/
structure PackArenaWorkspace (F : Type) where
  capacityCap : ℕ
  mmrScratch : Option (MmrAssemblyScratch F) := none
  facilityScratch : Option (PackDraftScratch F) := none
  stats : PackArenaWorkspaceStats := {}

namespace PackArenaWorkspace

/-- `PackArenaWorkspace::with_capacity_cap`. -/
def withCapacityCap (capacityCap : ℕ) : PackArenaWorkspace F :=
  { capacityCap := capacityCap }

/-- `PackArenaWorkspace::new`, with `DEFAULT_ARENA_WORKSPACE_CAPACITY`. -/
def new : PackArenaWorkspace F := withCapacityCap 4096

/-- `PackArenaWorkspace::poison`. -/
def poison (arena : PackArenaWorkspace F) (reason : String) : PackArenaWorkspace F :=
  { arena with
    mmrScratch := none
    facilityScratch := none
    stats := { arena.stats with poisoned := true, poisonReason := some reason } }

/-- Count one call that fell back to fresh buffers. -/
def countFallback (arena : PackArenaWorkspace F) : PackArenaWorkspace F :=
  { arena with
    stats := { arena.stats with fallbackCount := satAdd64 arena.stats.fallbackCount 1 } }

/-- `PackArenaWorkspace::can_reuse_candidate_capacity`. -/
def canReuseCandidateCapacity (arena : PackArenaWorkspace F) (candidateCount : ℕ) :
    Bool × PackArenaWorkspace F :=
  if arena.stats.poisoned then (false, arena.countFallback)
  else if candidateCount > arena.capacityCap then
    (false, (arena.poison "candidate_capacity_exceeded").countFallback)
  else
    (true,
      { arena with
        stats :=
          { arena.stats with
            maxCandidateCapacity := max arena.stats.maxCandidateCapacity candidateCount } })

/-- Count one reset of a kept buffer. -/
def countReset (arena : PackArenaWorkspace F) : PackArenaWorkspace F :=
  { arena with stats := { arena.stats with resetCount := satAdd64 arena.stats.resetCount 1 } }

/-- Count one new buffer. -/
def countFresh (arena : PackArenaWorkspace F) : PackArenaWorkspace F :=
  { arena with
    stats :=
      { arena.stats with
        freshScratchAllocations := satAdd64 arena.stats.freshScratchAllocations 1 } }

/-- `PackArenaWorkspace::take_mmr_scratch`. -/
def takeMmrScratch [F32 F] (arena : PackArenaWorkspace F) (candidateCount : ℕ) :
    Option (MmrAssemblyScratch F) × PackArenaWorkspace F :=
  match arena.canReuseCandidateCapacity candidateCount with
  | (false, arena) => (none, arena)
  | (true, arena) =>
    match arena.mmrScratch with
    | some scratch =>
      (some (scratch.resetForCandidateCapacity candidateCount),
        { arena with mmrScratch := none }.countReset)
    | none => (some (.withCandidateCapacity candidateCount), arena.countFresh)

/-- `PackArenaWorkspace::put_mmr_scratch`. -/
def putMmrScratch [F32 F] (arena : PackArenaWorkspace F) (scratch : MmrAssemblyScratch F)
    (candidateCount : ℕ) : PackArenaWorkspace F :=
  { arena with mmrScratch := some (scratch.resetForCandidateCapacity candidateCount) }

/-- `PackArenaWorkspace::take_facility_scratch`. -/
def takeFacilityScratch (arena : PackArenaWorkspace F) (candidateCount : ℕ) :
    Option (PackDraftScratch F) × PackArenaWorkspace F :=
  match arena.canReuseCandidateCapacity candidateCount with
  | (false, arena) => (none, arena)
  | (true, arena) =>
    match arena.facilityScratch with
    | some scratch =>
      (some scratch.resetForCandidateCapacity, { arena with facilityScratch := none }.countReset)
    | none => (some {}, arena.countFresh)

/-- `PackArenaWorkspace::put_facility_scratch`. -/
def putFacilityScratch (arena : PackArenaWorkspace F) (scratch : PackDraftScratch F) :
    PackArenaWorkspace F :=
  { arena with facilityScratch := some scratch.resetForCandidateCapacity }

/-- **No stale entry.**  Buffers taken from any arena are as new. -/
theorem takeMmrScratch_eq_some [F32 F] {a : PackArenaWorkspace F} {n : ℕ}
    {scratch : MmrAssemblyScratch F} (h : (a.takeMmrScratch n).1 = some scratch) :
    scratch = .withCandidateCapacity n := by
  unfold takeMmrScratch at h
  split at h
  · cases h
  · split at h
    · cases h
      exact MmrAssemblyScratch.reset_eq_new _ n
    · cases h
      rfl

theorem takeFacilityScratch_eq_some {a : PackArenaWorkspace F} {n : ℕ}
    {scratch : PackDraftScratch F} (h : (a.takeFacilityScratch n).1 = some scratch) :
    scratch = {} := by
  unfold takeFacilityScratch at h
  split at h
  · cases h
  · split at h
    · cases h
      exact PackDraftScratch.reset_eq_new _
    · cases h
      rfl

end PackArenaWorkspace

/-! ## The arena mode is not read by the selectors -/

/-- The context with another arena mode. -/
def AssemblyContext.withArenaMode (ctx : AssemblyContext F) (mode : ArenaMode) :
    AssemblyContext F :=
  { ctx with options := { ctx.options with arenaMode := mode } }

section Reuse

variable [F32 F]

theorem assembleMmrDraft_withArenaMode (ctx : AssemblyContext F) (mode : ArenaMode) :
    assembleMmrDraft (ctx.withArenaMode mode) = assembleMmrDraft ctx := rfl

theorem assembleFacilityLocationDraft_withArenaMode (ctx : AssemblyContext F) (mode : ArenaMode) :
    assembleFacilityLocationDraft (ctx.withArenaMode mode) = assembleFacilityLocationDraft ctx :=
  rfl

/-! ## The reusing selectors -/

/-- `assemble_mmr_draft_reusing_workspace`.  An error of the selection returns
early, so the buffers taken out are lost. -/
def assembleMmrDraftReusingWorkspace (ctx : AssemblyContext F) (query : String)
    (candidates : List (PackCandidate F)) (arena : PackArenaWorkspace F) :
    Except PackValidationError (PackDraft F) × PackArenaWorkspace F :=
  match trimRequired query .emptyQuery with
  | .error e => (.error e, arena)
  | .ok query =>
    let candidateCount := candidates.length
    match arena.takeMmrScratch candidateCount with
    | (none, arena) => (assembleMmrDraft (ctx.withArenaMode .disabled) query candidates, arena)
    | (some scratch, arena) =>
      match mmrRun ctx scratch (mmrCandidates ctx candidates) with
      | .error e => (.error e, arena)
      | .ok st =>
        (.ok (mmrDraft ctx query candidateCount st),
          arena.putMmrScratch st.scratch candidateCount)

/-- `assemble_facility_location_draft_reusing_workspace`. -/
def assembleFacilityLocationDraftReusingWorkspace (ctx : AssemblyContext F) (reserved : Bool)
    (query : String) (candidates : List (PackCandidate F)) (arena : PackArenaWorkspace F) :
    Except PackValidationError (PackDraft F) × PackArenaWorkspace F :=
  match trimRequired query .emptyQuery with
  | .error e => (.error e, arena)
  | .ok query =>
    let candidateCount := candidates.length
    match arena.takeFacilityScratch candidateCount with
    | (none, arena) =>
      (assembleFacilityLocationDraft (ctx.withArenaMode .disabled) reserved query candidates, arena)
    | (some scratch, arena) =>
      match facilityAssembly ctx reserved scratch candidates with
      | .error e => (.error e, arena)
      | .ok st =>
        (.ok (facilityDraft ctx query candidateCount st),
          arena.putFacilityScratch st.ledger.draft)

/-- Trimming a trimmed query changes nothing. -/
theorem trimRequired_trimRequired {qu t : String} {error : PackValidationError}
    (h : trimRequired qu error = .ok t) : trimRequired t error = .ok t := by
  unfold trimRequired at h
  simp only at h
  split at h
  · cases h
  · rename_i hne
    cases h
    simp [trimRequired, RustText.trim_trim, hne]

/-- The facility-location draft does not depend on whether the matrix was allocated. -/
theorem assembleFacilityLocationDraft_reserved (ctx : AssemblyContext F)
    (reserved r' : Bool) (qu : String) (cs : List (PackCandidate F)) :
    assembleFacilityLocationDraft ctx reserved qu cs
      = assembleFacilityLocationDraft ctx r' qu cs := by
  have hr : facilityAssembly ctx reserved {} cs = facilityAssembly ctx r' {} cs := by
    unfold facilityAssembly
    congr 1
    · exact facilityContext_reserved ctx reserved r' cs
    · rw [facilityContext_reserved ctx reserved r' cs]
  unfold assembleFacilityLocationDraft
  rw [hr]

/-- **Reuse is invisible (MMR).**  From any arena the reusing selector returns what
the plain one does. -/
theorem assembleMmrDraftReusingWorkspace_fst (ctx : AssemblyContext F) (qu : String)
    (cs : List (PackCandidate F)) (a : PackArenaWorkspace F) :
    (assembleMmrDraftReusingWorkspace ctx qu cs a).1 = assembleMmrDraft ctx qu cs := by
  unfold assembleMmrDraftReusingWorkspace
  cases ht : trimRequired qu .emptyQuery with
  | error e => simp [assembleMmrDraft, ht, bind, Except.bind]
  | ok t =>
    have hp : assembleMmrDraft ctx qu cs = assembleMmrDraft ctx t cs := by
      simp [assembleMmrDraft, ht, trimRequired_trimRequired ht]
    simp only
    split
    · rw [assembleMmrDraft_withArenaMode, hp]
    · rename_i scratch a' hta
      -- the buffers of earlier calls were reset, so the run is the one over new buffers
      have hn := PackArenaWorkspace.takeMmrScratch_eq_some (congrArg Prod.fst hta)
      subst hn
      unfold assembleMmrDraft
      rw [ht]
      cases hr : mmrRun ctx (.withCandidateCapacity cs.length) (mmrCandidates ctx cs) with
      | error e => simp [bind, Except.bind, hr]
      | ok st => simp [bind, Except.bind, hr, pure, Except.pure]

/-- **Reuse is invisible (facility location).** -/
theorem assembleFacilityLocationDraftReusingWorkspace_fst (ctx : AssemblyContext F)
    (reserved : Bool) (qu : String) (cs : List (PackCandidate F))
    (a : PackArenaWorkspace F) :
    (assembleFacilityLocationDraftReusingWorkspace ctx reserved qu cs a).1
      = assembleFacilityLocationDraft ctx reserved qu cs := by
  unfold assembleFacilityLocationDraftReusingWorkspace
  cases ht : trimRequired qu .emptyQuery with
  | error e => simp [assembleFacilityLocationDraft, ht, bind, Except.bind]
  | ok t =>
    have hp : assembleFacilityLocationDraft ctx reserved qu cs
        = assembleFacilityLocationDraft ctx reserved t cs := by
      simp [assembleFacilityLocationDraft, ht, trimRequired_trimRequired ht]
    simp only
    split
    · rw [assembleFacilityLocationDraft_withArenaMode, hp]
    · rename_i scratch a' hta
      have hn := PackArenaWorkspace.takeFacilityScratch_eq_some (congrArg Prod.fst hta)
      subst hn
      unfold assembleFacilityLocationDraft
      rw [ht]
      cases hr : facilityAssembly ctx reserved {} cs with
      | error e => simp [bind, Except.bind]
      | ok st => simp [bind, Except.bind, pure, Except.pure]

end Reuse

end Pack
