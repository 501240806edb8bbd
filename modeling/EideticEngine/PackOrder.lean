/-
# Assembly does not see the order of its candidates (`src/pack/mod.rs`)

Both selectors sort their candidates first, and the omissions of the relevance floor are sorted
in at the end.  With a memory identifier each, candidates and omissions never compare equal, so
that every permutation of the candidates is sorted into one list.
-/
import EideticEngine.ComparisonSort
import EideticEngine.PackAssembly

namespace Pack

open StableSort (sortBy)

variable {F : Type}

/-! ## The comparisons -/

instance {tag : String} : Std.TransCmp (TypedId.cmp : TypedId tag → TypedId tag → Ordering) :=
  ComparisonSort.transCmp_on TypedId.inner

theorem eq_of_typedIdCmp {tag : String} {a b : TypedId tag} (h : a.cmp b = .eq) : a = b := by
  obtain ⟨a⟩ := a
  obtain ⟨b⟩ := b
  have hi : a = b := compare_eq_iff_eq.mp h
  rw [hi]

instance : Std.TransCmp PackSection.cmp := ComparisonSort.transCmp_on PackSection.index

section Order

variable [F32 F]

instance : Std.TransCmp (compareCandidates : PackCandidate F → PackCandidate F → Ordering) :=
  have : Std.TransCmp fun l r : PackCandidate F => F32.totalCmp r.relevance l.relevance :=
    @ComparisonSort.transCmp_on _ _ (fun a b : F => F32.totalCmp b a) _ PackCandidate.relevance
  have : Std.TransCmp fun l r : PackCandidate F => F32.totalCmp r.utility l.utility :=
    @ComparisonSort.transCmp_on _ _ (fun a b : F => F32.totalCmp b a) _ PackCandidate.utility
  have : Std.TransCmp fun l r : PackCandidate F => l.packSection.cmp r.packSection :=
    ComparisonSort.transCmp_on PackCandidate.packSection
  have : Std.TransCmp fun l r : PackCandidate F => l.memoryId.cmp r.memoryId :=
    ComparisonSort.transCmp_on PackCandidate.memoryId
  inferInstanceAs (Std.TransCmp
    (compareLex (fun l r : PackCandidate F => F32.totalCmp r.relevance l.relevance)
      (compareLex (fun l r => F32.totalCmp r.utility l.utility)
        (compareLex (fun l r => l.packSection.cmp r.packSection)
          fun l r => l.memoryId.cmp r.memoryId))))

/-- Candidates that compare equal are of one memory. -/
theorem memoryId_eq_of_compareCandidates {a b : PackCandidate F}
    (h : compareCandidates a b = .eq) : a.memoryId = b.memoryId := by
  unfold compareCandidates at h
  rw [Ordering.then_eq_eq, Ordering.then_eq_eq, Ordering.then_eq_eq] at h
  exact eq_of_typedIdCmp h.2.2.2

instance : Std.TransCmp (compareOmissionsForOutput : PackOmission F → PackOmission F → Ordering) :=
  have : Std.TransCmp fun l r : PackOmission F =>
      F32.totalCmp (F32.add r.relevance r.utility) (F32.add l.relevance l.utility) :=
    @ComparisonSort.transCmp_on _ _ (fun a b : F => F32.totalCmp b a) _
      fun omission : PackOmission F => F32.add omission.relevance omission.utility
  have : Std.TransCmp fun l r : PackOmission F => l.memoryId.cmp r.memoryId :=
    ComparisonSort.transCmp_on PackOmission.memoryId
  inferInstanceAs (Std.TransCmp
    (compareLex
      (fun l r : PackOmission F =>
        F32.totalCmp (F32.add r.relevance r.utility) (F32.add l.relevance l.utility))
      fun l r => l.memoryId.cmp r.memoryId))

theorem memoryId_eq_of_compareOmissions {a b : PackOmission F}
    (h : compareOmissionsForOutput a b = .eq) : a.memoryId = b.memoryId := by
  unfold compareOmissionsForOutput at h
  rw [Ordering.then_eq_eq] at h
  exact eq_of_typedIdCmp h.2

/-! ## What the selectors see -/

/-- The sorted candidates of the MMR selector. -/
theorem mmrCandidates_perm (ctx : AssemblyContext F) {cs cs' : List (PackCandidate F)}
    (hi : (cs.map (·.memoryId)).Nodup) (hp : cs'.Perm cs) :
    mmrCandidates ctx cs' = mmrCandidates ctx cs := by
  have : Std.TransCmp fun l r : MmrCandidate F => compareCandidates l.candidate r.candidate :=
    ComparisonSort.transCmp_on MmrCandidate.candidate
  refine ComparisonSort.insertionSort_congr ?_ (hp.map _)
  intro a ha b hb hcm
  obtain ⟨c, hc, rfl⟩ := List.mem_map.mp ha
  obtain ⟨c', hc', rfl⟩ := List.mem_map.mp hb
  have hid := memoryId_eq_of_compareCandidates hcm
  simp only [MmrCandidate.fromCandidate, prepareCandidate_memoryId] at hid
  rw [List.inj_on_of_nodup_map hi hc hc' hid]

/-- The profiles of the facility-location selector. -/
theorem facilityProfiles_perm (ctx : AssemblyContext F) {cs cs' : List (PackCandidate F)}
    (hi : (cs.map (·.memoryId)).Nodup) (hp : cs'.Perm cs) :
    facilityProfiles ctx cs' = facilityProfiles ctx cs := by
  have hs : sortBy compareCandidates cs' = sortBy compareCandidates cs := by
    refine ComparisonSort.insertionSort_congr ?_ hp
    intro a ha b hb hc
    exact List.inj_on_of_nodup_map hi ha hb (memoryId_eq_of_compareCandidates hc)
  unfold facilityProfiles
  rw [hs]

/-- Either selector returns the same draft for a permutation. -/
theorem assembleProfileDraft_perm (ctx : AssemblyContext F) (reserved : Bool) (qu : String)
    {cs cs' : List (PackCandidate F)}
    (hi : (cs.map (·.memoryId)).Nodup) (hp : cs'.Perm cs) :
    (assembleProfileDraft ctx reserved qu cs' none).1
      = (assembleProfileDraft ctx reserved qu cs none).1 := by
  have hm : assembleMmrDraft ctx qu cs' = assembleMmrDraft ctx qu cs := by
    unfold assembleMmrDraft
    rw [mmrCandidates_perm ctx hi hp, hp.length_eq]
  have hf : assembleFacilityLocationDraft ctx reserved qu cs'
      = assembleFacilityLocationDraft ctx reserved qu cs := by
    unfold assembleFacilityLocationDraft facilityAssembly facilityContext
    simp only [facilityProfiles_perm ctx hi hp, hp.length_eq]
  unfold assembleProfileDraft
  rw [hm, hf]

/-! ## The omissions of the floor -/

/-- The omissions of the floor are sorted in, whatever order they come in. -/
theorem PackDraft.joinFloorOmissions_perm {draft : PackDraft F} {os os' : List (PackOmission F)}
    (hi : ((draft.omitted ++ os).map (·.memoryId)).Nodup)
    (hp : os'.Perm os) :
    draft.joinFloorOmissions os' = draft.joinFloorOmissions os := by
  have hs : sortBy compareOmissionsForOutput (draft.omitted ++ os')
      = sortBy compareOmissionsForOutput (draft.omitted ++ os) := by
    refine ComparisonSort.insertionSort_congr ?_ (hp.append_left _)
    intro a ha b hb hc
    exact List.inj_on_of_nodup_map hi ha hb (memoryId_eq_of_compareOmissions hc)
  have he : os'.isEmpty = os.isEmpty := by
    rw [Bool.eq_iff_iff, List.isEmpty_iff_length_eq_zero, List.isEmpty_iff_length_eq_zero,
      hp.length_eq]
  unfold joinFloorOmissions
  rw [hs, hp.length_eq, he]

/-- No candidate is omitted twice, by a selector and by the floor. -/
theorem nodup_omissions {ctx : AssemblyContext F} {reserved : Bool} {qu : String}
    {cs : List (PackCandidate F)} {draft : PackDraft F}
    (hi : (cs.map (·.memoryId)).Nodup)
    (h : (assembleProfileDraft ctx reserved qu (ctx.options.aboveFloor cs) none).1 = .ok draft) :
    ((draft.omitted ++ ctx.options.floorOmissions cs).map (·.memoryId)).Nodup := by
  have ha := candidateIds_floor ctx.options cs
  rw [← (settled_of_assembleProfileDraft h).ids_eq, add_assoc, Multiset.coe_add,
    ← List.map_append] at ha
  have hn : (candidateIds cs).Nodup := Multiset.coe_nodup.mpr hi
  rw [← ha] at hn
  exact Multiset.coe_nodup.mp (Multiset.nodup_of_le (Multiset.le_add_left _ _) hn)

/-- The whole call without an arena. -/
theorem assembleDraft_perm (ctx : AssemblyContext F) (reserved : Bool) (qu : String)
    {cs cs' : List (PackCandidate F)}
    (hi : (cs.map (·.memoryId)).Nodup) (hp : cs'.Perm cs) :
    assembleDraftWithProfileAndOptionsSeeded ctx reserved qu cs'
      = assembleDraftWithProfileAndOptionsSeeded ctx reserved qu cs := by
  have hj : ∀ ctx : AssemblyContext F,
      (assembleProfileDraft ctx reserved qu (ctx.options.aboveFloor cs') none).1.map
          (·.joinFloorOmissions (ctx.options.floorOmissions cs'))
        = (assembleProfileDraft ctx reserved qu (ctx.options.aboveFloor cs) none).1.map
          (·.joinFloorOmissions (ctx.options.floorOmissions cs)) := by
    intro ctx
    have hab : ((ctx.options.aboveFloor cs).map (·.memoryId)).Nodup :=
      (List.filter_sublist.map _).nodup hi
    have ha : (ctx.options.aboveFloor cs').Perm (ctx.options.aboveFloor cs) := hp.filter _
    rw [assembleProfileDraft_perm ctx reserved qu hab ha]
    cases hr : (assembleProfileDraft ctx reserved qu (ctx.options.aboveFloor cs) none).1 with
    | error e => rfl
    | ok draft =>
      exact congrArg Except.ok
        (PackDraft.joinFloorOmissions_perm (nodup_omissions hi hr) (hp.filterMap _))
  unfold assembleDraftWithProfileAndOptionsSeeded assembleDraftWithProfileAndOptionsSeededInner
  split
  · rfl
  · exact hj _

/-- **Assembly does not depend on the order of its candidates**: for every profile, option set,
budget and environment, any permutation of candidates with a memory identifier each gives the
same draft, or the same error, with an arena or without one. -/
theorem assembled_draft_order_independent (ctx : AssemblyContext F) (reserved : Bool)
    (query : String) {candidates candidates' : List (PackCandidate F)}
    (hids : (candidates.map (·.memoryId)).Nodup) (hperm : candidates'.Perm candidates) :
    assembleDraftWithProfileAndOptionsSeeded ctx reserved query candidates'
        = assembleDraftWithProfileAndOptionsSeeded ctx reserved query candidates ∧
      ∀ arena arena' : PackArenaWorkspace F,
        (assembleDraftWithProfileAndOptionsSeededInWorkspace ctx reserved query candidates'
            arena').1
          = (assembleDraftWithProfileAndOptionsSeededInWorkspace ctx reserved query candidates
            arena).1 := by
  refine ⟨assembleDraft_perm ctx reserved query hids hperm, ?_⟩
  intro arena arena'
  rw [assembleInWorkspace_fst ctx reserved reserved, assembleInWorkspace_fst ctx reserved reserved]
  exact assembleDraft_perm ctx reserved query hids hperm

end Order

/-- The four candidates of the sample, given in the opposite order. -/
theorem sample_draft_order_independent :
    assembleDraftWithProfileAndOptionsSeeded sampleContext true "tests" sampleCandidates.reverse
      = assembleDraftWithProfileAndOptionsSeeded sampleContext true "tests" sampleCandidates :=
  (assembled_draft_order_independent sampleContext true "tests" (by decide)
    sampleCandidates.reverse_perm).1

end Pack
