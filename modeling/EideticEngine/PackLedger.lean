/-
# The ledger of an assembly (`src/pack/mod.rs`)

Both selectors keep the same books: tokens used in total, by section and by
level-of-detail tier, the next rank, and the items, omissions and audit steps
recorded so far.  `Ledger` groups those locals.  `Ledger.Balanced` is what the
books promise at any moment, and it is kept by the only two things a selector
does to them: `pushOmitted` a candidate, and `admitItem` one that was planned within the
limits.
-/
import EideticEngine.PackSignature

namespace Pack

variable {F : Type}

/-! ## Scratch buffers and the ledger -/

/-- `PackDraftScratch`, as the contents of its buffers. -/
structure PackDraftScratch (F : Type) where
  items : List (PackDraftItem F) := []
  omitted : List (PackOmission F) := []
  steps : List (PackSelectionStep F) := []

/-- The omission for a candidate that adds nothing. -/
def redundantOmission (candidate : PackCandidate F) : PackOmission F :=
  .fromCandidate candidate .redundantCandidate none

/-- The inputs of one assembly call that stay fixed while it runs. -/
structure AssemblyContext (F : Type) where
  env : PackEnv F
  profile : ContextPackProfile
  budget : TokenBudget
  options : PackAssemblyOptions F

/-- `SectionQuotas::for_profile(profile, budget.max_tokens())`. -/
def AssemblyContext.quotas (ctx : AssemblyContext F) : SectionQuotas :=
  .forProfile ctx.profile ctx.budget.maxTokens

/-- The locals `used_tokens`, `section_usage`, `lod_usage`, `next_rank` and the
draft buffers of an assembly. -/
structure Ledger (F : Type) where
  usedTokens : ℕ
  sectionUsage : SectionTokenUsage
  lodUsage : PackLodBudgetState
  nextRank : ℕ
  draft : PackDraftScratch F

namespace Ledger

/-- The ledger at the start of an assembly, over the given buffers. -/
def start (ctx : AssemblyContext F) (draft : PackDraftScratch F) : Ledger F where
  usedTokens := 0
  sectionUsage := {}
  lodUsage := .fromOptions ctx.options ctx.budget
  nextRank := 1
  draft := draft

/-- The limits that planning reads. -/
def limits (l : Ledger F) (ctx : AssemblyContext F) : PackLimits where
  usedTokens := l.usedTokens
  budget := ctx.budget
  quotas := ctx.quotas
  sectionUsage := l.sectionUsage
  lodUsage := l.lodUsage

/-- `pack_lod_candidate_plan` against the ledger. -/
def plan (l : Ledger F) (ctx : AssemblyContext F) (candidate : PackCandidate F) :
    Option (PackLodCandidatePlan F) :=
  packLodCandidatePlan ctx.env candidate (l.limits ctx)

/-- Push an omission. -/
def pushOmitted (l : Ledger F) (omission : PackOmission F) : Ledger F :=
  { l with draft := { l.draft with omitted := l.draft.omitted ++ [omission] } }

/-- The omission for a candidate that no budget is left for. -/
def budgetOmission (l : Ledger F) (ctx : AssemblyContext F) (candidate : PackCandidate F) :
    PackOmission F :=
  .fromCandidate candidate .tokenBudgetExceeded
    (some (minimalBudgetForCandidate ctx.profile l.usedTokens
      (l.sectionUsage.tokensFor candidate.packSection) candidate.packSection
      candidate.estimatedTokens))

/-- Record a selected candidate: the arm `Some(total)` of
`used_tokens.checked_add(..)`.  The result is `none` when that addition
overflows, and an error when the next rank does. -/
def admitItem (l : Ledger F) (tier : PackLodTier) (candidate : PackCandidate F)
    (redactions : List PackItemRedaction) (phase : PackSelectionPhase)
    (marginalGain objectiveValue : F) : Except PackValidationError (Option (Ledger F)) :=
  match checkedAdd32 l.usedTokens candidate.estimatedTokens with
  | none => .ok none
  | some total =>
    match checkedAdd32 l.nextRank 1 with
    | none => .error .candidateRankOverflow
    | some nextRank =>
      .ok (some
        { usedTokens := total
          sectionUsage := l.sectionUsage.addCandidate candidate
          lodUsage := l.lodUsage.add tier candidate.estimatedTokens
          nextRank := nextRank
          draft :=
            { l.draft with
              items := l.draft.items
                ++ [PackDraftItem.fromSelectedCandidate l.nextRank candidate redactions phase]
              steps := l.draft.steps ++
                [{ rank := l.nextRank
                   memoryId := candidate.memoryId
                   marginalGain := marginalGain
                   objectiveValue := objectiveValue
                   tokenCost := candidate.estimatedTokens
                   feasible := true
                   coveredFeatures := certificateFeatures candidate }] } })

/-! ## Who is on the books -/

/-- The memory identifiers on the books, selected or omitted. -/
def ids (l : Ledger F) : Multiset MemoryId :=
  ↑(l.draft.items.map (·.memoryId)) + ↑(l.draft.omitted.map (·.memoryId))

@[simp] theorem ids_pushOmitted (l : Ledger F) (o : PackOmission F) :
    (l.pushOmitted o).ids = o.memoryId ::ₘ l.ids := by
  simp only [ids, pushOmitted, List.map_append, List.map_cons, List.map_nil, ← Multiset.coe_add,
    ← add_assoc]
  rw [Multiset.coe_singleton, add_comm, Multiset.singleton_add]

/-- What `admitItem` does when it records the candidate. -/
theorem admitItem_eq_some {l l' : Ledger F} {t : PackLodTier} {candidate : PackCandidate F}
    {rs : List PackItemRedaction} {p : PackSelectionPhase} {g o : F}
    (h : l.admitItem t candidate rs p g o = .ok (some l')) :
    l'.usedTokens = l.usedTokens + candidate.estimatedTokens ∧
      l'.sectionUsage = l.sectionUsage.addCandidate candidate ∧
      l'.lodUsage = l.lodUsage.add t candidate.estimatedTokens ∧
      l'.nextRank = l.nextRank + 1 ∧ l'.nextRank ≤ u32Max ∧
      l'.draft.items = l.draft.items
        ++ [PackDraftItem.fromSelectedCandidate l.nextRank candidate rs p] ∧
      l'.draft.omitted = l.draft.omitted ∧
      l'.draft.steps.map (·.selectedItem) = l.draft.steps.map (·.selectedItem)
        ++ [⟨l.nextRank, candidate.memoryId, candidate.estimatedTokens, true⟩] := by
  unfold admitItem at h
  split at h
  · cases h
  · rename_i total ht
    obtain ⟨rfl, -⟩ := checkedAdd32_eq_some_iff.mp ht
    split at h
    · cases h
    · rename_i nr hr
      obtain ⟨rfl, hle⟩ := checkedAdd32_eq_some_iff.mp hr
      cases h
      exact ⟨rfl, rfl, rfl, rfl, hle, rfl, rfl, List.map_append⟩

theorem ids_admitItem {l l' : Ledger F} {t : PackLodTier} {candidate : PackCandidate F}
    {rs : List PackItemRedaction} {p : PackSelectionPhase} {g o : F}
    (h : l.admitItem t candidate rs p g o = .ok (some l')) :
    l'.ids = candidate.memoryId ::ₘ l.ids := by
  obtain ⟨-, -, -, -, -, hi, ho, -⟩ := admitItem_eq_some h
  simp only [ids, hi, ho, List.map_append, List.map_cons, List.map_nil, ← Multiset.coe_add]
  rw [Multiset.coe_singleton, add_right_comm, add_comm, Multiset.singleton_add]
  rfl

/-! ## Balanced books -/

/-- An item is one of the `inputs`, rendered at a tier. -/
def RenderedAt (env : PackEnv F) (inputs : List (PackCandidate F)) (tier : PackLodTier)
    (item : PackDraftItem F) : Prop :=
  ∃ candidate ∈ inputs, ∃ limit rendered,
    candidateForLodTier env candidate tier limit = some rendered ∧
      item.memoryId = candidate.memoryId ∧ item.content = rendered.content ∧
      item.packSection = rendered.packSection ∧
      item.estimatedTokens = rendered.estimatedTokens

/-- More inputs to choose from. -/
theorem RenderedAt.mono {env : PackEnv F} {is is' : List (PackCandidate F)}
    {t : PackLodTier} {it : PackDraftItem F} (h : RenderedAt env is t it)
    (hs : is ⊆ is') : RenderedAt env is' t it := by
  obtain ⟨candidate, hm, hr⟩ := h
  exact ⟨candidate, hs hm, hr⟩

/-- The tokens of the items that were rendered at a tier, for the list of the
items' tiers. -/
def tierTokens (tiers : List PackLodTier) (items : List (PackDraftItem F)) (tier : PackLodTier) :
    ℕ :=
  (((tiers.zip items).filter (fun p => p.1 = tier)).map (fun p => p.2.estimatedTokens)).sum

/-- The tokens of the items of a section. -/
def sectionTokens (items : List (PackDraftItem F)) (s : PackSection) : ℕ :=
  ((items.filter (fun item => item.packSection = s)).map (·.estimatedTokens)).sum

/-- **Balanced books**: every counter is the sum it stands for, no limit is
exceeded, the ranks count the items, and the audit has a step for each item.  `tiers` names
the tier of each item. -/
structure Balanced (ctx : AssemblyContext F) (inputs : List (PackCandidate F))
    (tiers : List PackLodTier) (l : Ledger F) : Prop where
  used_eq : l.usedTokens = (l.draft.items.map (·.estimatedTokens)).sum
  used_le : l.usedTokens ≤ ctx.budget.maxTokens
  section_eq : ∀ s, l.sectionUsage.used s = sectionTokens l.draft.items s
  section_le : ∀ s, l.sectionUsage.used s ≤ (ctx.quotas.get s).maxTokens
  limits_eq : l.lodUsage.limits = (PackLodBudgetState.fromOptions ctx.options ctx.budget).limits
  tier_eq : ∀ tier, l.lodUsage.used tier = tierTokens tiers l.draft.items tier
  tier_le : ∀ tier, l.lodUsage.used tier ≤ l.lodUsage.limits.limit tier
  rendered : List.Forall₂ (RenderedAt ctx.env inputs) tiers l.draft.items
  rank_eq : l.draft.items.map (·.rank) = List.range' 1 l.draft.items.length
  nextRank_eq : l.nextRank = l.draft.items.length + 1
  nextRank_le : l.nextRank ≤ u32Max
  tokens_pos : ∀ item ∈ l.draft.items, 0 < item.estimatedTokens
  steps_eq : l.draft.steps.map (·.selectedItem) = selectedItemsFromDraftItems l.draft.items

/-- The books are balanced at the start. -/
theorem balanced_start (ctx : AssemblyContext F) (is : List (PackCandidate F)) :
    Balanced ctx is [] (start ctx {}) where
  used_eq := rfl
  used_le := Nat.zero_le _
  section_eq _ := rfl
  section_le _ := Nat.zero_le _
  limits_eq := rfl
  tier_eq _ := rfl
  tier_le _ := Nat.zero_le _
  rendered := List.Forall₂.nil
  rank_eq := rfl
  nextRank_eq := rfl
  nextRank_le := by simp [start, u32Max]
  tokens_pos := by simp [start]
  steps_eq := rfl

/-- Omitting a candidate keeps the books balanced. -/
theorem Balanced.pushOmitted {ctx : AssemblyContext F} {is : List (PackCandidate F)}
    {ts : List PackLodTier} {l : Ledger F} (h : Balanced ctx is ts l)
    (o : PackOmission F) : Balanced ctx is ts (l.pushOmitted o) :=
  ⟨h.used_eq, h.used_le, h.section_eq, h.section_le, h.limits_eq, h.tier_eq, h.tier_le,
    h.rendered, h.rank_eq, h.nextRank_eq, h.nextRank_le, h.tokens_pos, h.steps_eq⟩

/-- The books stay balanced over more inputs. -/
theorem Balanced.mono {ctx : AssemblyContext F} {is is' : List (PackCandidate F)}
    {ts : List PackLodTier} {l : Ledger F} (h : Balanced ctx is ts l)
    (hs : is ⊆ is') : Balanced ctx is' ts l :=
  ⟨h.used_eq, h.used_le, h.section_eq, h.section_le, h.limits_eq, h.tier_eq, h.tier_le,
    h.rendered.imp fun _ _ hr => hr.mono hs, h.rank_eq, h.nextRank_eq, h.nextRank_le,
    h.tokens_pos, h.steps_eq⟩

/-- Adding to one section's counter, below the largest `u32`. -/
theorem used_addCandidate {u : SectionTokenUsage} {candidate : PackCandidate F}
    (h : u.used candidate.packSection + candidate.estimatedTokens ≤ u32Max) (s : PackSection) :
    (u.addCandidate candidate).used s
      = u.used s + (if candidate.packSection = s then candidate.estimatedTokens else 0) := by
  simp only [SectionTokenUsage.addCandidate, Function.update_apply, satAdd32_of_le h]
  by_cases hs : s = candidate.packSection
  · simp [hs]
  · rw [if_neg hs, if_neg (Ne.symm hs), Nat.add_zero]

/-- Adding to one tier's counter, below the largest `u32`. -/
theorem used_add {s : PackLodBudgetState} {ti : PackLodTier} {ts : ℕ}
    (h : s.used ti + ts ≤ u32Max) (t : PackLodTier) :
    (s.add ti ts).used t = s.used t + (if ti = t then ts else 0) := by
  simp only [PackLodBudgetState.add, Function.update_apply, satAdd32_of_le h]
  by_cases ht : t = ti
  · simp [ht]
  · rw [if_neg ht, if_neg (Ne.symm ht), Nat.add_zero]

theorem sectionTokens_concat (items : List (PackDraftItem F)) (it : PackDraftItem F)
    (s : PackSection) :
    sectionTokens (items ++ [it]) s
      = sectionTokens items s + (if it.packSection = s then it.estimatedTokens else 0) := by
  unfold sectionTokens
  by_cases hs : it.packSection = s <;> simp [hs]

theorem tierTokens_concat {ts : List PackLodTier} {items : List (PackDraftItem F)}
    (hl : ts.length = items.length) (ti : PackLodTier) (it : PackDraftItem F)
    (t : PackLodTier) :
    tierTokens (ts ++ [ti]) (items ++ [it]) t
      = tierTokens ts items t + (if ti = t then it.estimatedTokens else 0) := by
  unfold tierTokens
  rw [List.zip_append hl]
  by_cases ht : ti = t <;> simp [ht]

/-- **Admission keeps the books balanced.**  A candidate of the inputs, planned
against the ledger, is recorded at its planned tier; the explanation may have
been changed in between. -/
theorem Balanced.admitItem {ctx : AssemblyContext F} {is : List (PackCandidate F)}
    {ts : List PackLodTier} {l l' : Ledger F} (h : Balanced ctx is ts l)
    {candidate : PackCandidate F} (hm : candidate ∈ is) {plan : PackLodCandidatePlan F}
    (hp : l.plan ctx candidate = some plan) {p : PackCandidate F}
    (hsa : SameRendering p plan.candidate)
    {rs : List PackItemRedaction} {ph : PackSelectionPhase} {g o : F}
    (ha : l.admitItem plan.tier p rs ph g o = .ok (some l')) :
    Balanced ctx is (ts ++ [plan.tier]) l' := by
  have hf : PlanFits ctx.env candidate (l.limits ctx) plan := planFits_of_plan hp
  obtain ⟨hu, hse, hl, hra, hr32, hi, -, hst⟩ := admitItem_eq_some ha
  have hb := hf.budget
  have hti := hf.tier
  have hq := hf.quota (SectionQuotas.forProfile_capped _ _ _)
  simp only [limits, ← hf.packSection, ← hsa.packSection, ← hsa.estimatedTokens] at hb hti hq
  -- neither counter saturates: both limits are `u32` values
  have hq32 := le_trans hq (SectionQuotas.forProfile_le_u32Max ctx.profile ctx.budget.maxTokens _)
  have ht32 : l.lodUsage.used plan.tier + p.estimatedTokens ≤ u32Max := by
    rw [h.limits_eq] at hti
    exact le_trans hti (le_trans
      (PackLodBudgetState.fromOptions_limit_le ctx.options ctx.budget plan.tier)
      ctx.budget.le_u32Max)
  have hle := h.rendered.length_eq
  refine ⟨?_, ?_, ?_, ?_, ?_, ?_, ?_, ?_, ?_, ?_, hr32, ?_, ?_⟩
  · simp [hu, hi, h.used_eq, PackDraftItem.fromSelectedCandidate]
  · rwa [hu]
  · intro s
    rw [hse, used_addCandidate hq32, hi, sectionTokens_concat, h.section_eq]
    rfl
  · intro s
    rw [hse, used_addCandidate hq32]
    by_cases hs : p.packSection = s
    · subst hs
      simpa using hq
    · simpa [hs] using h.section_le s
  · rw [hl]
    exact h.limits_eq
  · intro t
    rw [hl, used_add ht32, hi, tierTokens_concat hle, h.tier_eq]
    rfl
  · intro t
    rw [hl, used_add ht32]
    by_cases ht : plan.tier = t
    · subst ht
      simpa [PackLodBudgetState.add] using hti
    · simpa [PackLodBudgetState.add, ht] using h.tier_le t
  · rw [hi]
    refine List.rel_append h.rendered (List.Forall₂.cons ?_ List.Forall₂.nil)
    obtain ⟨li, hr⟩ := hf.rendered
    exact ⟨candidate, hm, li, plan.candidate, hr,
      hsa.memoryId.trans hf.memoryId, hsa.content, hsa.packSection,
      hsa.estimatedTokens⟩
  · rw [hi, List.map_append, h.rank_eq, List.length_append, List.length_singleton,
      List.range'_concat, h.nextRank_eq]
    simp [PackDraftItem.fromSelectedCandidate, Nat.add_comm]
  · simp [hra, hi, h.nextRank_eq]
  · intro it hite
    rw [hi] at hite
    rcases List.mem_append.mp hite with hite | hite
    · exact h.tokens_pos it hite
    · rw [List.mem_singleton.mp hite]
      exact lt_of_lt_of_eq hf.tokens_pos hsa.estimatedTokens.symm
  · rw [hst, hi, h.steps_eq, selectedItemsFromDraftItems, selectedItemsFromDraftItems,
      List.map_append]
    rfl

end Ledger

end Pack
