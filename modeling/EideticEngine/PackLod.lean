/-
# Level-of-detail rendering (`src/pack/mod.rs`)

A candidate is rendered in full, as a truncated preview or as a bare link, in
that order, at the first tier whose budget, section quota and total budget all
have room: `pack_lod_candidate_plan`.  `PlanFits` is what a plan promises, and
`planFits_of_plan` is the only fact about planning that assembly needs.
-/
import EideticEngine.PackQuota

namespace Pack

variable {F : Type}

/-! ## Usage counters -/

/-- `SectionTokenUsage`. -/
structure SectionTokenUsage where
  used : PackSection → ℕ := fun _ => 0

/-- `SectionTokenUsage::tokens_for`. -/
def SectionTokenUsage.tokensFor (usage : SectionTokenUsage) (s : PackSection) : ℕ :=
  usage.used s

/-- `SectionTokenUsage::add_candidate`. -/
def SectionTokenUsage.addCandidate (usage : SectionTokenUsage) (candidate : PackCandidate F) :
    SectionTokenUsage where
  used := Function.update usage.used candidate.packSection
    (satAdd32 (usage.used candidate.packSection) candidate.estimatedTokens)

/-- `lod_share_tokens`. -/
def lodShareTokens (maxTokens basisPoints totalBasisPoints : ℕ) : ℕ :=
  if basisPoints = 0 ∨ maxTokens = 0 ∨ totalBasisPoints = 0 then 0
  else
    let tokens := maxTokens * basisPoints / totalBasisPoints
    max (if tokens ≤ u32Max then tokens else u32Max) 1

/-- `PackLodTier`. -/
inductive PackLodTier where
  | full
  | truncatedPreview
  | linkOnly
  deriving DecidableEq, Repr

/-- `PackLodBudgetLimits`, by tier. -/
structure PackLodBudgetLimits where
  limit : PackLodTier → ℕ

/-- `PackLodBudgetLimits { full, truncated_preview, link_only }`. -/
def PackLodBudgetLimits.mk3 (full truncatedPreview linkOnly : ℕ) : PackLodBudgetLimits where
  limit
    | .full => full
    | .truncatedPreview => truncatedPreview
    | .linkOnly => linkOnly

/-- `PackLodBudgetShares::limits`. -/
def PackLodBudgetShares.limits (shares : PackLodBudgetShares) (budget : TokenBudget) :
    PackLodBudgetLimits :=
  let total := satAdd32 (satAdd32 shares.fullBasisPoints shares.truncatedPreviewBasisPoints)
    shares.linkOnlyBasisPoints
  if total = 0 then .mk3 budget.maxTokens 0 0
  else
    let maxTokens := budget.maxTokens
    let full := min (lodShareTokens maxTokens shares.fullBasisPoints total) maxTokens
    let remainingAfterFull := maxTokens - full
    let truncatedPreview :=
      min (lodShareTokens maxTokens shares.truncatedPreviewBasisPoints total) remainingAfterFull
    let remainingAfterPreview := remainingAfterFull - truncatedPreview
    let linkOnly :=
      min (lodShareTokens maxTokens shares.linkOnlyBasisPoints total) remainingAfterPreview
    .mk3 full truncatedPreview linkOnly

/-- `PackLodBudgetState`. -/
structure PackLodBudgetState where
  limits : PackLodBudgetLimits
  used : PackLodTier → ℕ

namespace PackLodBudgetState

/-- `PackLodBudgetState::from_options`. -/
def fromOptions (options : PackAssemblyOptions F) (budget : TokenBudget) :
    PackLodBudgetState where
  limits :=
    match options.lodBudgetShares with
    | none => .mk3 budget.maxTokens 0 0
    | some shares => shares.limits budget
  used _ := 0

/-- Every tier's limit stays within the budget. -/
theorem fromOptions_limit_le (os : PackAssemblyOptions F) (b : TokenBudget) (t : PackLodTier) :
    (fromOptions os b).limits.limit t ≤ b.maxTokens := by
  unfold fromOptions
  cases os.lodBudgetShares with
  | none => cases t <;> simp [PackLodBudgetLimits.mk3]
  | some ss =>
    simp only [PackLodBudgetShares.limits]
    split
    · cases t <;> simp [PackLodBudgetLimits.mk3]
    · cases t <;> simp only [PackLodBudgetLimits.mk3] <;> omega

/-- `PackLodBudgetState::remaining`. -/
def remaining (state : PackLodBudgetState) (tier : PackLodTier) : ℕ :=
  state.limits.limit tier - state.used tier

/-- `PackLodBudgetState::add`. -/
def add (state : PackLodBudgetState) (tier : PackLodTier) (tokens : ℕ) :
    PackLodBudgetState where
  limits := state.limits
  used := Function.update state.used tier (satAdd32 (state.used tier) tokens)

/-- `PackLodBudgetState::has_compressed_tiers`. -/
def hasCompressedTiers (state : PackLodBudgetState) : Bool :=
  state.limits.limit .truncatedPreview > 0 || state.limits.limit .linkOnly > 0

end PackLodBudgetState

/-! ## Rendering at a tier -/

/-- `max_preview_word_count`. -/
def maxPreviewWordCount (tokenLimit : ℕ) (tokenizerAvailable : Bool) : ℕ :=
  if tokenLimit = u32Max then u64Max
  else
    let bound := if tokenizerAvailable then tokenLimit - 1 else (tokenLimit * 7 - 3 * 2) / (2 * 2)
    min bound u64Max

/-- The search of `truncated_preview_content` over the number of words to keep.
The fuel is `high + 1 - low`, which every round shortens, so it runs out exactly
when `low > high`. -/
def previewSearch (env : PackEnv F) (words : List String) (tokenLimit : ℕ) :
    ℕ → ℕ → ℕ → ℕ → Option String → Option String
  | 0, _, _, _, best => best
  | fuel + 1, low, high, takeCount, best =>
    if low ≤ high then
      let preview := RustText.joinSpace (words.take takeCount) ++ " ..."
      if env.estimateTokensDefault preview ≤ tokenLimit then
        let low := takeCount + 1
        previewSearch env words tokenLimit fuel low high (low + (high - low) / 2) (some preview)
      else
        let high := takeCount - 1
        previewSearch env words tokenLimit fuel low high (low + (high - low) / 2) best
    else best

/-- `truncated_preview_content`. -/
def truncatedPreviewContent (env : PackEnv F) (content : String) (tokenLimit : ℕ) :
    Option String :=
  if tokenLimit = 0 then none
  else
    let words := RustText.splitWhitespace content
    if words.length < 2 then none
    else
      let maxTakeCount :=
        min (words.length - 1) (maxPreviewWordCount tokenLimit env.tokenizerAvailable)
      previewSearch env words tokenLimit maxTakeCount 1 maxTakeCount maxTakeCount none

/-- `preview_lod_candidate`. -/
def previewLodCandidate (env : PackEnv F) (candidate : PackCandidate F) (tokenLimit : ℕ) :
    Option (PackCandidate F) :=
  match truncatedPreviewContent env candidate.content tokenLimit with
  | none => none
  | some content =>
    let estimatedTokens := max (env.estimateTokensDefault content) 1
    if estimatedTokens > tokenLimit then none
    else some { candidate with content := content, estimatedTokens := estimatedTokens }

/-- `link_only_lod_candidate`. -/
def linkOnlyLodCandidate (env : PackEnv F) (candidate : PackCandidate F) (tokenLimit : ℕ) :
    Option (PackCandidate F) :=
  let texts := ["Memory " ++ candidate.memoryId.toText, candidate.memoryId.toText]
  match texts.find? (fun content => env.estimateTokensDefault content ≤ tokenLimit) with
  | none => none
  | some content =>
    let estimatedTokens := max (env.estimateTokensDefault content) 1
    some { candidate with content := content, estimatedTokens := estimatedTokens }

/-- `candidate_for_lod_tier`. -/
def candidateForLodTier (env : PackEnv F) (candidate : PackCandidate F) (tier : PackLodTier)
    (tokenLimit : ℕ) : Option (PackCandidate F) :=
  match tier with
  | .full => if candidate.estimatedTokens ≤ tokenLimit then some candidate else none
  | .truncatedPreview => previewLodCandidate env candidate tokenLimit
  | .linkOnly => linkOnlyLodCandidate env candidate tokenLimit

/-- Rendering changes the content and its token count only. -/
theorem candidateForLodTier_eq {env : PackEnv F} {candidate r : PackCandidate F}
    {t : PackLodTier} {tl : ℕ}
    (h : candidateForLodTier env candidate t tl = some r) :
    r = { candidate with
      content := r.content, estimatedTokens := r.estimatedTokens } := by
  cases t with
  | full =>
    simp only [candidateForLodTier, Option.ite_none_right_eq_some, Option.some.injEq] at h
    obtain ⟨-, rfl⟩ := h
    rfl
  | truncatedPreview =>
    simp only [candidateForLodTier, previewLodCandidate] at h
    split at h
    · cases h
    · split at h
      · cases h
      · cases h; rfl
  | linkOnly =>
    simp only [candidateForLodTier, linkOnlyLodCandidate] at h
    split at h
    · cases h
    · cases h; rfl

/-! ## Planning -/

/-- `facility_candidate_is_feasible`. -/
def facilityCandidateIsFeasible (candidate : PackCandidate F) (usedTokens : ℕ)
    (budget : TokenBudget) (quotas : SectionQuotas) (sectionUsage : SectionTokenUsage) : Bool :=
  if candidate.estimatedTokens = 0 then false
  else if candidate.estimatedTokens > budget.maxTokens - usedTokens then false
  else quotas.hasRoom candidate.packSection (sectionUsage.tokensFor candidate.packSection)
    candidate.estimatedTokens

/-- `PackLodCandidatePlan`. -/
structure PackLodCandidatePlan (F : Type) where
  tier : PackLodTier
  candidate : PackCandidate F

/-- The limits a plan has to respect: the total budget, the section quotas and
the counters spent so far. -/
structure PackLimits where
  usedTokens : ℕ
  budget : TokenBudget
  quotas : SectionQuotas
  sectionUsage : SectionTokenUsage
  lodUsage : PackLodBudgetState

/-- The tier loop body of `pack_lod_candidate_plan`. -/
def planAtTier (env : PackEnv F) (candidate : PackCandidate F) (limits : PackLimits)
    (availableTokens : ℕ) (tier : PackLodTier) : Option (PackLodCandidatePlan F) :=
  let remaining := min (limits.lodUsage.remaining tier) availableTokens
  if remaining = 0 then none
  else
    match candidateForLodTier env candidate tier remaining with
    | none => none
    | some rendered =>
      if rendered.estimatedTokens > remaining then none
      else if facilityCandidateIsFeasible rendered limits.usedTokens limits.budget limits.quotas
          limits.sectionUsage then
        some ⟨tier, rendered⟩
      else none

/-- `pack_lod_candidate_plan`. -/
def packLodCandidatePlan (env : PackEnv F) (candidate : PackCandidate F) (limits : PackLimits) :
    Option (PackLodCandidatePlan F) :=
  let availableTokens := min (limits.budget.maxTokens - limits.usedTokens)
    (limits.quotas.remaining candidate.packSection
      (limits.sectionUsage.tokensFor candidate.packSection))
  [PackLodTier.full, .truncatedPreview, .linkOnly].findSome?
    (planAtTier env candidate limits availableTokens)

/-- What a plan for `candidate` promises about the rendered candidate. -/
structure PlanFits (env : PackEnv F) (candidate : PackCandidate F) (limits : PackLimits)
    (plan : PackLodCandidatePlan F) : Prop where
  rendered : ∃ limit, candidateForLodTier env candidate plan.tier limit = some plan.candidate
  memoryId : plan.candidate.memoryId = candidate.memoryId
  packSection : plan.candidate.packSection = candidate.packSection
  tokens_pos : 0 < plan.candidate.estimatedTokens
  budget : limits.usedTokens + plan.candidate.estimatedTokens ≤ limits.budget.maxTokens
  tier : limits.lodUsage.used plan.tier + plan.candidate.estimatedTokens
    ≤ limits.lodUsage.limits.limit plan.tier
  quota : 0 < (limits.quotas.get candidate.packSection).maxTokens →
    limits.sectionUsage.used candidate.packSection + plan.candidate.estimatedTokens
      ≤ (limits.quotas.get candidate.packSection).maxTokens

/-- A feasible candidate has tokens, fits the budget that is left and has room in
its section. -/
theorem feasible_spec {candidate : PackCandidate F} {used : ℕ} {b : TokenBudget}
    {quotas : SectionQuotas} {su : SectionTokenUsage}
    (h : facilityCandidateIsFeasible candidate used b quotas su = true) :
    0 < candidate.estimatedTokens ∧ used + candidate.estimatedTokens ≤ b.maxTokens ∧
      quotas.hasRoom candidate.packSection (su.tokensFor candidate.packSection)
        candidate.estimatedTokens = true := by
  simp only [facilityCandidateIsFeasible] at h
  split at h
  · cases h
  · rename_i hp
    split at h
    · cases h
    · rename_i hb
      exact ⟨Nat.pos_of_ne_zero hp, by omega, h⟩

/-- Every plan fits the limits it was made for. -/
theorem planFits_of_plan {env : PackEnv F} {candidate : PackCandidate F} {limits : PackLimits}
    {plan : PackLodCandidatePlan F} (h : packLodCandidatePlan env candidate limits = some plan) :
    PlanFits env candidate limits plan := by
  obtain ⟨t, -, ht⟩ := List.exists_of_findSome?_eq_some h
  simp only [planAtTier, Option.ite_none_left_eq_some] at ht
  obtain ⟨-, ht⟩ := ht
  cases hc : candidateForLodTier env candidate t
      (min (limits.lodUsage.remaining t) (min (limits.budget.maxTokens - limits.usedTokens)
        (limits.quotas.remaining candidate.packSection
          (limits.sectionUsage.tokensFor candidate.packSection)))) with
  | none => simp [hc] at ht
  | some r =>
    simp only [hc, Option.ite_none_left_eq_some, Option.ite_none_right_eq_some,
      Option.some.injEq] at ht
    obtain ⟨hle, hf, rfl⟩ := ht
    obtain ⟨hp, hb, hr⟩ := feasible_spec hf
    have heq := candidateForLodTier_eq hc
    have hs : r.packSection = candidate.packSection := by rw [heq]
    rw [hs] at hr
    refine ⟨⟨_, hc⟩, by rw [heq], hs, hp, hb, ?_, ?_⟩
    · have hre : r.estimatedTokens ≤ limits.lodUsage.remaining t := by omega
      simp only [PackLodBudgetState.remaining] at hre
      simp only
      omega
    · exact fun hca => SectionQuotas.le_maxTokens_of_hasRoom hca hr

end Pack
