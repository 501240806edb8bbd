/-
# Section quotas and minimal budgets (`src/pack/mod.rs`)

Every profile divides the token budget over the five sections in basis points
(`src/models/context_profile.rs`).  A quota caps what a section may spend, with
two sentinels: no constraint, and a disabled section.  The built-in profiles use
neither, which is `forProfile_capped`.
-/
import EideticEngine.PackTypes

namespace Pack

/-! ## Section mixes -/

/-- `ContextProfileSectionMix`, in basis points. -/
structure ContextProfileSectionMix where
  proceduralRulesBps : ℕ
  decisionsBps : ℕ
  failuresBps : ℕ
  evidenceBps : ℕ
  artifactsBps : ℕ

/-- `ContextProfileSectionMix::weight_bps`, on the section that
`context_profile_section` maps a pack section to. -/
def ContextProfileSectionMix.weightBps (mix : ContextProfileSectionMix) : PackSection → ℕ
  | .proceduralRules => mix.proceduralRulesBps
  | .decisions => mix.decisionsBps
  | .failures => mix.failuresBps
  | .evidence => mix.evidenceBps
  | .artifacts => mix.artifactsBps

/-- The section mix of `ContextProfile::builtin`. -/
def ContextPackProfile.sectionMix : ContextPackProfile → ContextProfileSectionMix
  | .compact => ⟨5000, 1500, 2000, 1000, 500⟩
  | .balanced => ⟨3000, 2000, 2000, 2000, 1000⟩
  | .grounding => ⟨3000, 2000, 2000, 2000, 1000⟩
  | .orientation => ⟨3000, 2000, 2000, 2000, 1000⟩
  | .thorough => ⟨2000, 2000, 2000, 2500, 1500⟩
  | .submodular => ⟨2000, 2000, 2000, 2500, 1500⟩

/-! ## Quotas -/

/-- `SectionQuota`. -/
structure SectionQuota where
  minTokens : ℕ
  maxTokens : ℕ
  deriving DecidableEq, Repr

namespace SectionQuota

/-- `SectionQuota::capped`. -/
def capped (maxTokens : ℕ) : SectionQuota := ⟨0, maxTokens⟩

/-- `SectionQuota::disabled`. -/
def disabled : SectionQuota := ⟨1, 0⟩

/-- `SectionQuota::is_unlimited`. -/
def isUnlimited (q : SectionQuota) : Bool := q.minTokens == 0 && q.maxTokens == 0

/-- `SectionQuota::is_disabled`. -/
def isDisabled (q : SectionQuota) : Bool := q.minTokens > 0 && q.maxTokens == 0

/-- `SectionQuota::remaining`. -/
def remaining (q : SectionQuota) (used : ℕ) : ℕ :=
  if q.isDisabled then 0
  else if q.maxTokens = 0 then u32Max
  else q.maxTokens - used

end SectionQuota

/-- `quota_for_basis_points`. -/
def quotaForBasisPoints (totalBudget basisPoints : ℕ) : SectionQuota :=
  if basisPoints = 0 then .disabled
  else
    let product := totalBudget * basisPoints
    .capped (max (min ((product + 9999) / 10000) u32Max) 1)

/-- `SectionQuotas`. -/
structure SectionQuotas where
  get : PackSection → SectionQuota

namespace SectionQuotas

/-- `SectionQuotas::for_profile`, through `from_section_mix`. -/
def forProfile (profile : ContextPackProfile) (totalBudget : ℕ) : SectionQuotas where
  get s := quotaForBasisPoints totalBudget (profile.sectionMix.weightBps s)

/-- `SectionQuotas::has_room`. -/
def hasRoom (quotas : SectionQuotas) (s : PackSection) (used candidateTokens : ℕ) : Bool :=
  let quota := quotas.get s
  if quota.isDisabled then false
  else if quota.isUnlimited then true
  else
    match checkedAdd32 used candidateTokens with
    | some total => total ≤ quota.maxTokens
    | none => false

/-- `SectionQuotas::remaining`. -/
def remaining (quotas : SectionQuotas) (s : PackSection) (used : ℕ) : ℕ :=
  (quotas.get s).remaining used

/-- Every section of a built-in profile has a positive cap. -/
theorem forProfile_capped (p : ContextPackProfile) (tb : ℕ) (s : PackSection) :
    0 < ((forProfile p tb).get s).maxTokens := by
  have hw : p.sectionMix.weightBps s ≠ 0 := by
    cases p <;> cases s <;> decide
  simp only [forProfile, quotaForBasisPoints, if_neg hw, SectionQuota.capped]
  omega

/-- The cap of a section is a `u32`. -/
theorem forProfile_le_u32Max (p : ContextPackProfile) (tb : ℕ) (s : PackSection) :
    ((forProfile p tb).get s).maxTokens ≤ u32Max := by
  simp only [forProfile, quotaForBasisPoints]
  split
  · exact Nat.zero_le _
  · simp only [SectionQuota.capped, u32Max]
    omega

/-- Where a section has a cap, room for more tokens means that they stay below it. -/
theorem le_maxTokens_of_hasRoom {quotas : SectionQuotas} {s : PackSection} {used ts : ℕ}
    (hc : 0 < (quotas.get s).maxTokens) (h : quotas.hasRoom s used ts = true) :
    used + ts ≤ (quotas.get s).maxTokens := by
  have hne : (quotas.get s).maxTokens ≠ 0 := by omega
  simp only [hasRoom, SectionQuota.isDisabled, SectionQuota.isUnlimited,
    beq_eq_false_iff_ne.mpr hne, Bool.and_false, Bool.false_eq_true, if_false] at h
  split at h
  · rename_i total ht
    obtain ⟨rfl, -⟩ := checkedAdd32_eq_some_iff.mp ht
    simpa using h
  · simp at h

end SectionQuotas

/-! ## The budget a candidate would need -/

/-- The binary search of `minimal_budget_for_section`: the least budget in
`[low, high]` whose quota reaches `required`.  The fuel is the length of the
interval, which every round shortens. -/
def minimalBudgetSearch (profile : ContextPackProfile) (s : PackSection) (required : ℕ) :
    ℕ → ℕ → ℕ → ℕ
  | 0, low, _ => low
  | fuel + 1, low, high =>
    if low < high then
      let mid := low + (high - low) / 2
      if required ≤ ((SectionQuotas.forProfile profile mid).get s).maxTokens then
        minimalBudgetSearch profile s required fuel low mid
      else minimalBudgetSearch profile s required fuel (satAdd32 mid 1) high
    else low

/-- `minimal_budget_for_section`. -/
def minimalBudgetForSection (profile : ContextPackProfile) (s : PackSection)
    (requiredTokens : ℕ) : ℕ :=
  if requiredTokens = 0 then 0
  else
    let basisPoints := profile.sectionMix.weightBps s
    if basisPoints = 0 then u32Max
    else
      let high := min ((requiredTokens * 10000 + (basisPoints - 1)) / basisPoints) u32Max
      minimalBudgetSearch profile s requiredTokens high 0 high

/-- `minimal_budget_for_candidate`. -/
def minimalBudgetForCandidate (profile : ContextPackProfile) (usedTokens sectionUsed : ℕ)
    (s : PackSection) (candidateTokens : ℕ) : ℕ :=
  max (satAdd32 usedTokens candidateTokens)
    (minimalBudgetForSection profile s (satAdd32 sectionUsed candidateTokens))

end Pack
