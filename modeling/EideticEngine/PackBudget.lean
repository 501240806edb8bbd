/-
# The budget that a candidate would need (`src/pack/mod.rs`)

`minimal_budget_for_candidate` searches for the least budget whose section quota reaches what
the section would hold.  A quota is the share of the budget in basis points, rounded up and at
least one, so it is monotone in the budget and the search finds the exact inverse.  Together
with the tokens already used this is the threshold from which on the candidate is feasible.
-/
import EideticEngine.PackAssembly

namespace Pack

variable {F : Type}

/-! ## Quotas as a function of the budget -/

/-- The cap of a section under a budget. -/
def sectionCap (profile : ContextPackProfile) (s : PackSection) (budget : ℕ) : ℕ :=
  ((SectionQuotas.forProfile profile budget).get s).maxTokens

theorem weightBps_bounds (p : ContextPackProfile) (s : PackSection) :
    0 < p.sectionMix.weightBps s ∧ p.sectionMix.weightBps s ≤ 10000 := by
  cases p <;> cases s <;> decide

theorem sectionCap_eq (p : ContextPackProfile) (s : PackSection) (b : ℕ) : sectionCap p s b
      = max (min ((b * p.sectionMix.weightBps s + 9999) / 10000) u32Max) 1 := by
  have hw := (weightBps_bounds p s).1.ne'
  simp only [sectionCap, SectionQuotas.forProfile, quotaForBasisPoints, SectionQuota.capped,
    if_neg hw]

/-- The least budget whose cap reaches `required`, in exact arithmetic.  A single token always
fits. -/
def exactSectionBudget (profile : ContextPackProfile) (s : PackSection) (required : ℕ) : ℕ :=
  if required ≤ 1 then 0
  else (required - 1) * 10000 / profile.sectionMix.weightBps s + 1

/-- **The rounded-up share reaches a number of tokens exactly from that budget on.** -/
theorem le_sectionCap_iff (p : ContextPackProfile) (s : PackSection) {r : ℕ}
    (hr : r ≤ u32Max) (b : ℕ) :
    r ≤ sectionCap p s b ↔ exactSectionBudget p s r ≤ b := by
  obtain ⟨hp, -⟩ := weightBps_bounds p s
  rw [sectionCap_eq, exactSectionBudget]
  set weight := p.sectionMix.weightBps s
  split
  · rename_i ho
    exact iff_of_true (le_max_of_le_right ho) (Nat.zero_le _)
  · rename_i ht
    have hs : r ≤ (b * weight + 9999) / 10000 ↔ (r - 1) * 10000 < b * weight := by
      rw [Nat.le_div_iff_mul_le (by decide)]
      omega
    calc r ≤ max (min ((b * weight + 9999) / 10000) u32Max) 1
        ↔ r ≤ (b * weight + 9999) / 10000 := by omega
      _ ↔ (r - 1) * 10000 < b * weight := hs
      _ ↔ (r - 1) * 10000 / weight < b := (Nat.div_lt_iff_lt_mul hp).symm

/-! ## The search -/

/-- **The search finds the least budget that is enough,** when the upper end is and nothing
below the lower end is. -/
theorem minimalBudgetSearch_eq (p : ContextPackProfile) (s : PackSection) {r : ℕ}
    (hr : r ≤ u32Max) {f low h : ℕ} (hf : h ≤ low + f)
    (hh : h ≤ u32Max) (hl : low ≤ exactSectionBudget p s r)
    (he : exactSectionBudget p s r ≤ h) :
    minimalBudgetSearch p s r f low h = exactSectionBudget p s r := by
  induction f generalizing low h with
  | zero =>
    unfold minimalBudgetSearch
    omega
  | succ f ih =>
    unfold minimalBudgetSearch
    split
    · rename_i hlt
      have hm := le_sectionCap_iff p s hr (low + (h - low) / 2)
      unfold sectionCap at hm
      simp only [hm]
      split
      · exact ih (by omega) (by omega) hl (by omega)
      · rw [satAdd32_of_le (by omega)]
        exact ih (by omega) hh (by omega) he
    · omega

/-- What a section needs is no more than the first upper end. -/
theorem exactSectionBudget_le (p : ContextPackProfile) (s : PackSection) (r : ℕ) :
    exactSectionBudget p s r ≤ (r * 10000 + (p.sectionMix.weightBps s - 1))
        / p.sectionMix.weightBps s := by
  obtain ⟨hp, hle⟩ := weightBps_bounds p s
  unfold exactSectionBudget
  set weight := p.sectionMix.weightBps s
  split
  · exact Nat.zero_le _
  · calc (r - 1) * 10000 / weight + 1
        = ((r - 1) * 10000 + weight) / weight := (Nat.add_div_right _ hp).symm
      _ ≤ (r * 10000 + (weight - 1)) / weight := by
        apply Nat.div_le_div_right
        omega

theorem minimalBudgetForSection_eq {p : ContextPackProfile} {s : PackSection} {r : ℕ}
    (hr : r ≤ u32Max) (hf : exactSectionBudget p s r ≤ u32Max) :
    minimalBudgetForSection p s r = exactSectionBudget p s r := by
  unfold minimalBudgetForSection
  split
  · rename_i hz
    rw [exactSectionBudget, if_pos (by omega)]
  · simp only [if_neg (weightBps_bounds p s).1.ne']
    refine minimalBudgetSearch_eq p s hr (by omega) (by omega) (Nat.zero_le _) ?_
    exact le_min (exactSectionBudget_le p s r) hf

/-! ## The threshold -/

/-- `minimal_budget_for_candidate` in exact arithmetic. -/
def exactBudgetForCandidate (profile : ContextPackProfile) (usedTokens sectionUsed : ℕ)
    (s : PackSection) (candidateTokens : ℕ) : ℕ :=
  max (usedTokens + candidateTokens)
    (exactSectionBudget profile s (sectionUsed + candidateTokens))

/-- Where it fits in 32 bits, the computed budget is the exact one. -/
theorem minimalBudgetForCandidate_eq {p : ContextPackProfile} {used su : ℕ}
    {s : PackSection} {cts : ℕ} (hs : su ≤ used)
    (hf : exactBudgetForCandidate p used su s cts ≤ u32Max) :
    minimalBudgetForCandidate p used su s cts = exactBudgetForCandidate p used su s cts := by
  unfold exactBudgetForCandidate at hf ⊢
  obtain ⟨ht, hb⟩ := max_le_iff.mp hf
  unfold minimalBudgetForCandidate
  rw [satAdd32_of_le ht, satAdd32_of_le (by omega), minimalBudgetForSection_eq (by omega) hb]

/-- A candidate with tokens is feasible when it fits the budget and the cap of its section. -/
theorem feasible_forProfile_iff {candidate : PackCandidate F} {used : ℕ}
    {b : TokenBudget} {p : ContextPackProfile} {su : SectionTokenUsage}
    (hp : 0 < candidate.estimatedTokens)
    (ht : su.tokensFor candidate.packSection + candidate.estimatedTokens ≤ u32Max) :
    facilityCandidateIsFeasible candidate used b (SectionQuotas.forProfile p b.maxTokens)
      su = true ↔
      used + candidate.estimatedTokens ≤ b.maxTokens ∧
        su.tokensFor candidate.packSection + candidate.estimatedTokens
          ≤ sectionCap p candidate.packSection b.maxTokens := by
  have hc := SectionQuotas.forProfile_capped p b.maxTokens candidate.packSection
  constructor
  · intro h
    obtain ⟨-, hb, hr⟩ := feasible_spec h
    exact ⟨hb, SectionQuotas.le_maxTokens_of_hasRoom hc hr⟩
  · rintro ⟨hb, hr⟩
    unfold facilityCandidateIsFeasible
    rw [if_neg hp.ne', if_neg (by omega)]
    unfold SectionQuotas.hasRoom
    simp only [SectionQuota.isDisabled, SectionQuota.isUnlimited,
      beq_eq_false_iff_ne.mpr hc.ne', Bool.and_false, Bool.false_eq_true, if_false,
      checkedAdd32, if_pos ht, decide_eq_true_eq]
    exact hr

/-- **The suggested minimal budget is the exact threshold of feasibility.** -/
theorem feasible_iff_minimalBudget_le (profile : ContextPackProfile) (candidate : PackCandidate F)
    (usedTokens : ℕ) (sectionUsage : SectionTokenUsage) (budget : TokenBudget)
    (hpos : 1 ≤ candidate.estimatedTokens)
    (hsection : sectionUsage.tokensFor candidate.packSection ≤ usedTokens)
    (hfits : exactBudgetForCandidate profile usedTokens
      (sectionUsage.tokensFor candidate.packSection) candidate.packSection
      candidate.estimatedTokens ≤ u32Max) :
    facilityCandidateIsFeasible candidate usedTokens budget
        (SectionQuotas.forProfile profile budget.maxTokens) sectionUsage = true ↔
      minimalBudgetForCandidate profile usedTokens
        (sectionUsage.tokensFor candidate.packSection) candidate.packSection
        candidate.estimatedTokens ≤ budget.maxTokens := by
  rw [minimalBudgetForCandidate_eq hsection hfits]
  obtain ⟨ht, -⟩ := max_le_iff.mp hfits
  rw [feasible_forProfile_iff hpos (by omega), le_sectionCap_iff _ _ (by omega)]
  exact max_le_iff.symm

/-- Eleven more tokens of decisions, of which seven of ten used tokens are, need a budget of 86
under the balanced profile. -/
theorem feasible_iff_minimalBudget_le_decisions :
    facilityCandidateIsFeasible (sampleCandidate 1 .decisions "d" 11 1) 10
        ⟨86, by decide, by decide⟩ (SectionQuotas.forProfile .balanced 86) ⟨fun _ => 7⟩ = true ∧
    facilityCandidateIsFeasible (sampleCandidate 1 .decisions "d" 11 1) 10
        ⟨85, by decide, by decide⟩ (SectionQuotas.forProfile .balanced 85) ⟨fun _ => 7⟩
        = false := by
  have ht := fun b => feasible_iff_minimalBudget_le .balanced
    (sampleCandidate 1 .decisions "d" 11 1) 10 ⟨fun _ => 7⟩ b (by decide) (by decide)
    (by decide)
  refine ⟨(ht ⟨86, by decide, by decide⟩).mpr (by decide), ?_⟩
  rw [← Bool.not_eq_true, ht ⟨85, by decide, by decide⟩]
  decide

end Pack
