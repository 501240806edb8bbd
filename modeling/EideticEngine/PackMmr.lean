/-
# Maximal-marginal-relevance assembly (`src/pack/mod.rs`)

The default selector.  One failure item may be reserved first; then the loop
takes the candidate of the best marginal gain, with `swap_remove` on the
candidates and on their similarities in step, and selects or omits it; the
candidates without a gain are set aside and fill what room is left at the end.

The assembly runs over scratch buffers that the caller supplies, fresh ones in
`assembleMmrDraft` and reused ones in the workspace path.  `Accounted` is the
invariant of the whole run: the books are balanced, and every candidate is on
the books, still to be taken, or set aside.
-/
import EideticEngine.BoundedLoop
import EideticEngine.ExceptRules
import EideticEngine.ScanBest
import EideticEngine.SwapRemove
import EideticEngine.PackLedger

namespace Pack

open StableSort (sortBy sortBy_perm)

variable {F : Type}

/-! ## Candidates, scratch and state -/

/-- `MmrCandidate`. -/
structure MmrCandidate (F : Type) where
  candidate : PackCandidate F
  signature : CandidateSignature
  redactions : List PackItemRedaction

/-- `MmrCandidate::from_candidate`. -/
def MmrCandidate.fromCandidate (env : PackEnv F) (outputRedactionEnabled : Bool)
    (candidate : PackCandidate F) : MmrCandidate F :=
  let (candidate, redactions) := prepareCandidate env candidate outputRedactionEnabled
  { candidate := candidate
    signature := .ofCandidate candidate
    redactions := redactions }

/-- `MmrAssemblyScratch`, as the contents of its buffers. -/
structure MmrAssemblyScratch (F : Type) where
  draft : PackDraftScratch F
  selectedSignatures : List CandidateSignature
  coverageFillCandidates : List (MmrCandidate F)
  maxSelectedSimilarities : List F

/-- `MmrAssemblyScratch::with_candidate_capacity`. -/
def MmrAssemblyScratch.withCandidateCapacity [F32 F] (candidateCount : ℕ) :
    MmrAssemblyScratch F where
  draft := {}
  selectedSignatures := []
  coverageFillCandidates := []
  maxSelectedSimilarities := List.replicate candidateCount (F32.lit 0)

/-- The locals of an MMR assembly, with the scratch buffers spread out. -/
structure MmrState (F : Type) where
  candidates : List (MmrCandidate F)
  ledger : Ledger F
  selectedSignatures : List CandidateSignature
  coverageFillCandidates : List (MmrCandidate F)
  maxSelectedSimilarities : List F
  selectedItemKeys : Finset (PackSection × MemoryId)
  objectiveValue : F

namespace MmrState

/-- The state at the start of an assembly over the given scratch. -/
def start [F32 F] (ctx : AssemblyContext F) (scratch : MmrAssemblyScratch F)
    (candidates : List (MmrCandidate F)) : MmrState F where
  candidates := candidates
  ledger := .start ctx scratch.draft
  selectedSignatures := scratch.selectedSignatures
  coverageFillCandidates := scratch.coverageFillCandidates
  maxSelectedSimilarities := scratch.maxSelectedSimilarities
  selectedItemKeys := ∅
  objectiveValue := F32.lit 0

/-- The scratch buffers of a state. -/
def scratch (st : MmrState F) : MmrAssemblyScratch F where
  draft := st.ledger.draft
  selectedSignatures := st.selectedSignatures
  coverageFillCandidates := st.coverageFillCandidates
  maxSelectedSimilarities := st.maxSelectedSimilarities

/-- The stored similarity of the candidate at an index. -/
def similarityAt [F32 F] (st : MmrState F) (i : ℕ) : F :=
  st.maxSelectedSimilarities.getD i (F32.lit 0)

/-- `swap_remove` on the candidates and on their similarities. -/
def swapRemove (st : MmrState F) (i : ℕ) : MmrState F :=
  { st with
    candidates := st.candidates.swapRemove i
    maxSelectedSimilarities := st.maxSelectedSimilarities.swapRemove i }

/-- Push an omission onto the ledger. -/
def pushOmitted (st : MmrState F) (omission : PackOmission F) : MmrState F :=
  { st with ledger := st.ledger.pushOmitted omission }

end MmrState

/-! ## Every candidate is accounted for -/

/-- The memory identifiers of a list of candidates. -/
def mmrIds (l : List (MmrCandidate F)) : Multiset MemoryId :=
  ↑(l.map (·.candidate.memoryId))

@[simp] theorem mmrIds_nil : mmrIds ([] : List (MmrCandidate F)) = 0 := rfl

@[simp] theorem mmrIds_cons (c : MmrCandidate F) (l : List (MmrCandidate F)) :
    mmrIds (c :: l) = c.candidate.memoryId ::ₘ mmrIds l := rfl

theorem mmrIds_perm {l l' : List (MmrCandidate F)} (h : l.Perm l') : mmrIds l = mmrIds l' :=
  Multiset.coe_eq_coe.mpr (h.map _)

/-- **The invariant of the run.**  The books are balanced, and the candidates of
the input are on the books, still in the list, set aside, or `pending`, that is
taken out but not yet settled. -/
structure Accounted (ctx : AssemblyContext F) (inputs : List (PackCandidate F))
    (ids : Multiset MemoryId) (pending : List (MmrCandidate F)) (st : MmrState F) : Prop where
  balanced : ∃ tiers, st.ledger.Balanced ctx inputs tiers
  ids_eq : st.ledger.ids + mmrIds st.candidates + mmrIds st.coverageFillCandidates
    + mmrIds pending = ids
  candidates_mem : ∀ c ∈ st.candidates, c.candidate ∈ inputs
  fill_mem : ∀ c ∈ st.coverageFillCandidates, c.candidate ∈ inputs
  pending_mem : ∀ c ∈ pending, c.candidate ∈ inputs

namespace Accounted

variable {ctx : AssemblyContext F} {inputs : List (PackCandidate F)} {ids : Multiset MemoryId}
  {pending : List (MmrCandidate F)} {st : MmrState F} {selection : MmrCandidate F}

/-- Taking a candidate out makes it pending. -/
theorem swapRemove (h : Accounted ctx inputs ids pending st) {i : ℕ}
    (hg : st.candidates[i]? = some selection) :
    Accounted ctx inputs ids (selection :: pending) (st.swapRemove i) := by
  obtain ⟨hlt, rfl⟩ := List.getElem?_eq_some_iff.mp hg
  have hp := List.perm_cons_swapRemove st.candidates i hlt
  have hi := mmrIds_perm hp
  refine ⟨h.balanced, ?_, ?_, h.fill_mem, ?_⟩
  · rw [← h.ids_eq, hi]
    simp only [MmrState.swapRemove, mmrIds_cons, ← Multiset.singleton_add]
    abel
  · intro c hc
    exact h.candidates_mem c (hp.symm.subset (List.mem_cons_of_mem _ hc))
  · intro c hc
    rcases List.mem_cons.mp hc with rfl | hc
    · exact h.candidates_mem _ (List.getElem_mem hlt)
    · exact h.pending_mem c hc

/-- A pending candidate may be set aside. -/
theorem setAside (h : Accounted ctx inputs ids (selection :: pending) st) :
    Accounted ctx inputs ids pending
      { st with coverageFillCandidates := st.coverageFillCandidates ++ [selection] } := by
  have hi : mmrIds (st.coverageFillCandidates ++ [selection])
      = selection.candidate.memoryId ::ₘ mmrIds st.coverageFillCandidates :=
    mmrIds_perm (List.perm_append_singleton _ _)
  refine ⟨h.balanced, ?_, h.candidates_mem, ?_, fun c hc =>
    h.pending_mem c (List.mem_cons_of_mem _ hc)⟩
  · rw [← h.ids_eq]
    simp only [hi, mmrIds_cons, ← Multiset.singleton_add]
    abel
  · intro c hc
    rcases List.mem_append.mp hc with hc | hc
    · exact h.fill_mem c hc
    · rw [List.mem_singleton.mp hc]
      exact h.pending_mem _ List.mem_cons_self

/-- Any change to the ledger that books the pending candidate and keeps it
balanced settles the candidate. -/
theorem settle (h : Accounted ctx inputs ids (selection :: pending) st) {st' : MmrState F}
    (hca : st'.candidates = st.candidates)
    (hf : st'.coverageFillCandidates = st.coverageFillCandidates)
    (hb : ∃ ts, st'.ledger.Balanced ctx inputs ts)
    (hi : st'.ledger.ids = selection.candidate.memoryId ::ₘ st.ledger.ids) :
    Accounted ctx inputs ids pending st' := by
  refine ⟨hb, ?_, by rw [hca]; exact h.candidates_mem,
    by rw [hf]; exact h.fill_mem, fun c hc => h.pending_mem c (List.mem_cons_of_mem _ hc)⟩
  rw [← h.ids_eq, hi, hca, hf]
  simp only [mmrIds_cons, ← Multiset.singleton_add]
  abel

/-- A pending candidate may be omitted. -/
theorem pushOmitted (h : Accounted ctx inputs ids (selection :: pending) st)
    {o : PackOmission F} (hid : o.memoryId = selection.candidate.memoryId) :
    Accounted ctx inputs ids pending (st.pushOmitted o) := by
  obtain ⟨ts, hb⟩ := h.balanced
  exact h.settle rfl rfl ⟨ts, hb.pushOmitted o⟩ (by simp [MmrState.pushOmitted, hid])

/-- A pending candidate that was planned may be recorded. -/
theorem admitItem (h : Accounted ctx inputs ids (selection :: pending) st) {st' : MmrState F}
    (hc : st'.candidates = st.candidates)
    (hf : st'.coverageFillCandidates = st.coverageFillCandidates)
    {plan : PackLodCandidatePlan F} (hp : st.ledger.plan ctx selection.candidate = some plan)
    {p : PackCandidate F} (hs : SameRendering p plan.candidate)
    {ph : PackSelectionPhase} {g o : F}
    (ha : st.ledger.admitItem plan.tier p selection.redactions ph g o = .ok (some st'.ledger)) :
    Accounted ctx inputs ids pending st' := by
  obtain ⟨ts, hb⟩ := h.balanced
  have hm := h.pending_mem selection List.mem_cons_self
  refine h.settle hc hf ⟨_, hb.admitItem hm hp hs ha⟩ ?_
  rw [Ledger.ids_admitItem ha, hs.memoryId, (planFits_of_plan hp).memoryId]

/-- The order of the pending candidates does not matter. -/
theorem perm (h : Accounted ctx inputs ids pending st) {p' : List (MmrCandidate F)}
    (hp : p'.Perm pending) : Accounted ctx inputs ids p' st :=
  ⟨h.balanced, by rw [mmrIds_perm hp]; exact h.ids_eq, h.candidates_mem, h.fill_mem,
    fun c hc => h.pending_mem c (hp.subset hc)⟩

/-- Emptying the set-aside buffer makes its candidates pending. -/
theorem takeFill (h : Accounted ctx inputs ids [] st) :
    Accounted ctx inputs ids st.coverageFillCandidates
      { st with coverageFillCandidates := [] } where
  balanced := h.balanced
  ids_eq := by
    rw [← h.ids_eq]
    simp
  candidates_mem := h.candidates_mem
  fill_mem := by simp
  pending_mem := h.fill_mem

end Accounted

section Selection

variable [F32 F]

/-! ## Gains and choices -/

/-- `strict_mmr_marginal_gain_from_similarity`, with the relevance weight 0.75. -/
def strictMmrMarginalGainFromSimilarity (candidate : MmrCandidate F) (maxSimilarity : F) : F :=
  if F32.le (F32.lit 1) maxSimilarity then F32.lit 0
  else
    F32.sub (F32.mul (F32.lit (3 / 4)) candidate.candidate.relevance)
      (F32.mul (F32.sub (F32.lit 1) (F32.lit (3 / 4))) maxSimilarity)

/-- `max_selected_similarity`. -/
def maxSelectedSimilarity (env : PackEnv F) (candidate : CandidateSignature)
    (selected : List CandidateSignature) : F :=
  (selected.map (env.candidateSignatureSimilarity candidate)).foldl
    (fun a b => if F32.isNan b then a else F32.max a b) (F32.lit 0)

/-- `strict_mmr_marginal_gain`. -/
def strictMmrMarginalGain (env : PackEnv F) (candidate : MmrCandidate F)
    (selected : List CandidateSignature) : F :=
  strictMmrMarginalGainFromSimilarity candidate
    (maxSelectedSimilarity env candidate.signature selected)

/-- `update_mmr_max_similarities`. -/
def updateMmrMaxSimilarities (env : PackEnv F) (maxSelectedSimilarities : List F)
    (candidates : List (MmrCandidate F)) (selected : CandidateSignature) : List F :=
  List.zipWith (fun maxSimilarity candidate =>
      let selectedSimilarity := env.candidateSignatureSimilarity candidate.signature selected
      if F32.isNan selectedSimilarity then maxSimilarity
      else F32.max maxSimilarity selectedSimilarity) maxSelectedSimilarities candidates
    ++ maxSelectedSimilarities.drop candidates.length

/-- `select_next_candidate_index`, with the candidate at that index; `none` when
no candidate is left, where the loop ends. -/
def selectNextCandidateIndex (st : MmrState F) : Option (ℕ × MmrCandidate F) :=
  st.candidates.scanBest (fun _ _ => true) fun (i, candidate) (bestIndex, best) =>
    (F32.totalCmp (strictMmrMarginalGainFromSimilarity best (st.similarityAt bestIndex))
        (strictMmrMarginalGainFromSimilarity candidate (st.similarityAt i))).then
      (compareCandidates candidate.candidate best.candidate) == .lt

/-- `anti_pattern_first_mmr_candidate_index`, with the candidate at that index. -/
def antiPatternFirstMmrCandidateIndex (ctx : AssemblyContext F) (st : MmrState F) :
    Option (ℕ × MmrCandidate F) :=
  st.candidates.scanBest
    (fun i selection =>
      isAntiPatternFirstCandidate selection.candidate ctx.options.effectiveRelevanceFloor
        && !F32.le (strictMmrMarginalGainFromSimilarity selection (st.similarityAt i)) (F32.lit 0)
        && (st.ledger.plan ctx selection.candidate).isSome)
    fun (_, selection) (_, best) => compareCandidates selection.candidate best.candidate == .lt

/-! ## The three phases -/

/-- Record a planned candidate in the first two phases, or omit it when the token
count overflows. -/
def mmrSelect (ctx : AssemblyContext F) (st : MmrState F) (selection : MmrCandidate F)
    (tier : PackLodTier) (candidate : PackCandidate F) (phase : PackSelectionPhase)
    (marginalGain : F) : Except PackValidationError (MmrState F) :=
  let objectiveValue := F32.add st.objectiveValue (F32.max marginalGain (F32.lit 0))
  match st.ledger.admitItem tier candidate selection.redactions phase marginalGain
      objectiveValue with
  | .error e => .error e
  | .ok none => .ok (st.pushOmitted (st.ledger.budgetOmission ctx selection.candidate))
  | .ok (some ledger) =>
    .ok { st with
      ledger := ledger
      objectiveValue := objectiveValue
      selectedItemKeys := insert (candidate.packSection, candidate.memoryId) st.selectedItemKeys
      selectedSignatures := st.selectedSignatures ++ [selection.signature]
      maxSelectedSimilarities := updateMmrMaxSimilarities ctx.env st.maxSelectedSimilarities
        st.candidates selection.signature }

/-- The reservation of one failure item before the loop. -/
def mmrAntiPatternFirst (ctx : AssemblyContext F) (st : MmrState F) :
    Except PackValidationError (MmrState F) :=
  if ctx.options.includeAntiPatternFirst then
    match antiPatternFirstMmrCandidateIndex ctx st with
    | none => .ok st
    | some (i, selection) =>
      let marginalGain := strictMmrMarginalGainFromSimilarity selection (st.similarityAt i)
      let st := st.swapRemove i
      match st.ledger.plan ctx selection.candidate with
      -- the source has no omission here: the index was chosen because a plan exists
      | none => .ok st
      | some plan =>
        mmrSelect ctx st selection plan.tier (markAntiPatternFirstCandidate plan.candidate)
          .antiPatternFirst marginalGain
  else .ok st

/-- One round of `while !candidates.is_empty()`. -/
def mmrRound (ctx : AssemblyContext F) (st : MmrState F) :
    MmrState F ⊕ Except PackValidationError (MmrState F) :=
  match selectNextCandidateIndex st with
  | none => .inr (.ok st)
  | some (i, selection) =>
    let marginalGain := strictMmrMarginalGainFromSimilarity selection (st.similarityAt i)
    let st := st.swapRemove i
    if F32.le marginalGain (F32.lit 0) then
      .inl { st with coverageFillCandidates := st.coverageFillCandidates ++ [selection] }
    else
      match st.ledger.plan ctx selection.candidate with
      | none => .inl (st.pushOmitted (st.ledger.budgetOmission ctx selection.candidate))
      | some plan =>
        match mmrSelect ctx st selection plan.tier plan.candidate .strictMmr marginalGain with
        | .error e => .inr (.error e)
        | .ok st => .inl st

/-- One round of the coverage-fill loop; the state carries `coverage_fill_count`. -/
def coverageFillStep (ctx : AssemblyContext F) (coverageFillLimit : ℕ)
    (acc : MmrState F × ℕ) (selection : MmrCandidate F) :
    Except PackValidationError (MmrState F × ℕ) :=
  let (st, coverageFillCount) := acc
  let candidate := selection.candidate
  if (candidate.packSection, candidate.memoryId) ∈ st.selectedItemKeys then
    .ok (st.pushOmitted (redundantOmission candidate), coverageFillCount)
  else if F32.lt candidate.relevance ctx.options.effectiveRelevanceFloor then
    .ok (st.pushOmitted (.fromCandidateAt candidate .belowRelevanceFloor .candidateFilter none),
      coverageFillCount)
  else if coverageFillCount ≥ coverageFillLimit then
    if coverageFillLimit = 0 then
      .ok (st.pushOmitted (st.ledger.budgetOmission ctx candidate), coverageFillCount)
    else .ok (st.pushOmitted (redundantOmission candidate), coverageFillCount)
  else
    match st.ledger.plan ctx candidate with
    | none => .ok (st.pushOmitted (st.ledger.budgetOmission ctx candidate), coverageFillCount)
    | some plan =>
      let marginalGain := strictMmrMarginalGain ctx.env selection st.selectedSignatures
      match st.ledger.admitItem plan.tier plan.candidate selection.redactions .coverageFill
          marginalGain st.objectiveValue with
      | .error e => .error e
      | .ok none =>
        .ok (st.pushOmitted (st.ledger.budgetOmission ctx candidate), coverageFillCount)
      | .ok (some ledger) =>
        .ok ({ st with
          ledger := ledger
          selectedItemKeys :=
            insert (plan.candidate.packSection, plan.candidate.memoryId) st.selectedItemKeys
          selectedSignatures := st.selectedSignatures ++ [selection.signature] },
          satAdd64 coverageFillCount 1)

/-- The coverage-fill phase. -/
def mmrCoverageFill (ctx : AssemblyContext F) (st : MmrState F) :
    Except PackValidationError (MmrState F) :=
  let fill := st.coverageFillCandidates
  let st := { st with coverageFillCandidates := [] }
  if ctx.options.includeCoverageFill then
    let sorted := sortBy (fun left right => compareCandidates left.candidate right.candidate) fill
    (sorted.foldlM (coverageFillStep ctx st.ledger.draft.items.length) (st, 0)).map Prod.fst
  else
    .ok (fill.foldl (fun st selection => st.pushOmitted (redundantOmission selection.candidate)) st)

/-! ## What a round does -/

/-- What recording a planned candidate leaves alone, and what it does to the
ledger. -/
theorem mmrSelect_eq_ok {ctx : AssemblyContext F} {st st' : MmrState F}
    {selection : MmrCandidate F} {t : PackLodTier} {candidate : PackCandidate F}
    {p : PackSelectionPhase} {g : F}
    (h : mmrSelect ctx st selection t candidate p g = .ok st') :
    st'.candidates = st.candidates ∧ st'.coverageFillCandidates = st.coverageFillCandidates ∧
      (st'.ledger = st.ledger.pushOmitted (st.ledger.budgetOmission ctx selection.candidate) ∨
        ∃ o, st.ledger.admitItem t candidate selection.redactions p g o
          = .ok (some st'.ledger)) := by
  unfold mmrSelect at h
  simp only at h
  split at h
  · cases h
  · cases h
    exact ⟨rfl, rfl, Or.inl rfl⟩
  · rename_i l ha
    cases h
    exact ⟨rfl, rfl, Or.inr ⟨_, ha⟩⟩

/-- The next candidate is the one at the returned index. -/
theorem getElem?_of_selectNextCandidateIndex {st : MmrState F} {i : ℕ}
    {selection : MmrCandidate F} (h : selectNextCandidateIndex st = some (i, selection)) :
    st.candidates[i]? = some selection :=
  (List.scanBest_eq_some h).1

/-- Only an empty list of candidates has no next one. -/
theorem selectNextCandidateIndex_eq_none_iff {st : MmrState F} :
    selectNextCandidateIndex st = none ↔ st.candidates = [] :=
  List.scanBest_eq_none_iff (fun _ _ => rfl)

/-- **The outcomes of a round**: no candidate is left, an error, or one candidate
is taken out and set aside, omitted, or recorded as planned. -/
theorem mmrRound_cases (ctx : AssemblyContext F) (st : MmrState F) :
    (st.candidates = [] ∧ mmrRound ctx st = .inr (.ok st)) ∨
      (∃ e, mmrRound ctx st = .inr (.error e)) ∨
      ∃ i selection st', st.candidates[i]? = some selection ∧ mmrRound ctx st = .inl st' ∧
        (st' = { st.swapRemove i with
            coverageFillCandidates := st.coverageFillCandidates ++ [selection] } ∨
          (∃ o, o.memoryId = selection.candidate.memoryId ∧ st' = (st.swapRemove i).pushOmitted o) ∨
          ∃ plan g, st.ledger.plan ctx selection.candidate = some plan ∧
            mmrSelect ctx (st.swapRemove i) selection plan.tier plan.candidate .strictMmr g
              = .ok st') := by
  cases hn : selectNextCandidateIndex st with
  | none =>
    left
    exact ⟨selectNextCandidateIndex_eq_none_iff.mp hn, by simp [mmrRound, hn]⟩
  | some next =>
    obtain ⟨i, selection⟩ := next
    have hg := getElem?_of_selectNextCandidateIndex hn
    right
    generalize hr : mmrRound ctx st = outcome
    simp only [mmrRound, hn] at hr
    split at hr
    · right
      exact ⟨i, selection, _, hg, hr.symm, Or.inl rfl⟩
    · split at hr
      · right
        exact ⟨i, selection, _, hg, hr.symm, Or.inr (Or.inl ⟨_, rfl, rfl⟩)⟩
      · rename_i plan hp
        split at hr
        · rename_i e _
          exact Or.inl ⟨e, hr.symm⟩
        · rename_i st' hs
          right
          exact ⟨i, selection, st', hg, hr.symm, Or.inr (Or.inr ⟨plan, _, hp, hs⟩)⟩

/-- A continuing round takes one candidate out of the list. -/
theorem length_candidates_mmrRound {ctx : AssemblyContext F} {st st' : MmrState F}
    (h : mmrRound ctx st = .inl st') : st'.candidates.length < st.candidates.length := by
  have ht : ∀ i selection, st.candidates[i]? = some selection →
      (st.swapRemove i).candidates.length < st.candidates.length := by
    intro i selection hg
    obtain ⟨hlt, -⟩ := List.getElem?_eq_some_iff.mp hg
    have hl : (st.swapRemove i).candidates.length = st.candidates.length - 1 :=
      List.length_swapRemove _ _
    omega
  rcases mmrRound_cases ctx st with ⟨-, hr⟩ | ⟨e, hr⟩ | ⟨i, selection, st₁, hg, hr, hc⟩
  · rw [hr] at h; cases h
  · rw [hr] at h; cases h
  · rw [hr] at h
    cases h
    rcases hc with rfl | ⟨o, -, rfl⟩ | ⟨plan, g, -, hs⟩
    · exact ht i selection hg
    · exact ht i selection hg
    · rw [(mmrSelect_eq_ok hs).1]
      exact ht i selection hg

/-- The selection loop: every round takes one candidate away. -/
def mmrLoop (ctx : AssemblyContext F) :
    Loop (MmrState F) (Except PackValidationError (MmrState F)) where
  step := mmrRound ctx
  Inv _ := True
  measure st := st.candidates.length
  inv_step _ _ _ _ := trivial
  measure_step _ _ _ h := length_candidates_mmrRound h

/-! ## The assembly -/

/-- The three phases of `assemble_mmr_draft`, over the given scratch. -/
def mmrRun (ctx : AssemblyContext F) (scratch : MmrAssemblyScratch F)
    (candidates : List (MmrCandidate F)) : Except PackValidationError (MmrState F) := do
  let st ← mmrAntiPatternFirst ctx (.start ctx scratch candidates)
  let st ← (mmrLoop ctx).run st trivial
  mmrCoverageFill ctx st

/-- The candidates as the assembly sorts them. -/
def mmrCandidates (ctx : AssemblyContext F) (candidates : List (PackCandidate F)) :
    List (MmrCandidate F) :=
  sortBy (fun left right => compareCandidates left.candidate right.candidate)
    (candidates.map (.fromCandidate ctx.env ctx.options.outputRedactionEnabled))

/-- The draft that an MMR assembly returns. -/
def mmrDraft (ctx : AssemblyContext F) (query : String) (candidateCount : ℕ) (st : MmrState F) :
    PackDraft F where
  query := query
  budget := ctx.budget
  usedTokens := st.ledger.usedTokens
  evidenceItems := []
  ruleItems := []
  items := st.ledger.draft.items
  omitted := st.ledger.draft.omitted
  hash := none
  selectionAudit :=
    { profile := ctx.profile
      objective := .mmrRedundancy
      algorithmId := "mmr_with_coverage_fill_v1"
      algorithmDescription :=
        "Deterministic MMR ranking with coverage-fill for relevant candidates that still fit "
          ++ "the token budget."
      candidateCount := candidateCount
      selectedCount := st.ledger.draft.items.length
      omittedCount := st.ledger.draft.omitted.length
      budgetLimit := ctx.budget.maxTokens
      budgetUsed := st.ledger.usedTokens
      totalObjectiveValue := st.objectiveValue
      monotone := false
      submodular := false
      selectedItems := selectedItemsFromDraftItems st.ledger.draft.items
      steps := st.ledger.draft.steps }

/-- `assemble_mmr_draft`. -/
def assembleMmrDraft (ctx : AssemblyContext F) (query : String)
    (candidates : List (PackCandidate F)) : Except PackValidationError (PackDraft F) := do
  let query ← trimRequired query .emptyQuery
  let candidateCount := candidates.length
  let st ← mmrRun ctx (.withCandidateCapacity candidateCount) (mmrCandidates ctx candidates)
  return mmrDraft ctx query candidateCount st

/-! ## The run keeps every candidate accounted for -/

namespace Accounted

variable {ctx : AssemblyContext F} {inputs : List (PackCandidate F)} {ids : Multiset MemoryId}
  {pending : List (MmrCandidate F)} {st : MmrState F} {selection : MmrCandidate F}

/-- Recording a planned candidate settles it. -/
theorem select (h : Accounted ctx inputs ids (selection :: pending) st) {st' : MmrState F}
    {plan : PackLodCandidatePlan F} (hp : st.ledger.plan ctx selection.candidate = some plan)
    {p : PackCandidate F} (hsa : SameRendering p plan.candidate)
    {ph : PackSelectionPhase} {g : F}
    (hs : mmrSelect ctx st selection plan.tier p ph g = .ok st') :
    Accounted ctx inputs ids pending st' := by
  obtain ⟨hc, hf, hl | ⟨o, ha⟩⟩ := mmrSelect_eq_ok hs
  · obtain ⟨ts, hb⟩ := h.balanced
    refine h.settle hc hf ⟨ts, ?_⟩ ?_
    · rw [hl]
      exact hb.pushOmitted _
    · rw [hl, Ledger.ids_pushOmitted]
      rfl
  · exact h.admitItem hc hf hp hsa ha

/-- The reservation keeps everything accounted for: the reserved candidate was
chosen because it has a plan, so it is never lost. -/
theorem antiPatternFirst (h : Accounted ctx inputs ids [] st) {st' : MmrState F}
    (hr : mmrAntiPatternFirst ctx st = .ok st') : Accounted ctx inputs ids [] st' := by
  unfold mmrAntiPatternFirst at hr
  split at hr
  · split at hr
    · cases hr
      exact h
    · rename_i i selection hi
      obtain ⟨hg, he⟩ := List.scanBest_eq_some hi
      simp only [Bool.and_eq_true] at he
      simp only at hr
      split at hr
      · rename_i hp
        have hs := he.2
        rw [show st.ledger.plan ctx selection.candidate = none from hp] at hs
        cases hs
      · rename_i plan hp
        exact (h.swapRemove hg).select hp
          (sameRendering_markAntiPatternFirstCandidate plan.candidate) hr
  · cases hr
    exact h

/-- A round keeps everything accounted for. -/
theorem round (h : Accounted ctx inputs ids [] st) {st' : MmrState F}
    (hro : mmrRound ctx st = .inl st') : Accounted ctx inputs ids [] st' := by
  rcases mmrRound_cases ctx st with ⟨-, hr⟩ | ⟨e, hr⟩ | ⟨i, selection, st₁, hg, hr, hc⟩
  · rw [hr] at hro; cases hro
  · rw [hr] at hro; cases hro
  · rw [hr] at hro
    cases hro
    have ht := h.swapRemove hg
    rcases hc with rfl | ⟨o, hid, rfl⟩ | ⟨plan, g, hp, hs⟩
    · exact ht.setAside
    · exact ht.pushOmitted hid
    · exact ht.select hp (SameRendering.refl _) hs

/-- The loop ends with an empty list and everything accounted for. -/
theorem loop (h : Accounted ctx inputs ids [] st) {st' : MmrState F}
    (hru : (mmrLoop ctx).run st trivial = .ok st') :
    Accounted ctx inputs ids [] st' ∧ st'.candidates = [] := by
  have ha : ∀ r, (mmrLoop ctx).run st trivial = r → ∀ st', r = .ok st' →
      Accounted ctx inputs ids [] st' ∧ st'.candidates = [] := by
    rintro r rfl
    refine (mmrLoop ctx).run_induction (P := Accounted ctx inputs ids [])
      (Q := fun r => ∀ st', r = .ok st' → Accounted ctx inputs ids [] st' ∧ st'.candidates = [])
      (fun s s' _ hs hst => hs.round hst) ?_ st trivial h
    intro s r _ hs hst st' hr
    subst hr
    rcases mmrRound_cases ctx s with ⟨hn, he⟩ | ⟨e, he⟩ | ⟨i, selection, s₁, -, he, -⟩
    · rw [show mmrRound ctx s = .inr (.ok st') from hst] at he
      cases he
      exact ⟨hs, hn⟩
    · rw [show mmrRound ctx s = .inr (.ok st') from hst] at he
      cases he
    · rw [show mmrRound ctx s = .inr (.ok st') from hst] at he
      cases he
  exact ha _ rfl st' hru

/-- A round of the coverage fill settles its candidate. -/
theorem coverageFillStep {l count c' : ℕ} {st' : MmrState F}
    (h : Accounted ctx inputs ids (selection :: pending) st)
    (hs : Pack.coverageFillStep ctx l (st, count) selection = .ok (st', c')) :
    Accounted ctx inputs ids pending st' ∧ st'.candidates = st.candidates ∧
      st'.coverageFillCandidates = st.coverageFillCandidates := by
  unfold Pack.coverageFillStep at hs
  simp only at hs
  split at hs
  · cases hs
    exact ⟨h.pushOmitted rfl, rfl, rfl⟩
  split at hs
  · cases hs
    exact ⟨h.pushOmitted rfl, rfl, rfl⟩
  split at hs
  · split at hs
    · cases hs
      exact ⟨h.pushOmitted rfl, rfl, rfl⟩
    · cases hs
      exact ⟨h.pushOmitted rfl, rfl, rfl⟩
  split at hs
  · cases hs
    exact ⟨h.pushOmitted rfl, rfl, rfl⟩
  · rename_i plan hp
    split at hs
    · cases hs
    · cases hs
      exact ⟨h.pushOmitted rfl, rfl, rfl⟩
    · rename_i led ha
      cases hs
      exact ⟨h.admitItem rfl rfl hp (SameRendering.refl _) ha, rfl, rfl⟩

/-- The coverage fill settles every candidate that was set aside. -/
theorem coverageFill (h : Accounted ctx inputs ids [] st) (hn : st.candidates = [])
    {st' : MmrState F} (hr : mmrCoverageFill ctx st = .ok st') :
    Accounted ctx inputs ids [] st' ∧ st'.candidates = [] ∧ st'.coverageFillCandidates = [] := by
  unfold mmrCoverageFill at hr
  simp only at hr
  have hfi := h.takeFill
  split at hr
  · rw [Except.map_eq_ok_iff] at hr
    obtain ⟨⟨st₁, count⟩, hfo, rfl⟩ := hr
    refine List.foldlM_ok_induction
      (P := fun r (acc : MmrState F × ℕ) => Accounted ctx inputs ids r acc.1 ∧
        acc.1.candidates = [] ∧ acc.1.coverageFillCandidates = [])
      ?_ _ _ _ ⟨hfi.perm (sortBy_perm _ _), hn, rfl⟩ hfo
    rintro selection r ⟨s, k⟩ ⟨s', k'⟩ ⟨hs, hc, hf⟩ hst
    obtain ⟨hs', hc', hf'⟩ := hs.coverageFillStep hst
    exact ⟨hs', by rw [hc', hc], by rw [hf', hf]⟩
  · cases hr
    suffices hfo : ∀ (r : List (MmrCandidate F)) (s : MmrState F),
        Accounted ctx inputs ids r s → s.candidates = [] → s.coverageFillCandidates = [] →
        let s' := r.foldl
          (fun st selection => st.pushOmitted (redundantOmission selection.candidate)) s
        Accounted ctx inputs ids [] s' ∧ s'.candidates = [] ∧ s'.coverageFillCandidates = [] from
      hfo _ _ hfi hn rfl
    intro r
    induction r with
    | nil => intro s hs hc hf; exact ⟨hs, hc, hf⟩
    | cons selection r ih =>
      intro s hs hc hf
      exact ih _ (hs.pushOmitted rfl) hc hf

end Accounted

/-- The start of a run over fresh scratch is accounted for. -/
theorem accounted_start (ctx : AssemblyContext F) (n : ℕ) (cs : List (MmrCandidate F)) :
    Accounted ctx (cs.map (·.candidate)) (mmrIds cs) []
      (.start ctx (.withCandidateCapacity n) cs) where
  balanced := ⟨[], Ledger.balanced_start ctx _⟩
  ids_eq := by
    simp [MmrState.start, Ledger.start, Ledger.ids, MmrAssemblyScratch.withCandidateCapacity]
  candidates_mem c hc := List.mem_map_of_mem hc
  fill_mem := by simp [MmrState.start, MmrAssemblyScratch.withCandidateCapacity]
  pending_mem := by simp

/-- **An MMR run over fresh scratch settles every candidate.** -/
theorem mmrRun_accounted {ctx : AssemblyContext F} {n : ℕ} {cs : List (MmrCandidate F)}
    {st : MmrState F} (h : mmrRun ctx (.withCandidateCapacity n) cs = .ok st) :
    (∃ ts, st.ledger.Balanced ctx (cs.map (·.candidate)) ts) ∧ st.ledger.ids = mmrIds cs := by
  unfold mmrRun at h
  obtain ⟨st₁, hfi, h⟩ := Except.bind_eq_ok_iff.mp h
  obtain ⟨st₂, hl, hfil⟩ := Except.bind_eq_ok_iff.mp h
  have h₁ := (accounted_start ctx n cs).antiPatternFirst hfi
  obtain ⟨h₂, hn⟩ := h₁.loop hl
  obtain ⟨h₃, hc, hf⟩ := h₂.coverageFill hn hfil
  refine ⟨h₃.balanced, ?_⟩
  rw [← h₃.ids_eq, hc, hf]
  simp

end Selection

end Pack
