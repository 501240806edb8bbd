/-
# The similarities of the MMR loop (`src/pack/mod.rs`)

`assemble_mmr_draft` does not compare a candidate with all selected items in every round: it keeps
one number for each remaining candidate, raises it when an item is selected, and moves it by
`swap_remove` when its candidate moves.

The number is the one that `max_selected_similarity` computes from scratch, in every round.
-/
import EideticEngine.PackAssembly

namespace List

variable {α β : Type*}

/-- `swap_remove` moves the values of a function with its arguments. -/
theorem swapRemove_map (f : α → β) (l : List α) (i : ℕ) :
    (l.map f).swapRemove i = (l.swapRemove i).map f := by
  unfold swapRemove
  rw [List.getLast?_map]
  cases l.getLast? with
  | none => rfl
  | some z =>
    show ((l.map f).set i (f z)).dropLast = ((l.set i z).dropLast).map f
    rw [List.map_dropLast, List.map_set]

end List

namespace Pack

open StableSort (sortBy_perm)

variable {F : Type} [F32 F]

/-! ## One more selected item -/

/-- One more selected item raises the maximum by its own similarity. -/
theorem maxSelectedSimilarity_concat (env : PackEnv F) (candidate : CandidateSignature)
    (se : List CandidateSignature) (s : CandidateSignature) :
    maxSelectedSimilarity env candidate (se ++ [s]) =
      if F32.isNan (env.candidateSignatureSimilarity candidate s)
      then maxSelectedSimilarity env candidate se
      else F32.max (maxSelectedSimilarity env candidate se)
        (env.candidateSignatureSimilarity candidate s) := by
  unfold maxSelectedSimilarity
  rw [List.map_append, List.foldl_append]
  rfl

/-- The similarities of the remaining candidates, from scratch. -/
def recomputed (env : PackEnv F) (selected : List CandidateSignature)
    (candidates : List (MmrCandidate F)) : List F :=
  candidates.map fun c => maxSelectedSimilarity env c.signature selected

/-- The update turns the maxima over the selected items into those with one item more. -/
theorem updateMmrMaxSimilarities_recomputed (env : PackEnv F) (se : List CandidateSignature)
    (cs : List (MmrCandidate F)) (s : CandidateSignature) :
    updateMmrMaxSimilarities env (recomputed env se cs) cs s = recomputed env (se ++ [s]) cs := by
  unfold updateMmrMaxSimilarities recomputed
  rw [List.drop_of_length_le (List.length_map _).le, List.append_nil, List.zipWith_map_left,
    List.zipWith_self]
  apply List.map_congr_left
  intro c _
  exact (maxSelectedSimilarity_concat env c.signature se s).symm

/-! ## The states of the loop -/

/-- The state before the reservation. -/
def mmrStart (ctx : AssemblyContext F) (candidates : List (PackCandidate F)) : MmrState F :=
  .start ctx (.withCandidateCapacity candidates.length) (mmrCandidates ctx candidates)

/-- The states in which a round of the loop begins. -/
inductive MmrReached (ctx : AssemblyContext F) (candidates : List (PackCandidate F)) :
    MmrState F → Prop
  | first {st : MmrState F} (h : mmrAntiPatternFirst ctx (mmrStart ctx candidates) = .ok st) :
      MmrReached ctx candidates st
  | next {st st' : MmrState F} (h : MmrReached ctx candidates st)
      (hround : mmrRound ctx st = .inl st') : MmrReached ctx candidates st'

/-- The selected items of a state are those of `chosen`, in this order. -/
structure Chosen (st : MmrState F) (chosen : List (MmrCandidate F)) : Prop where
  signatures : st.selectedSignatures = chosen.map (·.signature)
  items : st.ledger.draft.items.map (·.memoryId) = chosen.map (·.candidate.memoryId)

/-- **The invariant.**  The stored similarities are the recomputed ones, and the signatures they
are computed from are those of the selected items. -/
structure Recomputed (ctx : AssemblyContext F) (st : MmrState F) : Prop where
  similarities : st.maxSelectedSimilarities
    = recomputed ctx.env st.selectedSignatures st.candidates
  chosen : ∃ chosen, Chosen st chosen

namespace Recomputed

variable {ctx : AssemblyContext F} {st st' : MmrState F} {selection : MmrCandidate F}

/-- Before the first selection every similarity is zero. -/
theorem start (cs : List (PackCandidate F)) : Recomputed ctx (mmrStart ctx cs) where
  similarities := by
    have hl : (mmrCandidates ctx cs).length = cs.length := by
      rw [mmrCandidates, (sortBy_perm _ _).length_eq, List.length_map]
    show List.replicate cs.length (F32.lit 0) = (mmrCandidates ctx cs).map fun _ => F32.lit 0
    rw [← hl, List.map_const']
  chosen := ⟨[], rfl, rfl⟩

/-- Both arrays lose the same index. -/
theorem swapRemove (h : Recomputed ctx st) (i : ℕ) : Recomputed ctx (st.swapRemove i) where
  similarities := by
    show st.maxSelectedSimilarities.swapRemove i = _
    rw [h.similarities]
    exact List.swapRemove_map _ _ _
  chosen := by
    obtain ⟨c, hc⟩ := h.chosen
    exact ⟨c, hc.signatures, hc.items⟩

/-- An omission is not a selection. -/
theorem pushOmitted (h : Recomputed ctx st) (o : PackOmission F) :
    Recomputed ctx (st.pushOmitted o) where
  similarities := h.similarities
  chosen := by
    obtain ⟨c, hc⟩ := h.chosen
    exact ⟨c, hc.signatures, hc.items⟩

/-- Recording the planned candidate raises the similarities of those that remain. -/
theorem select (h : Recomputed ctx st) {t : PackLodTier} {p : PackCandidate F}
    {ph : PackSelectionPhase} {g : F} (hid : p.memoryId = selection.candidate.memoryId)
    (hs : mmrSelect ctx st selection t p ph g = .ok st') : Recomputed ctx st' := by
  unfold mmrSelect at hs
  simp only at hs
  split at hs
  · cases hs
  · cases hs
    exact h.pushOmitted _
  · rename_i l ha
    cases hs
    obtain ⟨c, hc⟩ := h.chosen
    obtain ⟨-, -, -, -, -, hi, -⟩ := Ledger.admitItem_eq_some ha
    refine ⟨?_, c ++ [selection], ?_, ?_⟩
    · show updateMmrMaxSimilarities ctx.env st.maxSelectedSimilarities st.candidates
        selection.signature = _
      rw [h.similarities]
      exact updateMmrMaxSimilarities_recomputed _ _ _ _
    · show st.selectedSignatures ++ [selection.signature] = _
      rw [hc.signatures, List.map_append]
      rfl
    · show l.draft.items.map (·.memoryId) = _
      rw [hi, List.map_append, hc.items, List.map_append]
      exact congrArg (c.map (·.candidate.memoryId) ++ [·]) hid

/-- The reservation before the loop. -/
theorem antiPatternFirst (h : Recomputed ctx st) (hr : mmrAntiPatternFirst ctx st = .ok st') :
    Recomputed ctx st' := by
  unfold mmrAntiPatternFirst at hr
  split at hr
  · split at hr
    · cases hr
      exact h
    · rename_i i selection hi
      simp only at hr
      split at hr
      · cases hr
        exact h.swapRemove i
      · rename_i plan hp
        have hm := (sameRendering_markAntiPatternFirstCandidate plan.candidate).memoryId
        exact (h.swapRemove i).select (hm.trans (planFits_of_plan hp).memoryId) hr
  · cases hr
    exact h

/-- A round. -/
theorem round (h : Recomputed ctx st) (hro : mmrRound ctx st = .inl st') :
    Recomputed ctx st' := by
  rcases mmrRound_cases ctx st with ⟨-, hr⟩ | ⟨e, hr⟩ | ⟨i, selection, st₁, -, hr, hc⟩
  · rw [hr] at hro
    cases hro
  · rw [hr] at hro
    cases hro
  · rw [hr] at hro
    cases hro
    have ht := h.swapRemove i
    rcases hc with rfl | ⟨o, -, rfl⟩ | ⟨plan, g, hp, hs⟩
    -- what is set aside is neither selected nor remaining
    · obtain ⟨c, hc⟩ := ht.chosen
      exact ⟨ht.similarities, c, hc.signatures, hc.items⟩
    · exact ht.pushOmitted o
    · exact ht.select (planFits_of_plan hp).memoryId hs

end Recomputed

/-- **In every reachable state the similarities are recomputed**. -/
theorem MmrReached.recomputed {ctx : AssemblyContext F} {cs : List (PackCandidate F)}
    {st : MmrState F} (h : MmrReached ctx cs st) : Recomputed ctx st := by
  induction h with
  | first h => exact (Recomputed.start cs).antiPatternFirst h
  | next _ hr ih => exact ih.round hr

/-- The array of similarities is as long as that of the candidates, and at every index it holds the
maximal similarity of that candidate to the selected items, computed from scratch. -/
def MmrState.Exact (env : PackEnv F) (st : MmrState F) : Prop :=
  st.maxSelectedSimilarities.length = st.candidates.length ∧
    ∀ (i : ℕ) (candidate : MmrCandidate F), st.candidates[i]? = some candidate →
      st.maxSelectedSimilarities[i]?
        = some (maxSelectedSimilarity env candidate.signature st.selectedSignatures)

theorem Recomputed.exact {ctx : AssemblyContext F} {st : MmrState F} (h : Recomputed ctx st) :
    st.Exact ctx.env := by
  unfold MmrState.Exact
  rw [h.similarities]
  refine ⟨List.length_map _, fun i candidate hi => ?_⟩
  rw [recomputed, List.getElem?_map, hi]
  rfl

/-- **The incremental similarities are exact.**  In every round the stored similarities are those
computed from scratch from the items selected so far.  The one that a round takes out is that of
its candidate, and the arrays are aligned again behind every pair of removals, in the reservation
and in the rounds. -/
theorem mmr_similarities_recomputed {ctx : AssemblyContext F}
    {candidates : List (PackCandidate F)} {st : MmrState F} (h : MmrReached ctx candidates st) :
    (∃ chosen, Chosen st chosen) ∧ st.Exact ctx.env
      ∧ (∀ i selection, antiPatternFirstMmrCandidateIndex ctx (mmrStart ctx candidates)
          = some (i, selection) → ((mmrStart ctx candidates).swapRemove i).Exact ctx.env)
      ∧ ∀ i selection, selectNextCandidateIndex st = some (i, selection) → st.similarityAt i
              = maxSelectedSimilarity ctx.env selection.signature st.selectedSignatures
            ∧ (st.swapRemove i).Exact ctx.env := by
  have hr := h.recomputed
  refine ⟨hr.chosen, hr.exact, fun i _ _ => ((Recomputed.start candidates).swapRemove i).exact,
    fun i selection hn => ⟨?_, (hr.swapRemove i).exact⟩⟩
  rw [MmrState.similarityAt, List.getD_eq_getElem?_getD,
    hr.exact.2 i selection (getElem?_of_selectNextCandidateIndex hn)]
  rfl

/-- A round over the sample without a reservation: the three candidates that remain are compared
with the selected one. -/
theorem sample_similarities_recomputed :
    ∃ st, MmrReached { sampleContext with options := { includeAntiPatternFirst := false } }
        sampleCandidates st ∧ st.candidates.length = 3
      ∧ st.selectedSignatures.length = 1 ∧ st.Exact sampleContext.env := by
  let ctx : AssemblyContext ℚ :=
    { sampleContext with options := { includeAntiPatternFirst := false } }
  have hro : (mmrRound ctx (mmrStart ctx sampleCandidates)).getLeft?.map
      (fun st => (st.candidates.length, st.selectedSignatures.length)) = some (3, 1) := by
    decide +kernel
  obtain ⟨st, hst, hc⟩ := Option.map_eq_some_iff.mp hro
  obtain ⟨hl, hs⟩ := Prod.mk.inj hc
  have hr : MmrReached ctx sampleCandidates st :=
    (MmrReached.first rfl).next (Sum.getLeft?_eq_some_iff.mp hst)
  exact ⟨st, hr, hl, hs, (mmr_similarities_recomputed hr).2.1⟩

end Pack
