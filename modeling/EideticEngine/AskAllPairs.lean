/-
# Clustering against all pairs

The clusters that the index of terms finds are those of the algorithm that compares each seed
with every unassigned passage, as `all_pairs_reference` of `src/core/ask_clustering_tests.rs`
does: the index counts the terms that two passages share, and passages without a shared term
are below any positive threshold.  Which passages join depends on their texts alone, so that the
clusters do not depend on the order of the input.
-/
import EideticEngine.AskSlots
import EideticEngine.AskClustering
import EideticEngine.GreedyClusters
import EideticEngine.TermIndex

namespace Ask

open RustText (strCmp)
open StableSort (sortBy)
open Std (ExtTreeMap)

variable {F : Type} [AskF32 F]

/-! ## All pairs -/

section Clustering

variable (rules : AskRules) (threshold : F) (spans : List (AskSpan F))
  (groups : ExtTreeMap String String strCmp)

/-- Whether a passage joins a seed, by their texts. -/
def joins (seed other : AskSpan F) : Bool :=
  hasNegation rules seed.text = hasNegation rules other.text
    && numericLiterals rules seed.text = numericLiterals rules other.text
    && categoricalSettingsCompatible (categoricalSetting rules seed.text)
      (categoricalSetting rules other.text)
    && F32.le threshold
      (jaccardSimilarity F (tokenizeForAsk rules seed.text) (tokenizeForAsk rules other.text))
    && (seed.text = other.text || rules.settingsCompatible seed.text other.text)

/-- Compare a seed with every unassigned passage, in the order of the visits. -/
def gatherAllPairs : Gatherer spans.length := fun assigned seed =>
  (seedOrder spans).foldl (fun (assigned, supporting) other =>
      if other ∉ assigned ∧ joins rules threshold (spans.get seed) (spans.get other) = true then
        (other :: assigned, supporting.insert (supportKey (spans.get other).memoryId groups))
      else (assigned, supporting))
    (assigned, [supportKey (spans.get seed).memoryId groups])

def allPairsClusters : List (AskCluster spans.length) :=
  clustersOf spans (gatherAllPairs rules threshold spans groups)

/-- The representatives by the comparison of all pairs. -/
def allPairsReference : List (AskSpan F) :=
  sortBy rankCmp ((allPairsClusters rules threshold spans groups).map (representative spans))

end Clustering

/-! ## The shared terms -/

section Shared

variable {rules : AskRules} {threshold : F} {spans : List (AskSpan F)}

theorem nodup_tokenizeForAsk (rules : AskRules) (text : String) :
    (tokenizeForAsk rules text).Nodup := by
  unfold tokenizeForAsk
  simp only [sortBy]
  rw [ComparisonSort.destutter_insertionSort_eq_dedup]
  exact List.nodup_dedup _

/-- How many terms two passages share. -/
def shared (rules : AskRules) (left right : AskSpan F) : ℕ :=
  ((tokenizeForAsk rules left.text).toFinset ∩ (tokenizeForAsk rules right.text).toFinset).card

omit [AskF32 F] in
theorem postings_eq (rules : AskRules) (spans : List (AskSpan F)) :
    postings rules spans
      = TermIndex.build (spanTerms rules spans) (List.finRange spans.length) := rfl

omit [AskF32 F] in
/-- The postings of the terms of a seed name a passage once for each shared term. -/
theorem count_postings (s other : Fin spans.length) : (((spanTerms rules spans s).map fun t =>
        (postings rules spans)[t]?.getD []).flatten).count other
      = shared rules (spans.get s) (spans.get other) := by
  have ht : ∀ i, (spanTerms rules spans i).Nodup := fun i => nodup_tokenizeForAsk _ _
  have ho : ∀ t, ((postings rules spans)[t]?.getD []).count other
      = if t ∈ spanTerms rules spans other then 1 else 0 := by
    intro t
    rw [postings_eq, TermIndex.getD_build ht]
    by_cases hm : t ∈ spanTerms rules spans other
    · rw [if_pos hm, List.count_filter (by simpa using hm)]
      exact List.count_eq_one_of_mem (List.nodup_finRange _) (List.mem_finRange other)
    · rw [if_neg hm]
      refine List.count_eq_zero_of_not_mem fun hin => hm ?_
      simpa using (List.mem_filter.mp hin).2
  have hs : ∀ ts : List String,
      ((ts.map fun t => (postings rules spans)[t]?.getD []).flatten).count other
        = (ts.filter fun t => t ∈ spanTerms rules spans other).length := by
    intro ts
    induction ts with
    | nil => rfl
    | cons t ts ih =>
      rw [List.map_cons, List.flatten_cons, List.count_append, ih, ho, List.filter_cons]
      by_cases hm : t ∈ spanTerms rules spans other
      · simp [hm, Nat.add_comm]
      · simp [hm]
  rw [hs, shared, ← List.toFinset_card_of_nodup ((ht s).filter _)]
  apply congrArg Finset.card
  ext t
  rw [List.mem_toFinset, List.mem_filter, decide_eq_true_eq, Finset.mem_inter,
    List.mem_toFinset, List.mem_toFinset]
  rfl

omit [AskF32 F] in
/-- **The counts of the index** are the numbers of shared terms. -/
theorem getElem?_intersections (a : List (Fin spans.length)) (s other : Fin spans.length) :
    (intersections rules spans a s)[other]? = TermIndex.countOf (if other ∉ a
            ∧ hasNegation rules (spans.get s).text = hasNegation rules (spans.get other).text
          then shared rules (spans.get s) (spans.get other) else 0) := by
  have hf : intersections rules spans a s
      = ((spanTerms rules spans s).map fun t => (postings rules spans)[t]?.getD []).foldl
          (TermIndex.tally fun other => other ∉ a
            ∧ hasNegation rules (spans.get s).text = hasNegation rules (spans.get other).text)
          ∅ := by
    rw [List.foldl_map]
    rfl
  rw [hf, TermIndex.getElem?_foldl_tally, count_postings]

/-- What the threshold relies on: no shared term is a similarity of zero, and a value above
another is not below it. -/
structure ZeroSimilarity (F : Type) [F32 F] : Prop where
  zero_div : ∀ n : ℕ, 0 < n → F32.div (F32.castNat 0) (F32.castNat n) = (F32.lit 0 : F)
  not_le_of_lt : ∀ a b : F, F32.lt a b = true → F32.le b a = false

theorem jaccardSimilarity_eq (hF : ZeroSimilarity F) (left right : AskSpan F) :
    jaccardSimilarity F (tokenizeForAsk rules left.text) (tokenizeForAsk rules right.text)
      = if shared rules left right = 0 then F32.lit 0
        else F32.div (F32.castNat (shared rules left right))
          (F32.castNat ((tokenizeForAsk rules left.text).length
            + (tokenizeForAsk rules right.text).length - shared rules left right)) := by
  have hu : ((tokenizeForAsk rules left.text).toFinset
      ∪ (tokenizeForAsk rules right.text).toFinset).card
        = (tokenizeForAsk rules left.text).length + (tokenizeForAsk rules right.text).length
          - shared rules left right := by
    rw [Finset.card_union, List.toFinset_card_of_nodup (nodup_tokenizeForAsk _ _),
      List.toFinset_card_of_nodup (nodup_tokenizeForAsk _ _)]
    rfl
  have hle : shared rules left right ≤ ((tokenizeForAsk rules left.text).toFinset
      ∪ (tokenizeForAsk rules right.text).toFinset).card :=
    Finset.card_le_card (Finset.inter_subset_left.trans Finset.subset_union_left)
  unfold jaccardSimilarity
  simp only
  rw [← hu]
  by_cases hs : shared rules left right = 0
  · have hz : ((tokenizeForAsk rules left.text).toFinset
        ∩ (tokenizeForAsk rules right.text).toFinset).card = 0 := hs
    rw [if_pos hs, hz]
    split
    · rfl
    · split
      · rfl
      · rename_i hp
        exact hF.zero_div _ (Nat.pos_of_ne_zero hp)
  · rw [if_neg hs, if_neg, if_neg]
    · rfl
    · exact fun hn => hs (Nat.le_zero.mp (hn ▸ hle))
    · rintro ⟨hl, -⟩
      refine hs ?_
      rw [shared, hl]
      simp

/-- **What the index finds joins, and nothing else does.** -/
theorem joins_iff (hF : ZeroSimilarity F) (hpo : F32.lt (F32.lit 0) threshold = true)
    (s other : Fin spans.length) :
    joins rules threshold (spans.get s) (spans.get other) = true ↔
      hasNegation rules (spans.get s).text = hasNegation rules (spans.get other).text
        ∧ shared rules (spans.get s) (spans.get other) ≠ 0
        ∧ agrees rules threshold spans s other
          (shared rules (spans.get s) (spans.get other)) = true := by
  unfold joins agrees
  simp only [spanTerms]
  rw [jaccardSimilarity_eq hF]
  by_cases hsh : shared rules (spans.get s) (spans.get other) = 0
  · rw [if_pos hsh, hF.not_le_of_lt _ _ hpo, Bool.and_false, Bool.false_and]
    exact ⟨fun hf => Bool.noConfusion hf, fun hj => absurd hsh hj.2.1⟩
  · rw [if_neg hsh]
    simp only [Bool.and_eq_true, decide_eq_true_eq]
    constructor
    · rintro ⟨⟨⟨⟨hp, hl⟩, hs⟩, hsi⟩, ht⟩
      exact ⟨hp, hsh, ⟨⟨hl, hs⟩, hsi⟩, ht⟩
    · rintro ⟨hp, -, ⟨⟨hl, hs⟩, hsi⟩, ht⟩
      exact ⟨⟨⟨⟨hp, hl⟩, hs⟩, hsi⟩, ht⟩

end Shared

/-! ## What a seed takes -/

section Gathering

variable {rules : AskRules} {threshold : F} {spans : List (AskSpan F)}
  {groups : ExtTreeMap String String strCmp}

/-- The source that a passage counts for. -/
def sourceOf (spans : List (AskSpan F)) (groups : ExtTreeMap String String strCmp)
    (i : Fin spans.length) : String :=
  supportKey (spans.get i).memoryId groups

/-- The sources of a seed and of those it took, the last one first. -/
def sources (spans : List (AskSpan F)) (groups : ExtTreeMap String String strCmp)
    (seed : Fin spans.length) (taken : List (Fin spans.length)) : List String :=
  taken.foldr (fun i found => found.insert (sourceOf spans groups i)) [sourceOf spans groups seed]

omit [AskF32 F] in
theorem sources_spec (groups : ExtTreeMap String String strCmp) (s : Fin spans.length)
    (t : List (Fin spans.length)) :
    (sources spans groups s t).Nodup ∧ ∀ key, key ∈ sources spans groups s t
        ↔ ∃ i ∈ s :: t, sourceOf spans groups i = key := by
  unfold sources
  induction t with
  | nil => simp [eq_comm]
  | cons i t ih =>
    refine ⟨ih.1.insert, fun key => ?_⟩
    rw [List.foldr_cons, List.mem_insert_iff, ih.2]
    simp only [List.mem_cons, exists_eq_or_imp]
    rw [eq_comm]
    exact or_left_comm

omit [AskF32 F] in
/-- The number of sources depends only on who is in the cluster. -/
theorem length_sources (s : Fin spans.length) (t : List (Fin spans.length)) :
    (sources spans groups s t).length = ((s :: t).map (sourceOf spans groups)).toFinset.card := by
  obtain ⟨hn, hm⟩ := sources_spec groups s t
  rw [← List.toFinset_card_of_nodup hn]
  congr 1
  ext key
  rw [List.mem_toFinset, List.mem_toFinset, List.mem_map, hm]

/-- A gatherer that assigns what it takes and collects the sources. -/
def Gathers (groups : ExtTreeMap String String strCmp) (gatherer : Gatherer spans.length)
    (take : List (Fin spans.length) → Fin spans.length → List (Fin spans.length)) : Prop :=
  ∀ assigned seed, gatherer assigned seed
    = (take assigned seed ++ assigned, sources spans groups seed (take assigned seed))

/-- What the index finds for a seed, the last one first. -/
def sparseTaken (rules : AskRules) (threshold : F) (spans : List (AskSpan F))
    (assigned : List (Fin spans.length)) (seed : Fin spans.length) : List (Fin spans.length) :=
  (((intersections rules spans assigned seed).toList.filter fun (other, intersection) =>
    agrees rules threshold spans seed other intersection).map Prod.fst).reverse

theorem gathers_gather (rules : AskRules) (threshold : F) (spans : List (AskSpan F))
    (groups : ExtTreeMap String String strCmp) :
    Gathers groups (gather rules threshold spans groups) (sparseTaken rules threshold spans) := by
  intro a s
  unfold gather sparseTaken sources
  rw [List.foldr_reverse]
  induction (intersections rules spans a s).toList using List.reverseRecOn with
  | nil => rfl
  | append_singleton f en ih =>
    obtain ⟨other, int⟩ := en
    rw [List.foldl_append, ih, List.filter_append, List.map_append, List.foldl_append]
    simp only [List.foldl_cons, List.foldl_nil]
    by_cases ha : agrees rules threshold spans s other int = true
    · rw [if_pos ha, List.filter_cons_of_pos (by simpa using ha)]
      simp [sourceOf]
    · rw [if_neg ha, List.filter_cons_of_neg (by simpa using ha)]
      simp

/-- The unassigned passages that join a seed, the last one first. -/
def allPairsTaken (rules : AskRules) (threshold : F) (spans : List (AskSpan F))
    (assigned : List (Fin spans.length)) (seed : Fin spans.length) : List (Fin spans.length) :=
  ((seedOrder spans).filter fun other => other ∉ assigned
    ∧ joins rules threshold (spans.get seed) (spans.get other) = true).reverse

theorem seedOrder_perm (spans : List (AskSpan F)) :
    (seedOrder spans).Perm (List.finRange spans.length) :=
  List.perm_insertionSort _ _

theorem nodup_seedOrder (spans : List (AskSpan F)) : (seedOrder spans).Nodup :=
  (seedOrder_perm spans).nodup_iff.mpr (List.nodup_finRange _)

theorem mem_seedOrder (i : Fin spans.length) : i ∈ seedOrder spans :=
  (seedOrder_perm spans).mem_iff.mpr (List.mem_finRange i)

theorem gathers_gatherAllPairs (rules : AskRules) (threshold : F) (spans : List (AskSpan F))
    (groups : ExtTreeMap String String strCmp) :
    Gathers groups (gatherAllPairs rules threshold spans groups)
      (allPairsTaken rules threshold spans) := by
  intro a s
  unfold gatherAllPairs allPairsTaken sources
  rw [List.foldr_reverse]
  have hn := nodup_seedOrder spans
  revert hn
  generalize seedOrder spans = o
  intro hn
  induction o using List.reverseRecOn with
  | nil => rfl
  | append_singleton o other ih =>
    obtain ⟨ho, -, hot⟩ := List.nodup_append.mp hn
    rw [List.foldl_append, ih ho, List.filter_append, List.foldl_append]
    simp only [List.foldl_cons, List.foldl_nil]
    -- a passage that was taken before stands earlier in the order
    have hm : other ∈ (o.filter fun other => other ∉ a
        ∧ joins rules threshold (spans.get s) (spans.get other) = true).reverse ++ a
          ↔ other ∈ a := by
      rw [List.mem_append, List.mem_reverse, List.mem_filter, or_iff_right]
      exact fun hin => hot other hin.1 other List.mem_cons_self rfl
    simp only [hm]
    by_cases hj : other ∉ a ∧ joins rules threshold (spans.get s) (spans.get other) = true
    · rw [if_pos hj, List.filter_cons_of_pos (by simpa using hj)]
      simp [sourceOf]
    · rw [if_neg hj, List.filter_cons_of_neg (by simpa using hj)]
      simp

/-- The comparison of seeds that both ways share. -/
def joinsAt (rules : AskRules) (threshold : F) (spans : List (AskSpan F))
    (seed other : Fin spans.length) : Bool :=
  joins rules threshold (spans.get seed) (spans.get other)

theorem takesJoining_allPairs (rules : AskRules) (threshold : F) (spans : List (AskSpan F)) :
    GreedyClusters.TakesJoining (allPairsTaken rules threshold spans)
      (joinsAt rules threshold spans) (seedOrder spans) :=
  fun _ _ => List.reverse_perm _

/-- **The index takes what joins.** -/
theorem takesJoining_sparse (hF : ZeroSimilarity F) (hpo : F32.lt (F32.lit 0) threshold = true)
    (rules : AskRules) (spans : List (AskSpan F)) :
    GreedyClusters.TakesJoining (sparseTaken rules threshold spans)
      (joinsAt rules threshold spans) (seedOrder spans) := by
  intro a s
  refine (List.reverse_perm _).trans ?_
  refine (List.perm_ext_iff_of_nodup ?_ ((nodup_seedOrder spans).filter _)).mpr fun other => ?_
  · have hk := ExtTreeMap.distinct_keys_toList (t := intersections rules spans a s)
    rw [List.Nodup, List.pairwise_map]
    refine (hk.filter _).imp ?_
    intro left right hne heq
    exact hne (by rw [heq]; exact Std.ReflCmp.compare_self)
  · have hj : joinsAt rules threshold spans s other = true ↔ _ := joins_iff hF hpo s other
    rw [List.mem_map, List.mem_filter, decide_eq_true_eq, hj]
    simp only [mem_seedOrder, true_and]
    constructor
    · rintro ⟨⟨_, n⟩, hm, rfl⟩
      obtain ⟨he, hag⟩ := List.mem_filter.mp hm
      dsimp only at hag ⊢
      rw [ExtTreeMap.mem_toList_iff_getElem?_eq_some, getElem?_intersections,
        TermIndex.countOf_eq_some_iff] at he
      obtain ⟨hc, hne⟩ := he
      split at hc
      · rename_i ha
        rw [if_pos ha] at hne
        subst hc
        exact ⟨ha.1, ha.2, hne, hag⟩
      · rename_i ho
        exact absurd (if_neg ho) hne
    · rintro ⟨ho, hp, hne, hag⟩
      refine ⟨(other, shared rules (spans.get s) (spans.get other)), ?_, rfl⟩
      rw [List.mem_filter]
      dsimp only
      refine ⟨?_, hag⟩
      rw [ExtTreeMap.mem_toList_iff_getElem?_eq_some, getElem?_intersections,
        TermIndex.countOf_eq_some_iff, if_pos ⟨ho, hp⟩]
      exact ⟨rfl, hne⟩

/-! ## Whole runs -/

/-- The cluster of a seed that took some passages. -/
def clusterOf (spans : List (AskSpan F)) (groups : ExtTreeMap String String strCmp)
    (c : Fin spans.length × List (Fin spans.length)) : AskCluster spans.length :=
  ⟨c.1, c.2 ++ [c.1], sources spans groups c.1 c.2⟩

theorem clustersOf_eq {g : Gatherer spans.length}
    {take : List (Fin spans.length) → Fin spans.length → List (Fin spans.length)}
    {js : Fin spans.length → Fin spans.length → Bool}
    (hg : Gathers groups g take)
    (ht : GreedyClusters.TakesJoining take js (seedOrder spans)) :
    clustersOf spans g = ((seedOrder spans).foldl (GreedyClusters.visit take) ([], [])).2.map
          (clusterOf spans groups) := by
  have hs : ∀ (s : List (Fin spans.length)
      × List (Fin spans.length × List (Fin spans.length))) (se : Fin spans.length),
      visitCluster g (s.1, s.2.map (clusterOf spans groups)) se
        = ((GreedyClusters.visit take s se).1,
          (GreedyClusters.visit take s se).2.map (clusterOf spans groups)) := by
    intro s se
    unfold visitCluster GreedyClusters.visit
    by_cases hm : se ∈ s.1
    · rw [if_pos hm, if_pos hm]
    · rw [if_neg hm, if_neg hm]
      simp only [hg _ se]
      -- what is newly assigned is what was taken, and the seed
      have hn : (take (se :: s.1) se ++ se :: s.1).filter (fun i => i ∉ s.1)
          = take (se :: s.1) se ++ [se] := by
        rw [List.filter_append, List.filter_cons_of_pos (by simpa using hm),
          List.filter_eq_self.mpr, List.filter_eq_nil_iff.mpr]
        · intro i hi
          simpa using hi
        · intro i hi
          have ho := (List.mem_filter.mp ((ht _ _).mem_iff.mp hi)).2
          rw [decide_eq_true_eq, List.mem_cons, not_or] at ho
          simpa using ho.1.2
      rw [hn, List.map_append]
      rfl
  let project (s : List (Fin spans.length) × List (Fin spans.length × List (Fin spans.length))) :
      List (Fin spans.length) × List (AskCluster spans.length) :=
    (s.1, s.2.map (clusterOf spans groups))
  have hr : (seedOrder spans).foldl (visitCluster g) (project ([], []))
      = project ((seedOrder spans).foldl (GreedyClusters.visit take) ([], [])) :=
    List.foldl_hom project hs
  exact congrArg Prod.snd hr

/-- What a cluster shows of itself: its seed and the number of its sources. -/
def AskCluster.summary {n : ℕ} (c : AskCluster n) : Fin n × ℕ := (c.seed, c.supporting.length)

/-- **Either way forms the greedy clusters of the order**, up to the order of the members. -/
theorem map_summary_clustersOf {g : Gatherer spans.length}
    {take : List (Fin spans.length) → Fin spans.length → List (Fin spans.length)}
    {js : Fin spans.length → Fin spans.length → Bool}
    (hg : Gathers groups g take)
    (ht : GreedyClusters.TakesJoining take js (seedOrder spans)) :
    (clustersOf spans g).map AskCluster.summary
      = (GreedyClusters.clusters js (seedOrder spans)).map fun c =>
          (c.1, ((GreedyClusters.members c).map (sourceOf spans groups)).toFinset.card) := by
  rw [clustersOf_eq hg ht, List.map_map]
  have hs := GreedyClusters.foldl_visit ht (nodup_seedOrder spans)
  revert hs
  generalize ((seedOrder spans).foldl (GreedyClusters.visit take) ([], [])).2 = f
  generalize GreedyClusters.clusters js (seedOrder spans) = greedy
  intro hs
  induction hs with
  | nil => rfl
  | @cons c d f r hcd _ ih =>
    obtain ⟨hse, hp⟩ := hcd
    rw [List.map_cons, List.map_cons, ih]
    congr 1
    refine Prod.ext hse ?_
    rw [Function.comp_apply, AskCluster.summary, clusterOf, length_sources]
    refine congrArg Finset.card (List.toFinset_eq_of_perm _ _ ?_)
    rw [GreedyClusters.members, hse]
    exact (hp.cons _).map _

/-- Every passage is in one cluster. -/
theorem perm_members_clustersOf {g : Gatherer spans.length}
    {take : List (Fin spans.length) → Fin spans.length → List (Fin spans.length)}
    {js : Fin spans.length → Fin spans.length → Bool}
    (hg : Gathers groups g take)
    (ht : GreedyClusters.TakesJoining take js (seedOrder spans)) :
    ((clustersOf spans g).flatMap AskCluster.members).Perm (List.finRange spans.length) := by
  refine List.Perm.trans ?_ ((GreedyClusters.perm_clusters js (seedOrder spans)).trans
    (seedOrder_perm spans))
  rw [clustersOf_eq hg ht, List.flatMap_map]
  have hs := GreedyClusters.foldl_visit ht (nodup_seedOrder spans)
  revert hs
  generalize ((seedOrder spans).foldl (GreedyClusters.visit take) ([], [])).2 = f
  generalize GreedyClusters.clusters js (seedOrder spans) = greedy
  intro hs
  induction hs with
  | nil => exact List.Perm.refl _
  | @cons c d f r hcd _ ih =>
    obtain ⟨hse, hp⟩ := hcd
    rw [List.flatMap_cons, List.flatMap_cons]
    refine List.Perm.append ?_ ih
    rw [GreedyClusters.members, ← hse]
    exact (List.perm_append_singleton _ _).trans (hp.cons _)

theorem countP_members_clustersOf {g : Gatherer spans.length}
    {take : List (Fin spans.length) → Fin spans.length → List (Fin spans.length)}
    {js : Fin spans.length → Fin spans.length → Bool}
    (hg : Gathers groups g take)
    (ht : GreedyClusters.TakesJoining take js (seedOrder spans)) (i : Fin spans.length) :
    (clustersOf spans g).countP (fun c => i ∈ c.members) = 1 := by
  have hp := perm_members_clustersOf hg ht
  have hn := hp.nodup_iff.mpr (List.nodup_finRange _)
  have hc := (hp.count_eq i).trans
    (List.count_eq_one_of_mem (List.nodup_finRange _) (List.mem_finRange i))
  revert hn hc
  generalize clustersOf spans g = f
  intro hn hc
  rw [← hc]
  clear hp hc
  induction f with
  | nil => rfl
  | cons c f ih =>
    rw [List.flatMap_cons, List.nodup_append] at hn
    rw [List.countP_cons, ih hn.2.1, List.flatMap_cons, List.count_append, Nat.add_comm,
      List.Nodup.count hn.1]
    simp

/-- The sources of a cluster are those of its members, each once. -/
theorem supporting_clustersOf {g : Gatherer spans.length}
    {take : List (Fin spans.length) → Fin spans.length → List (Fin spans.length)}
    {js : Fin spans.length → Fin spans.length → Bool}
    (hg : Gathers groups g take)
    (ht : GreedyClusters.TakesJoining take js (seedOrder spans))
    {c : AskCluster spans.length} (hc : c ∈ clustersOf spans g) :
    c.supporting.Nodup
      ∧ ∀ key, key ∈ c.supporting ↔ ∃ i ∈ c.members, sourceOf spans groups i = key := by
  rw [clustersOf_eq hg ht] at hc
  obtain ⟨⟨s, t⟩, -, rfl⟩ := List.mem_map.mp hc
  obtain ⟨hn, hm⟩ := sources_spec groups s t
  refine ⟨hn, fun key => (hm key).trans ?_⟩
  simp [clusterOf, or_comm]

/-! ## The representatives -/

/-- A passage with its score raised by so many sources. -/
def corroborated (span : AskSpan F) (count : ℕ) : AskSpan F :=
  { span with score := corroborate span.score count }

/-- The representative of a cluster of passages. -/
def representativeOf (groups : ExtTreeMap String String strCmp)
    (c : AskSpan F × List (AskSpan F)) : AskSpan F :=
  corroborated c.1 ((GreedyClusters.members c).map
    fun span => supportKey span.memoryId groups).toFinset.card

/-- The passages in the order of the visits. -/
theorem map_seedOrder (spans : List (AskSpan F)) :
    (seedOrder spans).map spans.get = sortBy AskSpan.cmp spans := by
  unfold seedOrder sortBy
  rw [List.map_insertionSort (fun i j => (spans.get i).cmp (spans.get j) ≠ .gt)
    (fun a b : AskSpan F => a.cmp b ≠ .gt) spans.get _ fun _ _ _ _ => Iff.rfl,
    List.map_get_finRange]

/-- **The representatives are those of the greedy clusters of the sorted passages.** -/
theorem map_representative_clustersOf {g : Gatherer spans.length}
    {take : List (Fin spans.length) → Fin spans.length → List (Fin spans.length)}
    (hg : Gathers groups g take)
    (ht : GreedyClusters.TakesJoining take (joinsAt rules threshold spans) (seedOrder spans)) :
    (clustersOf spans g).map (representative spans)
      = (GreedyClusters.clusters (joins rules threshold) (sortBy AskSpan.cmp spans)).map
          (representativeOf groups) := by
  have hs := map_summary_clustersOf hg ht
  have hr : ∀ c : AskCluster spans.length,
      representative spans c = corroborated (spans.get c.summary.1) c.summary.2 := fun _ => rfl
  rw [List.map_congr_left fun c _ => hr c]
  have hm := congrArg (List.map fun summary : Fin spans.length × ℕ =>
    corroborated (spans.get summary.1) summary.2) hs
  rw [List.map_map, List.map_map] at hm
  refine hm.trans ?_
  rw [← map_seedOrder, GreedyClusters.clusters_map, List.map_map]
  refine List.map_congr_left fun c _ => ?_
  simp only [Function.comp_apply, representativeOf, GreedyClusters.members, Prod.map_fst,
    Prod.map_snd, ← List.map_cons, List.map_map]
  rfl

end Gathering

/-! ## Against all pairs -/

/-- The order of the visits does not depend on the order of the input. -/
theorem sortBy_cmp_congr {spans ss' : List (AskSpan F)}
    (hk : (spans.map fun s => (s.memoryId, s.byteStart)).Nodup)
    (hp : ss'.Perm spans) :
    sortBy AskSpan.cmp ss' = sortBy AskSpan.cmp spans := by
  refine ComparisonSort.insertionSort_congr ?_ hp
  intro a ha b hb heq
  unfold AskSpan.cmp at heq
  rw [Ordering.then_eq_eq, Ordering.then_eq_eq] at heq
  refine List.inj_on_of_nodup_map hk ha hb ?_
  exact Prod.ext (Std.LawfulEqCmp.eq_of_compare heq.2.1) (Std.LawfulEqCmp.eq_of_compare heq.2.2)

/-- **Clustering through the index is clustering by all pairs.** -/
theorem sparse_clustering_eq_all_pairs (hF : ZeroSimilarity F) (rules : AskRules) {threshold : F}
    (hpos : F32.lt (F32.lit 0) threshold = true) {spans : List (AskSpan F)}
    (hkeys : (spans.map fun span => (span.memoryId, span.byteStart)).Nodup)
    (groups : ExtTreeMap String String strCmp) :
    clusterWithGroups rules threshold spans groups
        = sortBy rankCmp ((sparseClusters rules threshold spans groups).map (representative spans))
      ∧ clusterWithGroups rules threshold spans groups
        = allPairsReference rules threshold spans groups
      ∧ (sparseClusters rules threshold spans groups).map AskCluster.summary
        = (allPairsClusters rules threshold spans groups).map AskCluster.summary
      ∧ (∀ c ∈ sparseClusters rules threshold spans groups,
        c.supporting.Nodup ∧ ∀ key, key ∈ c.supporting
          ↔ ∃ i ∈ c.members, supportKey (spans.get i).memoryId groups = key)
      ∧ (∀ i, (sparseClusters rules threshold spans groups).countP (fun c => i ∈ c.members) = 1)
      ∧ ∀ spans' : List (AskSpan F), spans'.Perm spans →
        clusterWithGroups rules threshold spans' groups
          = clusterWithGroups rules threshold spans groups := by
  have hs : ∀ spans : List (AskSpan F), _ := takesJoining_sparse hF hpos rules
  have hga : ∀ spans : List (AskSpan F), _ := fun spans =>
    gathers_gather rules threshold spans groups
  have ha := takesJoining_allPairs rules threshold spans
  have hg := gathers_gatherAllPairs rules threshold spans groups
  have hv : ∀ spans : List (AskSpan F), clusterWithGroups rules threshold spans groups
      = sortBy rankCmp ((GreedyClusters.clusters (joins rules threshold)
          (sortBy AskSpan.cmp spans)).map (representativeOf groups)) := by
    intro spans
    rw [clusterWithGroups_eq, sparseClusters, map_representative_clustersOf (hga spans) (hs spans)]
  refine ⟨clusterWithGroups_eq _ _ _ _, ?_, ?_, fun c hc => ?_, fun i => ?_, ?_⟩
  · rw [hv, allPairsReference, allPairsClusters, map_representative_clustersOf hg ha]
  · rw [sparseClusters, allPairsClusters, map_summary_clustersOf (hga spans) (hs spans),
      map_summary_clustersOf hg ha]
  · exact supporting_clustersOf (hga spans) (hs spans) hc
  · exact countP_members_clustersOf (hga spans) (hs spans) i
  · intro spans' hp
    rw [hv, hv, sortBy_cmp_congr hkeys hp]

theorem zeroSimilarity_rat : ZeroSimilarity ℚ where
  zero_div n _ := by
    change ((0 : ℕ) : ℚ) / (n : ℚ) = 0
    rw [Nat.cast_zero, zero_div]
  not_le_of_lt a b h := by
    have hlt : a < b := of_decide_eq_true h
    exact decide_eq_false (not_le.mpr hlt)

def formatSpan (memoryId : String) (byteStart : ℕ) (text : String) : AskSpan ℚ :=
  ⟨memoryId, byteStart, byteStart + text.utf8ByteSize, text, 1 / 2, "human_explicit", 9 / 10, none,
    none⟩

/-- Two notes say the same and a third says something else. -/
def formatSpans : List (AskSpan ℚ) :=
  [formatSpan "a" 0 "Run cargo fmt before a release.",
    formatSpan "b" 0 "Run cargo fmt before a release.",
    formatSpan "b" 40 "The index is rebuilt at night."]

theorem sparse_clustering_eq_all_pairs_format :
    F32.lt (F32.lit 0) (clusterSimilarityThreshold : ℚ) = true
      ∧ (formatSpans.map fun span => (span.memoryId, span.byteStart)).Nodup
      ∧ clusterWithGroups asciiRules clusterSimilarityThreshold formatSpans ∅
        = allPairsReference asciiRules clusterSimilarityThreshold formatSpans ∅ := by
  have hp : F32.lt (F32.lit 0) (clusterSimilarityThreshold : ℚ) = true := by decide +kernel
  have hk : (formatSpans.map fun span => (span.memoryId, span.byteStart)).Nodup := by decide
  exact ⟨hp, hk, (sparse_clustering_eq_all_pairs zeroSimilarity_rat asciiRules hp hk ∅).2.1⟩

end Ask
