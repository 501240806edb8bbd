/-
# Clusters of passages

`cluster_with_groups_and_observer` of `src/core/ask_clustering.rs`: the passages are visited
from the best to the worst, and each one that is not assigned yet takes the unassigned ones
that agree with it.  Which can agree is read from an index of the terms.  A cluster is
represented by the passage that opened it, with a score raised by its independent support.
-/
import EideticEngine.AskNative
import EideticEngine.OrderedMap

namespace Ask

open RustText (strCmp)
open StableSort (sortBy)
open Std (ExtTreeMap)

/-- A passage of a memory, with its score. -/
structure AskSpan (F : Type) where
  memoryId : String
  byteStart : ℕ
  byteEnd : ℕ
  text : String
  score : F
  trustClass : String
  memoryConfidence : F
  provenanceUri : Option String
  teamProvenance : Option TeamProvenance

/-- The equality of indices, fixed here: Mathlib derives its lawfulness in several ways, and which
one is found depends on the imports. -/
instance AskSpan.lawfulBEq {G : Type} (spans : List (AskSpan G)) :
    LawfulBEq (Fin spans.length) := inferInstance

/-- The order of indices, fixed here for the same reason. -/
instance AskSpan.transOrd {G : Type} (spans : List (AskSpan G)) :
    Std.TransOrd (Fin spans.length) := inferInstance

variable {F : Type} [AskF32 F]

/-- Best first; ties go by the memory and the position. -/
def AskSpan.cmp (left right : AskSpan F) : Ordering :=
  (F32.totalCmp right.score left.score).then
    ((strCmp left.memoryId right.memoryId).then (compare left.byteStart right.byteStart))

instance : Std.TransCmp (AskSpan.cmp : AskSpan F → AskSpan F → Ordering) :=
  have : Std.TransCmp fun left right : AskSpan F => F32.totalCmp right.score left.score :=
    @ComparisonSort.transCmp_on _ _ (fun a b : F => F32.totalCmp b a) _ AskSpan.score
  have : Std.TransCmp fun left right : AskSpan F => strCmp left.memoryId right.memoryId :=
    ComparisonSort.transCmp_on AskSpan.memoryId
  have : Std.TransCmp fun left right : AskSpan F => compare left.byteStart right.byteStart :=
    ComparisonSort.transCmp_on AskSpan.byteStart
  inferInstanceAs (Std.TransCmp
    (compareLex (fun left right : AskSpan F => F32.totalCmp right.score left.score)
      (compareLex (fun left right => strCmp left.memoryId right.memoryId)
        fun left right => compare left.byteStart right.byteStart)))

/-- `partial_cmp`, where values that do not compare count as equal. -/
def partialCmp (left right : F) : Ordering :=
  if F32.lt left right then .lt else if F32.lt right left then .gt else .eq

/-- A score with the support of so many independent sources. -/
def corroborate (score : F) (count : ℕ) : F :=
  F32.clamp (F32.mul score (F32.min (supportMultiplier count) corroborationCap))
    (F32.lit 0) (F32.lit 1)

def clusterSimilarityThreshold : F := F32.lit (72 / 100)

section Clustering

variable (rules : AskRules) (threshold : F) (spans : List (AskSpan F))
  (groups : ExtTreeMap String String strCmp)

/-- The terms of a passage. -/
def spanTerms (i : Fin spans.length) : List String := tokenizeForAsk rules (spans.get i).text

/-- The passages that have each term, in order. -/
def postings : ExtTreeMap String (List (Fin spans.length)) strCmp :=
  (List.finRange spans.length).foldl (fun postings i =>
    (spanTerms rules spans i).foldl (fun postings term =>
      postings.insert term (postings[term]?.getD [] ++ [i])) postings) ∅

/-- How many terms each unassigned passage of the same polarity shares with the seed. -/
def intersections (assigned : List (Fin spans.length)) (seed : Fin spans.length) :
    ExtTreeMap (Fin spans.length) ℕ :=
  (spanTerms rules spans seed).foldl (fun counts term =>
    ((postings rules spans)[term]?.getD []).foldl (fun counts other =>
      if other ∉ assigned
          ∧ hasNegation rules (spans.get seed).text = hasNegation rules (spans.get other).text
      then counts.insert other (counts[other]?.getD 0 + 1) else counts) counts) ∅

/-- Whether a passage that shares so many terms with the seed agrees with it. -/
def agrees (seed other : Fin spans.length) (intersection : ℕ) : Bool :=
  let left := (spans.get seed).text
  let right := (spans.get other).text
  let union := (spanTerms rules spans seed).length + (spanTerms rules spans other).length
    - intersection
  numericLiterals rules left = numericLiterals rules right
    && categoricalSettingsCompatible (categoricalSetting rules left)
      (categoricalSetting rules right)
    && F32.le threshold (F32.div (F32.castNat intersection) (F32.castNat union))
    && (left = right || rules.settingsCompatible left right)

/-- The passages that join the seed, and the independent sources of the cluster. -/
def gather (assigned : List (Fin spans.length)) (seed : Fin spans.length) :
    List (Fin spans.length) × List String :=
  (intersections rules spans assigned seed).toList.foldl
    (fun (assigned, supporting) (other, intersection) =>
      if agrees rules threshold spans seed other intersection then
        (other :: assigned, supporting.insert (supportKey (spans.get other).memoryId groups))
      else (assigned, supporting))
    (assigned, [supportKey (spans.get seed).memoryId groups])

/-- Visit a passage: it opens a cluster unless it is assigned. -/
def visitSeed (state : List (Fin spans.length) × List (AskSpan F)) (seed : Fin spans.length) :
    List (Fin spans.length) × List (AskSpan F) :=
  if seed ∈ state.1 then state
  else
    let (assigned, supporting) := gather rules threshold spans groups (seed :: state.1) seed
    let span := spans.get seed
    (assigned, state.2 ++ [{ span with score := corroborate span.score supporting.length }])

/-- The representatives of the clusters, best first. -/
def clusterWithGroups : List (AskSpan F) :=
  let order := sortBy (fun i j => (spans.get i).cmp (spans.get j)) (List.finRange spans.length)
  sortBy (fun left right : AskSpan F =>
      (partialCmp right.score left.score).then (strCmp left.memoryId right.memoryId))
    (order.foldl (visitSeed rules threshold spans groups) ([], [])).2

end Clustering

def clusterSpansWithGroups (rules : AskRules) (spans : List (AskSpan F))
    (groups : ExtTreeMap String String strCmp) : List (AskSpan F) :=
  clusterWithGroups rules clusterSimilarityThreshold spans groups

/-! ## The clusters of a run -/

/-- A cluster: who opened it, who is in it, and its independent sources. -/
structure AskCluster (n : ℕ) where
  seed : Fin n
  members : List (Fin n)
  supporting : List String

section Clusters

variable (rules : AskRules) (threshold : F) (spans : List (AskSpan F))
  (groups : ExtTreeMap String String strCmp)

/-- The order in which the passages are visited. -/
def seedOrder : List (Fin spans.length) :=
  sortBy (fun i j => (spans.get i).cmp (spans.get j)) (List.finRange spans.length)

/-- The final order of the representatives. -/
def rankCmp (left right : AskSpan F) : Ordering :=
  (partialCmp right.score left.score).then (strCmp left.memoryId right.memoryId)

/-- The representative of a cluster. -/
def representative (c : AskCluster spans.length) : AskSpan F :=
  let span := spans.get c.seed
  { span with score := corroborate span.score c.supporting.length }

/-- How a seed takes passages: the assigned ones afterwards, and the sources. -/
abbrev Gatherer (n : ℕ) := List (Fin n) → Fin n → List (Fin n) × List String

/-- Visit a passage, and keep the cluster that it opens with those that the visit assigns. -/
def visitCluster {n : ℕ} (gatherer : Gatherer n) (state : List (Fin n) × List (AskCluster n))
    (seed : Fin n) : List (Fin n) × List (AskCluster n) :=
  if seed ∈ state.1 then state
  else
    let (assigned, supporting) := gatherer (seed :: state.1) seed
    (assigned, state.2 ++ [⟨seed, assigned.filter fun i => i ∉ state.1, supporting⟩])

def clustersOf (gatherer : Gatherer spans.length) : List (AskCluster spans.length) :=
  ((seedOrder spans).foldl (visitCluster gatherer) ([], [])).2

/-- The clusters that `cluster_with_groups_and_observer` forms. -/
def sparseClusters : List (AskCluster spans.length) :=
  clustersOf spans (gather rules threshold spans groups)

theorem gather_ne_nil (assigned : List (Fin spans.length)) (seed : Fin spans.length) :
    (gather rules threshold spans groups assigned seed).2 ≠ [] := by
  unfold gather
  refine List.foldlRecOn (motive := fun s : List (Fin spans.length) × List String =>
    s.2 ≠ []) _ _ (List.cons_ne_nil _ _) ?_
  rintro ⟨assigned, supporting⟩ hne ⟨other, intersection⟩ -
  simp only
  split
  · exact List.ne_nil_of_mem (List.mem_insert_self)
  · exact hne

/-- A cluster has a source. -/
theorem supporting_ne_nil {c : AskCluster spans.length}
    (hc : c ∈ sparseClusters rules threshold spans groups) : c.supporting ≠ [] := by
  unfold sparseClusters clustersOf at hc
  refine List.foldlRecOn (motive := fun s : List (Fin spans.length)
      × List (AskCluster spans.length) => ∀ c ∈ s.2, c.supporting ≠ [])
    _ _ (fun _ h => absurd h List.not_mem_nil) ?_ c hc
  intro s hs seed _
  unfold visitCluster
  split
  · exact hs
  · have hne := gather_ne_nil rules threshold spans groups (seed :: s.1) seed
    generalize gather rules threshold spans groups (seed :: s.1) seed = gathered at hne ⊢
    intro c hc
    rcases List.mem_append.mp hc with ho | hn
    · exact hs c ho
    · rw [List.mem_singleton.mp hn]
      exact hne

/-- **The passages that are returned represent the clusters.** -/
theorem clusterWithGroups_eq :
    clusterWithGroups rules threshold spans groups
      = sortBy rankCmp ((sparseClusters rules threshold spans groups).map
          (representative spans)) := by
  have hs : ∀ (s : List (Fin spans.length) × List (AskCluster spans.length))
      (se : Fin spans.length),
      visitSeed rules threshold spans groups (s.1, s.2.map (representative spans)) se
        = ((visitCluster (gather rules threshold spans groups) s se).1,
          (visitCluster (gather rules threshold spans groups) s se).2.map
            (representative spans)) := by
    intro s se
    unfold visitSeed visitCluster
    by_cases hm : se ∈ s.1
    · rw [if_pos hm, if_pos hm]
    · rw [if_neg hm, if_neg hm]
      generalize gather rules threshold spans groups (se :: s.1) se = gathered
      simp only [List.map_append]
      rfl
  let project (s : List (Fin spans.length) × List (AskCluster spans.length)) :
      List (Fin spans.length) × List (AskSpan F) :=
    (s.1, s.2.map (representative spans))
  have hr : (seedOrder spans).foldl (visitSeed rules threshold spans groups) (project ([], []))
      = project ((seedOrder spans).foldl
          (visitCluster (gather rules threshold spans groups)) ([], [])) :=
    List.foldl_hom project hs
  exact congrArg (fun s : List (Fin spans.length) × List (AskSpan F) => sortBy rankCmp s.2) hr

/-- A passage that is returned is the one that opened a cluster, with its score corroborated. -/
theorem mem_clusterWithGroups {span : AskSpan F}
    (h : span ∈ clusterWithGroups rules threshold spans groups) :
    ∃ c ∈ sparseClusters rules threshold spans groups, span = representative spans c := by
  rw [clusterWithGroups_eq, StableSort.sortBy, List.mem_insertionSort] at h
  obtain ⟨c, hc, hs⟩ := List.mem_map.mp h
  exact ⟨c, hc, hs.symm⟩

end Clusters

end Ask
