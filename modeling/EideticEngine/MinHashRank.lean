/-
# MinHash ranking of graph nodes

Nodes are ranked by the number of incoming edges, in the upper bits of a key, and by a sketch of
their incoming edge sets in the lower bits; ties go by the numbers of edges and by identifier.
Sketches are computed for the nodes that can be among the first only: those with more incoming
edges than the node at the last place, and those with as many; of nodes without incoming edges,
which have no sketch, the best by outgoing edges are taken.  The result is the beginning of the
ranking of all nodes.
-/
import EideticEngine.TopSelection
import EideticEngine.UlidSort

namespace MinHashRank

open BoundedInsert StableSort TopSelection UlidSort
open RustText (asBytes)

/-! ## Sketches -/

/-- What the ranking reads of an `fnx_classes::DiGraph`. -/
structure DiGraph where
  nodesOrdered : List String
  nodup : nodesOrdered.Nodup
  inDegree : String → ℕ
  outDegree : String → ℕ
  predecessors : String → List String

/-- The graph of a list of edges. -/
def DiGraph.ofEdges (edges : List (String × String)) : DiGraph where
  nodesOrdered := (edges.flatMap fun (source, target) => [source, target]).dedup
  nodup := List.nodup_dedup _
  inDegree node := edges.countP fun (_, target) => target = node
  outDegree node := edges.countP fun (source, _) => source = node
  predecessors node := edges.filterMap fun (source, target) =>
    if target = node then some source else none

/-- `splitmix64`. -/
def splitmix64 (value : UInt64) : UInt64 :=
  let value := value + 0x9e3779b97f4a7c15
  let value := (value ^^^ (value >>> 30)) * 0xbf58476d1ce4e5b9
  let value := (value ^^^ (value >>> 27)) * 0x94d049bb133111eb
  value ^^^ (value >>> 31)

/-- `fnv1a_update`. -/
def fnv1aUpdate (hash : UInt64) (bytes : List UInt8) : UInt64 :=
  bytes.foldl (fun hash byte => (hash ^^^ byte.toUInt64) * 0x00000100000001b3) hash

/-- `NODE_HASH_SEED`. -/
def nodeHashSeed : UInt64 :=
  fnv1aUpdate 0xcbf29ce484222325 (asBytes "ee.graph.minhash_rank.node.v1")

/-- `stable_node_hash`. -/
def stableNodeHash (node : String) : UInt64 := splitmix64 (fnv1aUpdate nodeHashSeed (asBytes node))

/-- `u64::rotate_left`. -/
def rotateLeft (value : UInt64) (count : UInt64) : UInt64 :=
  (value <<< count) ||| (value >>> (64 - count))

/-- `stable_edge_hash`. -/
def stableEdgeHash (sourceHash targetHash : UInt64) : UInt64 :=
  splitmix64 (sourceHash ^^^ rotateLeft targetHash 31 ^^^ 0x4f1b5d9ab7156a37)

/-- `seeded_minhash_value`. -/
def seededMinhashValue (seed : ℕ) (edgeHash : UInt64) : UInt64 :=
  splitmix64 (edgeHash ^^^ (UInt64.ofNat seed * 0x9e3779b97f4a7c15))

/-- The signature of a node: for every seed the least value over its incoming edges. -/
def signature (graph : DiGraph) (signatureCount : ℕ) (target : String) : List UInt64 :=
  (graph.predecessors target).foldl (fun signature source =>
      let edgeHash := stableEdgeHash (stableNodeHash source) (stableNodeHash target)
      signature.mapIdx fun seed slot =>
        let value := seededMinhashValue seed edgeHash
        if value < slot then value else slot)
    (List.replicate signatureCount 0xffffffffffffffff)

/-- `exact_density_key`. -/
def exactDensityKey (incomingEdgeCount : ℕ) : ℕ := (min incomingEdgeCount 0xffff) <<< 48

/-- `signature_density_key`. -/
def signatureDensityKey (incomingEdgeCount : ℕ) (sketchMin : UInt64) : ℕ :=
  let sketch :=
    if incomingEdgeCount = 0 then 0 else ((2 ^ 64 - 1 - sketchMin.toNat) >>> 16) % 2 ^ 48
  exactDensityKey incomingEdgeCount ||| sketch

/-! ## The ranking -/

/-- `MinHashRankPolicy`. -/
structure MinHashRankPolicy where
  signatureCount : ℕ
  topK : ℕ

/-- `MinHashRankPolicy::normalized`. -/
def MinHashRankPolicy.normalized (policy : MinHashRankPolicy) : MinHashRankPolicy :=
  ⟨max 1 (min policy.signatureCount 256), max policy.topK 1⟩

/-- `MinHashRankScore`, without its rank. -/
structure MinHashRankScore where
  node : String
  signatureDensity : ℕ
  incomingEdgeCount : ℕ
  outgoingEdgeCount : ℕ
  signature : List UInt64
  deriving DecidableEq

/-- `MinHashRankCandidate`. -/
structure MinHashRankCandidate where
  nodeIndex : ℕ
  signatureDensity : ℕ
  incomingEdgeCount : ℕ
  outgoingEdgeCount : ℕ
  deriving DecidableEq

/-- `candidate_primary_order`. -/
def candidatePrimaryOrder (left right : MinHashRankCandidate) : Ordering :=
  (compare right.signatureDensity left.signatureDensity).then
    ((compare right.incomingEdgeCount left.incomingEdgeCount).then
      ((compare right.outgoingEdgeCount left.outgoingEdgeCount).then
        (compare left.nodeIndex right.nodeIndex)))

/-- `candidate_zero_marginal_order`. -/
def candidateZeroMarginalOrder (left right : MinHashRankCandidate) : Ordering :=
  (compare right.outgoingEdgeCount left.outgoingEdgeCount).then
    (compare left.nodeIndex right.nodeIndex)

/-- The order of the second sort of the rows. -/
def rowOrder (left right : MinHashRankScore) : Ordering :=
  (compare right.signatureDensity left.signatureDensity).then
    ((compare right.incomingEdgeCount left.incomingEdgeCount).then
      (compare right.outgoingEdgeCount left.outgoingEdgeCount))

section

variable (graph : DiGraph)

/-- The nodes of `MinHashRankInput`. -/
def rankNodes : List String := sortByUlidPayloadOrLexical id graph.nodesOrdered

/-- The candidates, one for every node. -/
def allCandidates : List MinHashRankCandidate :=
  (rankNodes graph).zipIdx.map fun (node, index) =>
    ⟨index, exactDensityKey (graph.inDegree node), graph.inDegree node, graph.outDegree node⟩

/-- The row of a candidate. -/
def candidateRow (signatureCount : ℕ) (candidate : MinHashRankCandidate) : MinHashRankScore :=
  let target := (rankNodes graph)[candidate.nodeIndex]?.getD ""
  let signature := signature graph signatureCount target
  { node := target
    signatureDensity :=
      signatureDensityKey candidate.incomingEdgeCount (signature.head?.getD 0xffffffffffffffff)
    incomingEdgeCount := candidate.incomingEdgeCount
    outgoingEdgeCount := candidate.outgoingEdgeCount
    signature }

/-- The two sorts of the rows. -/
def sortRows (rows : List MinHashRankScore) : List MinHashRankScore :=
  sortBy rowOrder (sortByUlidPayloadOrLexical MinHashRankScore.node rows)

/-- The candidates that can be among the first: those above the marginal density and those on
it, of which some are enough when the density is zero. -/
def selectCandidates (select : SelectNth candidatePrimaryOrder)
    (selectZero : SelectNth candidateZeroMarginalOrder) (topK : ℕ)
    (candidates : List MinHashRankCandidate) : List MinHashRankCandidate :=
  if candidates.length ≤ topK then candidates
  else
    let candidates := select.run (topK - 1) candidates
    match candidates[topK - 1]? with
    | none => candidates
    | some pivot =>
      let marginalDensity := pivot.signatureDensity
      let strict := candidates.filter fun candidate => marginalDensity < candidate.signatureDensity
      let marginal :=
        candidates.filter fun candidate => candidate.signatureDensity = marginalDensity
      let neededFromMarginal := topK - strict.length
      if marginalDensity = 0 ∧ neededFromMarginal < marginal.length then
        strict ++ (selectZero.run neededFromMarginal marginal).take neededFromMarginal
      else strict ++ marginal

/-- The rows of `compute_minhash_rank_unbudgeted`, with their ranks. -/
def computeMinhashRankUnbudgeted (select : SelectNth candidatePrimaryOrder)
    (selectZero : SelectNth candidateZeroMarginalOrder) (policy : MinHashRankPolicy) :
    List (ℕ × MinHashRankScore) :=
  let candidates := selectCandidates select selectZero policy.topK (allCandidates graph)
  let rows :=
    (sortRows (candidates.map (candidateRow graph policy.signatureCount))).take policy.topK
  rows.mapIdx fun index row => (index + 1, row)

/-- The scores of `compute_minhash_rank_with_cx`. -/
def computeMinhashRank (select : SelectNth candidatePrimaryOrder)
    (selectZero : SelectNth candidateZeroMarginalOrder) (policy : MinHashRankPolicy) :
    List (ℕ × MinHashRankScore) :=
  computeMinhashRankUnbudgeted graph select selectZero policy.normalized

/-- The ranking of all nodes. -/
def fullRanking (signatureCount : ℕ) : List (ℕ × MinHashRankScore) :=
  (sortRows ((allCandidates graph).map (candidateRow graph signatureCount))).mapIdx
    fun index row => (index + 1, row)

end

/-! ## Keys -/

theorem exactDensityKey_eq (n : ℕ) : exactDensityKey n = min n 0xffff * 2 ^ 48 :=
  Nat.shiftLeft_eq _ _

theorem exactDensityKey_eq_zero_iff {n : ℕ} : exactDensityKey n = 0 ↔ n = 0 := by
  rw [exactDensityKey_eq]
  omega

/-- The key is the exact part and less than a unit of it. -/
theorem signatureDensityKey_bounds (n : ℕ) (sm : UInt64) :
    exactDensityKey n ≤ signatureDensityKey n sm ∧
      signatureDensityKey n sm < (min n 0xffff + 1) * 2 ^ 48 := by
  unfold signatureDensityKey
  dsimp only
  set s := if n = 0 then 0 else ((2 ^ 64 - 1 - sm.toNat) >>> 16) % 2 ^ 48 with hsketch
  have hlt : s < 2 ^ 48 := by
    rw [hsketch]
    split
    · exact Nat.two_pow_pos 48
    · exact Nat.mod_lt _ (Nat.two_pow_pos 48)
  have hor : exactDensityKey n ||| s = exactDensityKey n + s :=
    (Nat.shiftLeft_add_eq_or_of_lt hlt _).symm
  rw [hor, exactDensityKey_eq]
  omega

/-- More exact density is more density. -/
theorem signatureDensityKey_lt {m n : ℕ} (h : exactDensityKey m < exactDensityKey n)
    (sm sm' : UInt64) :
    signatureDensityKey m sm < signatureDensityKey n sm' := by
  have hm := (signatureDensityKey_bounds m sm).2
  have hn := (signatureDensityKey_bounds n sm').1
  rw [exactDensityKey_eq, exactDensityKey_eq] at h
  rw [exactDensityKey_eq] at hn
  omega

theorem signatureDensityKey_zero (sm : UInt64) : signatureDensityKey 0 sm = 0 := by
  have he : exactDensityKey 0 = 0 := exactDensityKey_eq_zero_iff.mpr rfl
  unfold signatureDensityKey
  dsimp only
  rw [if_pos rfl, he, Nat.or_zero]

/-! ## Sorted rows -/

/-- The order of the ranking: denser first, then by edges, then by identifier. -/
def rankingOrder (left right : MinHashRankScore) : Ordering :=
  (rowOrder left right).then (compareUlidPayloadOrLexical left.node right.node)

/-- A comparison with the sides exchanged. -/
theorem transCmp_swap {α β : Type*} (cmp : β → β → Ordering) [Std.TransCmp cmp] (key : α → β) :
    Std.TransCmp fun a b => cmp (key b) (key a) where
  eq_swap := Std.OrientedCmp.eq_swap
  isLE_trans hab hbc := Std.TransCmp.isLE_trans hbc hab

instance : Std.TransCmp rowOrder := by
  have hdensity := transCmp_swap compare MinHashRankScore.signatureDensity
  have hincoming := transCmp_swap compare MinHashRankScore.incomingEdgeCount
  have houtgoing := transCmp_swap compare MinHashRankScore.outgoingEdgeCount
  exact inferInstanceAs (Std.TransCmp (compareLex
    (fun a b : MinHashRankScore => compare b.signatureDensity a.signatureDensity)
    (compareLex (fun a b : MinHashRankScore => compare b.incomingEdgeCount a.incomingEdgeCount)
      fun a b : MinHashRankScore => compare b.outgoingEdgeCount a.outgoingEdgeCount)))

instance : Std.TransCmp rankingOrder := by
  have hnode : Std.TransCmp fun a b : MinHashRankScore =>
      compareUlidPayloadOrLexical a.node b.node := ComparisonSort.transCmp_on MinHashRankScore.node
  exact inferInstanceAs (Std.TransCmp (compareLex rowOrder
    fun a b : MinHashRankScore => compareUlidPayloadOrLexical a.node b.node))

theorem perm_sortRows (r : List MinHashRankScore) : (sortRows r).Perm r := by
  unfold sortRows
  rw [sortByUlidPayloadOrLexical_eq]
  exact (List.perm_insertionSort _ _).trans (List.perm_insertionSort _ _)

/-- Rows of different nodes are sorted strictly by the ranking. -/
theorem strictlySorted_sortRows {r : List MinHashRankScore}
    (hn : (r.map MinHashRankScore.node).Nodup) :
    StrictlySorted rankingOrder (sortRows r) := by
  have hno : Std.TransCmp fun a b : MinHashRankScore =>
      compareUlidPayloadOrLexical a.node b.node := ComparisonSort.transCmp_on MinHashRankScore.node
  have hmi : IsStableSort (fun a b : MinHashRankScore =>
      compareUlidPayloadOrLexical a.node b.node) r
      (sortByUlidPayloadOrLexical MinHashRankScore.node r) := by
    rw [sortByUlidPayloadOrLexical_eq]
    exact isStableSort_sortBy r
  have hm : IsStableSort rowOrder (sortByUlidPayloadOrLexical MinHashRankScore.node r)
      (sortRows r) := isStableSort_sortBy _
  have hs := (hmi.then hm).sorted
  have hd : (sortRows r).Pairwise fun a b => a.node ≠ b.node := by
    have h := (((perm_sortRows r).map MinHashRankScore.node).nodup_iff).mpr hn
    exact List.pairwise_map.mp h
  refine List.Pairwise.imp₂ ?_ hs hd
  intro a b hab hne
  cases hc : rankingOrder a b with
  | lt => rfl
  | eq =>
    have hid := (Ordering.then_eq_eq.mp hc).2
    exact absurd (Std.LawfulEqCmp.eq_of_compare hid) hne
  | gt => exact absurd hc hab

/-! ## Candidates -/

section

variable {graph : DiGraph} {signatureCount : ℕ}

theorem pairwise_rankNodes :
    (rankNodes graph).Pairwise fun a b => compareUlidPayloadOrLexical a b = .lt := by
  have hs : IsStableSort compareUlidPayloadOrLexical graph.nodesOrdered (rankNodes graph) := by
    unfold rankNodes
    rw [sortByUlidPayloadOrLexical_eq]
    exact isStableSort_sortBy _
  have hp : (rankNodes graph).Perm graph.nodesOrdered := by
    unfold rankNodes
    rw [sortByUlidPayloadOrLexical_eq]
    exact List.perm_insertionSort _ _
  refine List.Pairwise.imp₂ ?_ hs.sorted (hp.nodup_iff.mpr graph.nodup)
  intro a b hab hne
  cases hc : compareUlidPayloadOrLexical a b with
  | lt => rfl
  | eq => exact absurd (Std.LawfulEqCmp.eq_of_compare hc) hne
  | gt => exact absurd hc hab

/-- The candidate of a node. -/
theorem mem_allCandidates {c : MinHashRankCandidate} :
    c ∈ allCandidates graph ↔ ∃ node, (rankNodes graph)[c.nodeIndex]? = some node ∧
      c = ⟨c.nodeIndex, exactDensityKey (graph.inDegree node), graph.inDegree node,
        graph.outDegree node⟩ := by
  unfold allCandidates
  rw [List.mem_map]
  constructor
  · rintro ⟨⟨node, index⟩, hm, rfl⟩
    exact ⟨node, List.mk_mem_zipIdx_iff_getElem?.mp hm, rfl⟩
  · rintro ⟨node, hn, hc⟩
    exact ⟨(node, c.nodeIndex), List.mk_mem_zipIdx_iff_getElem?.mpr hn, hc.symm⟩

theorem signatureDensity_of_mem {c : MinHashRankCandidate} (hc : c ∈ allCandidates graph) :
    c.signatureDensity = exactDensityKey c.incomingEdgeCount := by
  obtain ⟨node, -, hc⟩ := mem_allCandidates.mp hc
  rw [hc]

/-- The rows of all candidates are those of the nodes, in order. -/
theorem map_node_rows (signatureCount : ℕ) :
    ((allCandidates graph).map (candidateRow graph signatureCount)).map MinHashRankScore.node
      = rankNodes graph := by
  unfold allCandidates
  rw [List.map_map, List.map_map]
  refine List.ext_getElem? fun i => ?_
  rw [List.getElem?_map, List.getElem?_zipIdx]
  cases hn : (rankNodes graph)[i]? with
  | none => rfl
  | some node => simp [candidateRow, hn]

theorem nodup_rankNodes : (rankNodes graph).Nodup :=
  StrictlySorted.nodup pairwise_rankNodes

/-- Different candidates have rows of different nodes. -/
theorem eq_of_row_node_eq {c d : MinHashRankCandidate} (hc : c ∈ allCandidates graph)
    (hd : d ∈ allCandidates graph)
    (h : (candidateRow graph signatureCount c).node = (candidateRow graph signatureCount d).node) :
    c = d := by
  have hn : (rankNodes graph).Nodup := nodup_rankNodes
  rw [← map_node_rows signatureCount, List.map_map] at hn
  exact List.inj_on_of_nodup_map hn hc hd h

/-- More exact density makes a better row. -/
theorem rankingOrder_of_density {c d : MinHashRankCandidate} (hc : c ∈ allCandidates graph)
    (hd : d ∈ allCandidates graph) (h : d.signatureDensity < c.signatureDensity) :
    rankingOrder (candidateRow graph signatureCount c) (candidateRow graph signatureCount d)
      = .lt := by
  rw [signatureDensity_of_mem hc, signatureDensity_of_mem hd] at h
  have hlt : compare (candidateRow graph signatureCount d).signatureDensity
      (candidateRow graph signatureCount c).signatureDensity = .lt :=
    Nat.compare_eq_lt.mpr (signatureDensityKey_lt h _ _)
  unfold rankingOrder rowOrder
  rw [hlt]
  rfl

/-- Without incoming edges the ranking goes by outgoing edges and index. -/
theorem rankingOrder_of_zero {c d : MinHashRankCandidate} (hc : c ∈ allCandidates graph)
    (hd : d ∈ allCandidates graph) (hcz : c.signatureDensity = 0)
    (hdz : d.signatureDensity = 0) (hne : c ≠ d)
    (h : candidateZeroMarginalOrder c d ≠ .gt) :
    rankingOrder (candidateRow graph signatureCount c) (candidateRow graph signatureCount d)
      = .lt := by
  rw [signatureDensity_of_mem hc, exactDensityKey_eq_zero_iff] at hcz
  rw [signatureDensity_of_mem hd, exactDensityKey_eq_zero_iff] at hdz
  obtain ⟨node, hn, hce⟩ := mem_allCandidates.mp hc
  obtain ⟨n', hn', hdeq⟩ := mem_allCandidates.mp hd
  have hde : compare (candidateRow graph signatureCount d).signatureDensity
      (candidateRow graph signatureCount c).signatureDensity = .eq := by
    simp only [candidateRow]
    rw [hcz, hdz, signatureDensityKey_zero, signatureDensityKey_zero]
    rfl
  have hin : compare (candidateRow graph signatureCount d).incomingEdgeCount
      (candidateRow graph signatureCount c).incomingEdgeCount = .eq := by
    simp only [candidateRow]
    rw [hcz, hdz]
    rfl
  unfold rankingOrder rowOrder
  rw [hde, hin]
  show ((compare d.outgoingEdgeCount c.outgoingEdgeCount).then _) = .lt
  unfold candidateZeroMarginalOrder at h
  cases ho : compare d.outgoingEdgeCount c.outgoingEdgeCount with
  | lt => rfl
  | gt => exact absurd (by rw [ho]; rfl) h
  | eq =>
    rw [ho] at h
    have hind : c.nodeIndex < d.nodeIndex := by
      have hle : c.nodeIndex ≤ d.nodeIndex := Nat.compare_ne_gt.mp h
      refine lt_of_le_of_ne hle fun heq => hne ?_
      rw [heq, hn'] at hn
      cases hn
      rw [hce, hdeq, heq]
    have hr : ∀ {c : MinHashRankCandidate} {node : String},
        (rankNodes graph)[c.nodeIndex]? = some node →
        (candidateRow graph signatureCount c).node = node := by
      intro c node hn
      simp [candidateRow, hn]
    show compareUlidPayloadOrLexical _ _ = .lt
    rw [hr hn, hr hn']
    obtain ⟨hi, hgi⟩ := List.getElem?_eq_some_iff.mp hn
    obtain ⟨hj, hgj⟩ := List.getElem?_eq_some_iff.mp hn'
    rw [← hgi, ← hgj]
    exact List.pairwise_iff_getElem.mp pairwise_rankNodes _ _ hi hj hind

/-- Nothing up to the place of the pivot is less dense than it. -/
theorem density_le_of_primary {c d : MinHashRankCandidate}
    (h : candidatePrimaryOrder c d ≠ .gt) : d.signatureDensity ≤ c.signatureDensity := by
  by_contra hlt
  have hgt : compare d.signatureDensity c.signatureDensity = .gt :=
    Nat.compare_eq_gt.mpr (not_le.mp hlt)
  refine h ?_
  unfold candidatePrimaryOrder
  rw [hgt]
  rfl

instance : Std.TransCmp candidatePrimaryOrder := by
  have hdensity := transCmp_swap compare MinHashRankCandidate.signatureDensity
  have hincoming := transCmp_swap compare MinHashRankCandidate.incomingEdgeCount
  have houtgoing := transCmp_swap compare MinHashRankCandidate.outgoingEdgeCount
  exact inferInstanceAs (Std.TransCmp (compareLex
    (fun a b : MinHashRankCandidate => compare b.signatureDensity a.signatureDensity)
    (compareLex
      (fun a b : MinHashRankCandidate => compare b.incomingEdgeCount a.incomingEdgeCount)
      (compareLex
        (fun a b : MinHashRankCandidate => compare b.outgoingEdgeCount a.outgoingEdgeCount)
        (compareOn MinHashRankCandidate.nodeIndex)))))

instance : Std.TransCmp candidateZeroMarginalOrder := by
  have houtgoing := transCmp_swap compare MinHashRankCandidate.outgoingEdgeCount
  exact inferInstanceAs (Std.TransCmp (compareLex
    (fun a b : MinHashRankCandidate => compare b.outgoingEdgeCount a.outgoingEdgeCount)
    (compareOn MinHashRankCandidate.nodeIndex)))

/-- What a selection of candidates has to keep: it has no candidate twice, and a candidate that
is left out is behind as many selected ones as are wanted. -/
structure Sufficient (graph : DiGraph) (signatureCount topK : ℕ)
    (selection : List MinHashRankCandidate) : Prop where
  nodup : selection.Nodup
  sub : ∀ c ∈ selection, c ∈ allCandidates graph
  enough : ∀ x ∈ allCandidates graph, x ∉ selection → topK ≤ selection.length ∧
    ∀ y ∈ selection, rankingOrder (candidateRow graph signatureCount y)
      (candidateRow graph signatureCount x) = .lt

theorem nodup_allCandidates : (allCandidates graph).Nodup := by
  have hn : (rankNodes graph).Nodup := nodup_rankNodes
  rw [← map_node_rows 0, List.map_map] at hn
  exact hn.of_map

section Parts

variable {chosen : List MinHashRankCandidate} {density topK : ℕ}

theorem mem_strict_iff (hp : chosen.Perm (allCandidates graph)) {c : MinHashRankCandidate} :
    c ∈ chosen.filter (fun c => density < c.signatureDensity) ↔
      c ∈ allCandidates graph ∧ density < c.signatureDensity := by
  rw [List.mem_filter, decide_eq_true_eq, hp.mem_iff]

theorem mem_marginal_iff (hp : chosen.Perm (allCandidates graph)) {c : MinHashRankCandidate} :
    c ∈ chosen.filter (fun c => c.signatureDensity = density) ↔
      c ∈ allCandidates graph ∧ c.signatureDensity = density := by
  rw [List.mem_filter, decide_eq_true_eq, hp.mem_iff]

/-- The whole marginal group with what is above it, when they are enough. -/
theorem sufficient_of_group (hp : chosen.Perm (allCandidates graph))
    {f : List MinHashRankCandidate} (hf : f.Nodup) (hl : f.length = topK)
    (hd : ∀ c ∈ f, c ∈ allCandidates graph ∧ density ≤ c.signatureDensity) :
    Sufficient graph signatureCount topK (chosen.filter (fun c => density < c.signatureDensity)
        ++ chosen.filter (fun c => c.signatureDensity = density)) := by
  have hn : chosen.Nodup := hp.nodup_iff.mpr nodup_allCandidates
  refine ⟨?_, ?_, ?_⟩
  · refine List.nodup_append.mpr ⟨hn.filter _, hn.filter _, ?_⟩
    rintro a ha _ hb rfl
    exact absurd ((mem_marginal_iff hp).mp hb).2 ((mem_strict_iff hp).mp ha).2.ne'
  · intro c hc
    rcases List.mem_append.mp hc with hc | hc
    · exact ((mem_strict_iff hp).mp hc).1
    · exact ((mem_marginal_iff hp).mp hc).1
  · intro x hx ho
    rw [List.mem_append, not_or, mem_strict_iff hp, mem_marginal_iff hp] at ho
    have hxl : x.signatureDensity < density := by
      by_contra hle
      rcases Nat.lt_or_eq_of_le (not_lt.mp hle) with hlt | heq
      · exact ho.1 ⟨hx, hlt⟩
      · exact ho.2 ⟨hx, heq.symm⟩
    refine ⟨?_, ?_⟩
    · have hi : f ⊆ chosen.filter (fun c => density < c.signatureDensity)
          ++ chosen.filter (fun c => c.signatureDensity = density) := by
        intro c hc
        obtain ⟨hca, hle⟩ := hd c hc
        rcases Nat.lt_or_eq_of_le hle with hlt | heq
        · exact List.mem_append_left _ ((mem_strict_iff hp).mpr ⟨hca, hlt⟩)
        · exact List.mem_append_right _ ((mem_marginal_iff hp).mpr ⟨hca, heq.symm⟩)
      rw [← hl]
      exact (List.subperm_of_subset hf hi).length_le
    · intro y hy
      rcases List.mem_append.mp hy with hy | hy
      · obtain ⟨hya, hyd⟩ := (mem_strict_iff hp).mp hy
        exact rankingOrder_of_density hya hx (hxl.trans hyd)
      · obtain ⟨hya, hyd⟩ := (mem_marginal_iff hp).mp hy
        exact rankingOrder_of_density hya hx (hyd ▸ hxl)

/-- A part of the nodes without incoming edges with all that have some, when they are enough. -/
theorem sufficient_of_trimmed (hp : chosen.Perm (allCandidates graph))
    {k dropped : List MinHashRankCandidate}
    (hpa : (k ++ dropped).Perm (chosen.filter fun c => c.signatureDensity = 0))
    (hbe : ∀ a ∈ k, ∀ b ∈ dropped, candidateZeroMarginalOrder a b ≠ .gt)
    (hl : topK ≤ (chosen.filter fun c => 0 < c.signatureDensity).length + k.length) :
    Sufficient graph signatureCount topK
      (chosen.filter (fun c => 0 < c.signatureDensity) ++ k) := by
  have hn : chosen.Nodup := hp.nodup_iff.mpr nodup_allCandidates
  have hk : ∀ c ∈ k, c ∈ allCandidates graph ∧ c.signatureDensity = 0 := fun c hc =>
    (mem_marginal_iff hp).mp (hpa.subset (List.mem_append_left _ hc))
  refine ⟨?_, ?_, ?_⟩
  · refine List.nodup_append.mpr ⟨hn.filter _, ?_, ?_⟩
    · exact (List.nodup_append.mp (hpa.nodup_iff.mpr (hn.filter _))).1
    · rintro a ha _ hb rfl
      exact absurd (hk a hb).2 ((mem_strict_iff hp).mp ha).2.ne'
  · intro c hc
    rcases List.mem_append.mp hc with hc | hc
    · exact ((mem_strict_iff hp).mp hc).1
    · exact (hk c hc).1
  · intro x hx ho
    rw [List.mem_append, not_or, mem_strict_iff hp] at ho
    have hxz : x.signatureDensity = 0 := by
      by_contra hpos
      exact ho.1 ⟨hx, Nat.pos_of_ne_zero hpos⟩
    have hxd : x ∈ dropped := (List.mem_append.mp (hpa.mem_iff.mpr
        ((mem_marginal_iff hp).mpr ⟨hx, hxz⟩))).resolve_left ho.2
    refine ⟨by rwa [List.length_append], ?_⟩
    intro y hy
    rcases List.mem_append.mp hy with hy | hy
    · obtain ⟨hya, hyd⟩ := (mem_strict_iff hp).mp hy
      exact rankingOrder_of_density hya hx (hxz ▸ hyd)
    · obtain ⟨hya, hyz⟩ := hk y hy
      refine rankingOrder_of_zero hya hx hyz hxz ?_ (hbe y hy x hxd)
      rintro rfl
      exact ho.2 hy

end Parts

/-- **The candidates that are selected are sufficient.** -/
theorem sufficient_selectCandidates (select : SelectNth candidatePrimaryOrder)
    (sz : SelectNth candidateZeroMarginalOrder) {topK : ℕ} (hto : 0 < topK) :
    Sufficient graph signatureCount topK
      (selectCandidates select sz topK (allCandidates graph)) := by
  unfold selectCandidates
  split
  · exact ⟨nodup_allCandidates, fun c hc => hc, fun x hx ho => absurd hx ho⟩
  · rename_i hm
    have hs := select.selected (topK - 1) (allCandidates graph) (by omega)
    have hp := hs.perm
    obtain ⟨p, hpi, hf, hl⟩ := hs.take_succ
    rw [Nat.sub_add_cancel hto] at hf hl
    dsimp only
    rw [hpi]
    dsimp only
    split
    · rename_i hz
      obtain ⟨hd, hn⟩ := hz
      rw [hd] at hn ⊢
      have ht := sz.selected _ _ hn
      obtain ⟨hk, hb⟩ := ht.take_drop
      refine sufficient_of_trimmed hp ?_ hb ?_
      · rw [List.take_append_drop]
        exact ht.perm
      · rw [hk]
        omega
    · -- the candidates up to the place of the pivot are as many as are wanted
      refine sufficient_of_group hp ?_ hl ?_
      · exact (hp.nodup_iff.mpr nodup_allCandidates).sublist (List.take_sublist _ _)
      · intro c hc
        exact ⟨hp.subset (List.mem_of_mem_take hc), density_le_of_primary (hf c hc)⟩

/-- Sorting sufficient candidates gives the first rows of all. -/
theorem take_sortRows_eq {topK : ℕ} {s : List MinHashRankCandidate}
    (h : Sufficient graph signatureCount topK s) :
    (sortRows (s.map (candidateRow graph signatureCount))).take topK
      = (sortRows ((allCandidates graph).map (candidateRow graph signatureCount))).take topK := by
  have ha : (((allCandidates graph).map (candidateRow graph signatureCount)).map
      MinHashRankScore.node).Nodup := by
    rw [map_node_rows]
    exact nodup_rankNodes
  have hp : ((s.map (candidateRow graph signatureCount)).map MinHashRankScore.node).Nodup := by
    rw [List.map_map]
    refine h.nodup.map_on fun c hc d hd heq => ?_
    exact eq_of_row_node_eq (h.sub c hc) (h.sub d hd) heq
  refine take_eq_take_of_part (strictlySorted_sortRows ha) (strictlySorted_sortRows hp) ?_ ?_
  · intro row hr
    rw [(perm_sortRows _).mem_iff, List.mem_map] at hr ⊢
    obtain ⟨c, hc, rfl⟩ := hr
    exact ⟨c, h.sub c hc, rfl⟩
  · intro row hr ho
    rw [(perm_sortRows _).mem_iff] at hr ho
    obtain ⟨x, hx, rfl⟩ := List.mem_map.mp hr
    obtain ⟨hco, hb⟩ := h.enough x hx fun hin => ho (List.mem_map_of_mem hin)
    refine ⟨s.map (candidateRow graph signatureCount), hp.of_map, ?_, ?_⟩
    · rwa [List.length_map]
    · intro y hy
      refine ⟨(perm_sortRows _).mem_iff.mpr hy, ?_⟩
      obtain ⟨c, hc, rfl⟩ := List.mem_map.mp hy
      exact hb c hc

end

/-- **The ranking by partial selection is the beginning of the ranking of all nodes**, and that
ranking is the sorted list of the rows of all nodes. -/
theorem computeMinhashRank_eq_take (graph : DiGraph) (select : SelectNth candidatePrimaryOrder)
    (selectZero : SelectNth candidateZeroMarginalOrder) (policy : MinHashRankPolicy) :
    computeMinhashRank graph select selectZero policy
      = (fullRanking graph policy.normalized.signatureCount).take policy.normalized.topK ∧
    ∃ rows, fullRanking graph policy.normalized.signatureCount
        = rows.mapIdx (fun index row => (index + 1, row)) ∧
      rows.Perm ((allCandidates graph).map (candidateRow graph policy.normalized.signatureCount)) ∧
      StrictlySorted rankingOrder rows := by
  refine ⟨?_, _, rfl, perm_sortRows _, strictlySorted_sortRows ?_⟩
  · unfold computeMinhashRank computeMinhashRankUnbudgeted fullRanking
    dsimp only
    have ht : 0 < policy.normalized.topK := Nat.lt_of_lt_of_le Nat.one_pos (le_max_right _ _)
    rw [take_sortRows_eq (sufficient_selectCandidates select selectZero ht)]
    refine List.ext_getElem? fun i => ?_
    simp only [List.getElem?_mapIdx, List.getElem?_take]
    split <;> rfl
  · rw [map_node_rows]
    exact nodup_rankNodes

/-- Two nodes point to the first of the ranking, one to the second. -/
example : (fullRanking (.ofEdges [("a", "c"), ("b", "c"), ("c", "b")]) 4).map
    (fun (rank, row) => (rank, row.node)) = [(1, "c"), (2, "b"), (3, "a")] := by decide +kernel

end MinHashRank
