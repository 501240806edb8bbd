/-
# The nearest causes of a failure

The explanation of a failure lists all its causes: a breadth-first search finds the number of
hops to each, and the list is ordered by hops and then by identifier.  A boost that wants the
first few causes only walks the graph level by level and keeps, of each level, as many as are
still wanted.  What it returns is the beginning of the complete list, on every graph.
-/
import EideticEngine.BoundedInsert
import EideticEngine.BoundedLoop
import EideticEngine.OrderedMap
import EideticEngine.UlidSort

namespace CausalWalk

open BoundedInsert StableSort UlidSort
open RustText (strCmp)
open Std (ExtTreeMap)

/-! ## The graph -/

/-- What the walks read of an `fnx_classes::DiGraph`: its nodes, and the successors of a node. -/
structure DiGraph where
  nodes : List String
  successors : String → List String
  mem_of_successor : ∀ {u v}, v ∈ successors u → v ∈ nodes

/-- The graph of a list of edges. -/
def DiGraph.ofEdges (edges : List (String × String)) : DiGraph where
  nodes := edges.flatMap fun (source, target) => [source, target]
  successors node := edges.filterMap fun (source, target) =>
    if source = node then some target else none
  mem_of_successor {u v} h := by
    obtain ⟨⟨source, target⟩, hedge, heq⟩ := List.mem_filterMap.mp h
    rw [Option.ite_none_right_eq_some, Option.some.injEq] at heq
    exact List.mem_flatMap.mpr ⟨_, hedge, List.mem_pair.mpr (.inr heq.2.symm)⟩

/-- `CausalAncestor`. -/
structure CausalAncestor where
  memoryId : String
  pathLength : ℕ
  deriving DecidableEq, Repr

/-! ## The bounded walk -/

/-- The variables of `walk`. -/
structure WalkState where
  ancestors : List CausalAncestor
  visited : Finset String
  frontier : List String
  depth : ℕ

section

variable (graph : DiGraph) (limit : ℕ)

/-- The best identifiers of the next level, as many as are still wanted. -/
def nextLevel (s : WalkState) : List String :=
  let remaining := limit - s.ancestors.length
  s.frontier.foldl (fun next current =>
    (graph.successors current).foldl (fun next successor =>
      if successor ∈ s.visited then next
      else insertBounded compareUlidPayloadOrLexical remaining next successor) next) []

/-- A round of the loop of `walk`. -/
def walkStep (s : WalkState) : WalkState ⊕ List CausalAncestor :=
  if s.ancestors.length < limit ∧ s.frontier ≠ [] then
    let next := nextLevel graph limit s
    .inl {
      ancestors := s.ancestors ++ next.map fun id => ⟨id, s.depth + 1⟩
      visited := s.visited ∪ next.toFinset
      frontier := next
      depth := s.depth + 1 }
  else .inr s.ancestors

/-- The loop of `walk`: every round but the last adds an ancestor. -/
def walkLoop : Loop WalkState (List CausalAncestor) where
  step := walkStep graph limit
  Inv _ := True
  measure s := (limit - s.ancestors.length) + (if s.frontier = [] then 0 else 1)
  inv_step _ _ _ _ := trivial
  measure_step := by
    intro s s' _ hstep
    unfold walkStep at hstep
    split at hstep
    · rename_i hgoes
      cases hstep
      dsimp only
      rw [if_neg hgoes.2, List.length_append, List.length_map]
      split
      · omega
      · rename_i hnext
        have hpos := List.length_pos_iff.mpr hnext
        omega
    · cases hstep

/-- `nearest_ancestors`. -/
def nearestAncestors (source : String) : List CausalAncestor :=
  if limit = 0 ∨ source ∉ graph.nodes then []
  else (walkLoop graph limit).run ⟨[], {source}, [source], 0⟩ trivial

end

/-! ## The complete ancestry -/

section

variable (graph : DiGraph)

/-- The variables of `shortest_path_lengths`: the lengths and the queue. -/
abbrev LengthState := ExtTreeMap String ℕ strCmp × List String

/-- The body of the loop over the successors. -/
def addLength (nextLength : ℕ) (s : LengthState) (successor : String) : LengthState :=
  if s.1[successor]?.isSome then s
  else (s.1.insert successor nextLength, s.2 ++ [successor])

/-- A round of the loop of `shortest_path_lengths`; a node in the queue has a length. -/
def lengthStep : LengthState → LengthState ⊕ ExtTreeMap String ℕ strCmp
  | (lengths, []) => .inr lengths
  | (lengths, current :: queue) =>
    .inl ((sortByUlidPayloadOrLexical id (graph.successors current)).foldl
      (addLength (lengths[current]?.getD 0 + 1)) (lengths, queue))

variable {graph}

theorem mem_sortedSuccessors {c s : String} :
    s ∈ sortByUlidPayloadOrLexical id (graph.successors c) ↔ s ∈ graph.successors c := by
  rw [sortByUlidPayloadOrLexical_eq, sortBy, List.mem_insertionSort]

variable (graph)

/-- The nodes without a length, and those in the queue. -/
def lengthMeasure (s : LengthState) : ℕ :=
  (graph.nodes.toFinset.filter fun v => s.1[v]? = none).card + s.2.length

theorem lengthMeasure_addLength {nl : ℕ} {s : LengthState} {su : String} (hn : su ∈ graph.nodes) :
    lengthMeasure graph (addLength nl s su) = lengthMeasure graph s := by
  unfold addLength
  split
  · rfl
  · rename_i hf
    rw [Bool.not_eq_true, Option.isSome_eq_false_iff, Option.isNone_iff_eq_none] at hf
    unfold lengthMeasure
    have hs : (graph.nodes.toFinset.filter fun v => (s.1.insert su nl)[v]? = none)
        = (graph.nodes.toFinset.filter fun v => s.1[v]? = none).erase su := by
      ext v
      rw [Finset.mem_erase, Finset.mem_filter, Finset.mem_filter, ExtTreeMap.getElem?_insert_ite]
      by_cases hv : su = v
      · simp [hv]
      · simp [hv, Ne.symm hv]
    have hm : su ∈ graph.nodes.toFinset.filter fun v => s.1[v]? = none := by
      exact Finset.mem_filter.mpr ⟨List.mem_toFinset.mpr hn, hf⟩
    have hp := Finset.card_pos.mpr ⟨su, hm⟩
    rw [hs, Finset.card_erase_of_mem hm, List.length_append, List.length_singleton]
    omega

theorem lengthMeasure_foldl {nl : ℕ} {ss : List String} (hn : ∀ su ∈ ss, su ∈ graph.nodes) :
    ∀ s : LengthState, lengthMeasure graph (ss.foldl (addLength nl) s) = lengthMeasure graph s := by
  induction ss with
  | nil => exact fun _ => rfl
  | cons su ss ih =>
    intro s
    rw [List.forall_mem_cons] at hn
    rw [List.foldl_cons, ih hn.2, lengthMeasure_addLength graph hn.1]

/-- The loop of `shortest_path_lengths`. -/
def lengthLoop : Loop LengthState (ExtTreeMap String ℕ strCmp) where
  step := lengthStep graph
  Inv _ := True
  measure := lengthMeasure graph
  inv_step _ _ _ _ := trivial
  measure_step := by
    rintro ⟨lengths, queue⟩ s' _ hstep
    cases queue with
    | nil => cases hstep
    | cons current queue =>
      cases hstep
      rw [lengthMeasure_foldl]
      · unfold lengthMeasure
        dsimp only
        rw [List.length_cons]
        omega
      · intro successor hsuccessor
        exact graph.mem_of_successor (mem_sortedSuccessors.mp hsuccessor)

/-- `shortest_path_lengths`. -/
def shortestPathLengths (source : String) : ExtTreeMap String ℕ strCmp :=
  (lengthLoop graph).run ((∅ : ExtTreeMap String ℕ strCmp).insert source 0, [source]) trivial

/-- The ancestors of `compute_causal_ancestry_unbudgeted`. -/
def causalAncestry (failureId : String) : List CausalAncestor :=
  if failureId ∉ graph.nodes then []
  else
    let ancestors := ((shortestPathLengths graph failureId).toList.filter
      fun entry => entry.1 ≠ failureId).map fun entry => ⟨entry.1, entry.2⟩
    sortBy (fun a b => compare a.pathLength b.pathLength)
      (sortByUlidPayloadOrLexical CausalAncestor.memoryId ancestors)

end

/-! ## Distances -/

section Distances

variable {graph : DiGraph} {source : String}

/-- A way of so many hops. -/
inductive ReachIn (graph : DiGraph) (source : String) : ℕ → String → Prop
  | zero : ReachIn graph source 0 source
  | succ {n : ℕ} {u v : String} (h : ReachIn graph source n u) (hv : v ∈ graph.successors u) :
    ReachIn graph source (n + 1) v

/-- The least number of hops. -/
def Distance (graph : DiGraph) (source : String) (n : ℕ) (v : String) : Prop :=
  ReachIn graph source n v ∧ ∀ m < n, ¬ ReachIn graph source m v

/-- A node has one distance. -/
theorem Distance.unique {n m : ℕ} {v : String} (hn : Distance graph source n v)
    (hm : Distance graph source m v) : n = m := by
  rcases lt_trichotomy n m with h | h | h
  · exact absurd hn.1 (hm.2 n h)
  · exact h
  · exact absurd hm.1 (hn.2 m h)

theorem exists_distance {n : ℕ} {v : String} (h : ReachIn graph source n v) :
    ∃ m ≤ n, Distance graph source m v := by
  classical
  have hex : ∃ m, ReachIn graph source m v := ⟨n, h⟩
  exact ⟨Nat.find hex, Nat.find_le h, Nat.find_spec hex, fun m hm => Nat.find_min hex hm⟩

theorem distance_zero_iff {v : String} : Distance graph source 0 v ↔ v = source := by
  constructor
  · rintro ⟨h, -⟩
    cases h
    rfl
  · rintro rfl
    exact ⟨.zero, fun m hm => absurd hm (Nat.not_lt_zero m)⟩

theorem Distance.eq_zero_iff {n : ℕ} {v : String} (h : Distance graph source n v) :
    n = 0 ↔ v = source := by
  constructor
  · rintro rfl
    exact distance_zero_iff.mp h
  · intro hv
    exact h.unique (distance_zero_iff.mpr hv)

/-- A node of the next level is a successor of one of this level, and of no level before. -/
theorem distance_succ_iff {n : ℕ} {v : String} : Distance graph source (n + 1) v ↔
      (∃ u, Distance graph source n u ∧ v ∈ graph.successors u) ∧
        ∀ m ≤ n, ¬ Distance graph source m v := by
  constructor
  · intro h
    refine ⟨?_, fun m hm hd => ?_⟩
    · obtain ⟨hr, hl⟩ := h
      cases hr with
      | @succ _ u _ hu hv =>
        refine ⟨u, ⟨hu, fun m hm hr => ?_⟩, hv⟩
        exact hl (m + 1) (Nat.succ_lt_succ hm) (hr.succ hv)
    · exact absurd (h.unique hd) (by omega)
  · rintro ⟨⟨u, hu, hv⟩, hb⟩
    refine ⟨hu.1.succ hv, fun m hm hr => ?_⟩
    obtain ⟨k, hk, hd⟩ := exists_distance hr
    exact hb k (by omega) hd

/-- Without nodes at a distance there are none further away. -/
theorem not_distance_of_le {n : ℕ} (hn : ∀ v, ¬ Distance graph source n v) {m : ℕ}
    (hm : n ≤ m) : ∀ v, ¬ Distance graph source m v := by
  induction m, hm using Nat.le_induction with
  | base => exact hn
  | succ m _ ih =>
    intro v hv
    obtain ⟨⟨u, hu, -⟩, -⟩ := distance_succ_iff.mp hv
    exact ih u hu

/-! ## The breadth-first search -/

/-- The lengths while the nodes of `pending` wait for a look at their successors: lengths are
distances, a node that does not wait has all its successors measured, and the lengths of the
waiting nodes go up by one at most. -/
structure Measured (graph : DiGraph) (source : String) (lengths : ExtTreeMap String ℕ strCmp)
    (pending : List String) : Prop where
  start : lengths[source]? = some 0
  sound : ∀ v n, lengths[v]? = some n → Distance graph source n v
  closed : ∀ v n, lengths[v]? = some n → v ∉ pending →
    ∀ w ∈ graph.successors v, ∃ m, lengths[w]? = some m
  queued : ∀ v ∈ pending, ∃ n, lengths[v]? = some n
  ordered : pending.Pairwise fun u v => ∀ m n, lengths[u]? = some m → lengths[v]? = some n →
    m ≤ n ∧ n ≤ m + 1

/-- What is not further than the waiting nodes is measured. -/
theorem Measured.complete {ls : ExtTreeMap String ℕ strCmp} {pending : List String}
    (h : Measured graph source ls pending) {n : ℕ}
    (hp : ∀ v ∈ pending, ∀ k, ls[v]? = some k → n ≤ k) {m : ℕ} {v : String}
    (hm : m ≤ n) (hr : ReachIn graph source m v) : ∃ k, ls[v]? = some k := by
  induction hr with
  | zero => exact ⟨0, h.start⟩
  | @succ m u v hu hv ih =>
    obtain ⟨k, hk⟩ := ih (by omega)
    refine h.closed u k hk (fun hme => ?_) v hv
    -- a node that waits is too far away
    obtain ⟨j, hj, hd⟩ := exists_distance hu
    have hle := hp u hme k hk
    have heq := (h.sound u k hk).unique hd
    omega

/-- A new successor is one hop further. -/
theorem Measured.insert {ls : ExtTreeMap String ℕ strCmp} {c s : String}
    {qu : List String} {n : ℕ} (h : Measured graph source ls (c :: qu))
    (hc : ls[c]? = some n) (hsu : s ∈ graph.successors c)
    (hf : ls[s]? = none) :
    Measured graph source (ls.insert s (n + 1)) (c :: (qu ++ [s])) := by
  have hre := List.pairwise_cons.mp h.ordered
  have hn : ∀ v ∈ c :: qu, ∀ k, ls[v]? = some k → n ≤ k ∧ k ≤ n + 1 := by
    intro v hv k hk
    rcases List.mem_cons.mp hv with heq | hv
    · rw [heq, hc] at hk
      cases hk
      exact ⟨le_rfl, Nat.le_succ _⟩
    · exact hre.1 v hv n k hc hk
  have hne : ∀ {v : String} {k : ℕ}, ls[v]? = some k → s ≠ v := by
    rintro v k hk rfl
    rw [hf] at hk
    cases hk
  have hke : ∀ {v : String} {k : ℕ}, ls[v]? = some k → (ls.insert s (n + 1))[v]? = some k := by
    intro v k hk
    rw [ExtTreeMap.getElem?_insert_ite, if_neg (hne hk), hk]
  have hs : (ls.insert s (n + 1))[s]? = some (n + 1) := by
    rw [ExtTreeMap.getElem?_insert_ite, if_pos rfl]
  have hb : ∀ {v : String} {k : ℕ}, v ≠ s → (ls.insert s (n + 1))[v]? = some k →
      ls[v]? = some k := by
    intro v k hv hk
    rwa [ExtTreeMap.getElem?_insert_ite, if_neg (Ne.symm hv)] at hk
  have hd : Distance graph source (n + 1) s := by
    refine ⟨(h.sound c n hc).1.succ hsu, fun m hm hr => ?_⟩
    obtain ⟨k, hk⟩ := h.complete (fun v hv k hk => (hn v hv k hk).1) (Nat.lt_succ_iff.mp hm) hr
    exact hne hk rfl
  have ho : ∀ v ∈ c :: qu, v ≠ s := by
    intro v hv heq
    obtain ⟨k, hk⟩ := h.queued v hv
    exact hne hk heq.symm
  constructor
  · exact hke h.start
  · intro v k hk
    by_cases hv : v = s
    · rw [hv, hs] at hk
      cases hk
      rw [hv]
      exact hd
    · exact h.sound v k (hb hv hk)
  · intro v k hk hp w hw
    have hv : v ≠ s := by
      rintro rfl
      exact hp (by simp)
    obtain ⟨m, hm⟩ := h.closed v k (hb hv hk) (fun hme => hp (by
      rcases List.mem_cons.mp hme with rfl | hme
      · exact List.mem_cons_self
      · exact List.mem_cons_of_mem _ (List.mem_append_left _ hme))) w hw
    exact ⟨m, hke hm⟩
  · intro v hv
    by_cases heq : v = s
    · exact ⟨n + 1, by rw [heq, hs]⟩
    · obtain ⟨k, hk⟩ := h.queued v (by simpa [heq] using hv)
      exact ⟨k, hke hk⟩
  · rw [← List.cons_append]
    refine List.pairwise_append.mpr ⟨?_, List.pairwise_singleton _ _, ?_⟩
    · refine h.ordered.imp_of_mem ?_
      intro u v hu hv huv m k hm hk
      exact huv m k (hb (ho u hu) hm) (hb (ho v hv) hk)
    · intro u hu v hv m k hm hk
      rw [List.mem_singleton.mp hv, hs] at hk
      cases hk
      have hle := hn u hu m (hb (ho u hu) hm)
      omega

/-- A node whose successors are measured is done. -/
theorem Measured.finish {ls : ExtTreeMap String ℕ strCmp} {c : String}
    {qu : List String} (h : Measured graph source ls (c :: qu))
    (ha : ∀ w ∈ graph.successors c, ∃ m, ls[w]? = some m) :
    Measured graph source ls qu where
  start := h.start
  sound := h.sound
  closed := by
    intro v n hn hq w hw
    by_cases hv : v = c
    · exact ha w (hv ▸ hw)
    · exact h.closed v n hn (fun hm => (List.mem_cons.mp hm).elim hv hq) w hw
  queued v hv := h.queued v (List.mem_cons_of_mem _ hv)
  ordered := (List.pairwise_cons.mp h.ordered).2

/-- The loop over the successors measures each of them. -/
theorem foldl_addLength_spec {c : String} {n : ℕ} {ss : List String} :
    ∀ {ls : ExtTreeMap String ℕ strCmp} {qu : List String},
      Measured graph source ls (c :: qu) → ls[c]? = some n →
      (∀ w ∈ ss, w ∈ graph.successors c) →
      ∃ ls' q', ss.foldl (addLength (n + 1)) (ls, qu) = (ls', q') ∧
        Measured graph source ls' (c :: q') ∧
        (∀ (v : String) (k : ℕ), ls[v]? = some k → ls'[v]? = some k) ∧
        ∀ w ∈ ss, ∃ m, ls'[w]? = some m := by
  induction ss with
  | nil =>
    intro ls qu h _ _
    exact ⟨ls, qu, rfl, h, fun _ _ hk => hk, List.forall_mem_nil _⟩
  | cons s ss ih =>
    intro ls qu h hc hs
    rw [List.forall_mem_cons] at hs
    rw [List.foldl_cons]
    unfold addLength
    split
    · rename_i hme
      obtain ⟨m, hm⟩ := Option.isSome_iff_exists.mp hme
      obtain ⟨ls', q', hfo, hn, hke, ha⟩ := ih h hc hs.2
      exact ⟨ls', q', hfo, hn, hke, List.forall_mem_cons.mpr ⟨⟨m, hke _ _ hm⟩, ha⟩⟩
    · rename_i hf
      rw [Bool.not_eq_true, Option.isSome_eq_false_iff, Option.isNone_iff_eq_none] at hf
      have ho : ∀ (v : String) (k : ℕ), ls[v]? = some k → (ls.insert s (n + 1))[v]? = some k := by
        intro v k hk
        rw [ExtTreeMap.getElem?_insert_ite, if_neg, hk]
        rintro rfl
        dsimp only at hf
        rw [hf] at hk
        cases hk
      obtain ⟨ls', q', hfo, hn, hke, ha⟩ := ih (h.insert hc hs.1 hf) (ho _ _ hc) hs.2
      refine ⟨ls', q', hfo, hn, fun v k hk => hke v k (ho v k hk),
        List.forall_mem_cons.mpr ⟨⟨n + 1, hke _ _ ?_⟩, ha⟩⟩
      rw [ExtTreeMap.getElem?_insert_ite, if_pos rfl]

theorem measured_start :
    Measured graph source ((∅ : ExtTreeMap String ℕ strCmp).insert source 0) [source] := by
  have hg : ∀ v : String, ((∅ : ExtTreeMap String ℕ strCmp).insert source 0)[v]?
      = if source = v then some 0 else none := by
    intro v
    rw [ExtTreeMap.getElem?_insert_ite, ExtTreeMap.getElem?_empty]
  have ho : ∀ {v : String} {n : ℕ},
      ((∅ : ExtTreeMap String ℕ strCmp).insert source 0)[v]? = some n →
      v = source ∧ n = 0 := by
    intro v n hn
    rw [hg] at hn
    split at hn
    · rename_i heq
      cases hn
      exact ⟨heq.symm, rfl⟩
    · cases hn
  constructor
  · rw [hg, if_pos rfl]
  · intro v n hn
    obtain ⟨rfl, rfl⟩ := ho hn
    exact distance_zero_iff.mpr rfl
  · intro v n hn hp
    exact absurd (List.mem_singleton.mpr (ho hn).1) hp
  · intro v hv
    exact ⟨0, by rw [hg, if_pos (List.mem_singleton.mp hv).symm]⟩
  · exact List.pairwise_singleton _ _

/-- **The lengths are the distances.** -/
theorem shortestPathLengths_eq_some_iff {v : String} {n : ℕ} :
    (shortestPathLengths graph source)[v]? = some n ↔ Distance graph source n v := by
  have he : Measured graph source (shortestPathLengths graph source) [] := by
    refine Loop.run_induction (lengthLoop graph) (P := fun s => Measured graph source s.1 s.2)
      (Q := fun ls => Measured graph source ls []) ?_ ?_ _ trivial measured_start
    · rintro ⟨ls, qu⟩ s' _ hm hs
      cases qu with
      | nil => cases hs
      | cons c qu =>
        cases hs
        obtain ⟨n, hn⟩ := hm.queued c List.mem_cons_self
        rw [hn, Option.getD_some]
        obtain ⟨ls', q', hf, hne, -, ha⟩ := foldl_addLength_spec hm hn
          (fun w hw => mem_sortedSuccessors.mp hw)
        rw [hf]
        exact hne.finish fun w hw => ha w (mem_sortedSuccessors.mpr hw)
    · rintro ⟨ls, qu⟩ r _ hm hs
      cases qu with
      | nil =>
        cases hs
        exact hm
      | cons c qu => cases hs
  constructor
  · exact he.sound v n
  · intro hd
    obtain ⟨k, hk⟩ := he.complete (n := n) (List.forall_mem_nil _) le_rfl hd.1
    rw [hk, (he.sound v k hk).unique hd]

/-! ## The order of ancestors -/

/-- By hops, and then by identifier. -/
def ancestorCmp (a b : CausalAncestor) : Ordering :=
  (compare a.pathLength b.pathLength).then (compareUlidPayloadOrLexical a.memoryId b.memoryId)

instance : Std.TransCmp ancestorCmp := by
  have hminor : Std.TransCmp fun a b : CausalAncestor =>
      compareUlidPayloadOrLexical a.memoryId b.memoryId :=
    ComparisonSort.transCmp_on CausalAncestor.memoryId
  exact inferInstanceAs (Std.TransCmp (compareLex (compareOn CausalAncestor.pathLength)
    fun a b : CausalAncestor => compareUlidPayloadOrLexical a.memoryId b.memoryId))

instance : Std.LawfulEqCmp ancestorCmp where
  compare_self := Std.ReflCmp.compare_self
  eq_of_compare := by
    rintro ⟨id, n⟩ ⟨id', n'⟩ h
    obtain ⟨hlength, hid⟩ := Ordering.then_eq_eq.mp h
    have hn : n = n' := Std.LawfulEqCmp.eq_of_compare hlength
    have htext : id = id' := Std.LawfulEqCmp.eq_of_compare hid
    rw [hn, htext]

/-- An ancestor is another node, with its distance. -/
def IsAncestor (graph : DiGraph) (source : String) (a : CausalAncestor) : Prop :=
  Distance graph source a.pathLength a.memoryId ∧ a.memoryId ≠ source

/-- The entries of the map in the order of their keys, without the failure. -/
def unsortedAncestry (graph : DiGraph) (source : String) : List CausalAncestor :=
  ((shortestPathLengths graph source).toList.filter
    fun entry => entry.1 ≠ source).map fun entry => ⟨entry.1, entry.2⟩

theorem mem_unsortedAncestry {a : CausalAncestor} :
    a ∈ unsortedAncestry graph source ↔ IsAncestor graph source a := by
  unfold unsortedAncestry IsAncestor
  rw [← shortestPathLengths_eq_some_iff, ← ExtTreeMap.mem_toList_iff_getElem?_eq_some, List.mem_map]
  constructor
  · rintro ⟨en, he, rfl⟩
    rw [List.mem_filter, decide_eq_true_eq] at he
    exact he
  · rintro ⟨hm, hne⟩
    exact ⟨(a.memoryId, a.pathLength), List.mem_filter.mpr ⟨hm, by simpa using hne⟩, rfl⟩

theorem nodup_unsortedAncestry : (unsortedAncestry graph source).Nodup := by
  refine List.Pairwise.map (R := fun a b : String × ℕ => a.1 ≠ b.1) _ ?_ ?_
  · intro a b hab heq
    exact hab (CausalAncestor.mk.inj heq).1
  · refine List.Pairwise.filter _ (List.Pairwise.imp ?_ ExtTreeMap.distinct_keys_toList)
    intro a b hab heq
    exact hab (heq ▸ Std.ReflCmp.compare_self)

theorem causalAncestry_spec (hs : source ∈ graph.nodes) :
    StrictlySorted ancestorCmp (causalAncestry graph source) ∧
      ∀ a, a ∈ causalAncestry graph source ↔ IsAncestor graph source a := by
  have hmin : Std.TransCmp fun a b : CausalAncestor =>
      compareUlidPayloadOrLexical a.memoryId b.memoryId :=
    ComparisonSort.transCmp_on CausalAncestor.memoryId
  have hma : Std.TransCmp fun a b : CausalAncestor => compare a.pathLength b.pathLength :=
    ComparisonSort.transCmp_on CausalAncestor.pathLength
  have hl : causalAncestry graph source = sortBy (fun a b => compare a.pathLength b.pathLength)
        (sortBy (fun a b => compareUlidPayloadOrLexical a.memoryId b.memoryId)
          (unsortedAncestry graph source)) := by
    unfold causalAncestry
    rw [if_neg (not_not.mpr hs)]
    dsimp only
    rw [sortByUlidPayloadOrLexical_eq]
    rfl
  have hmi : IsStableSort (fun a b => compareUlidPayloadOrLexical a.memoryId b.memoryId)
      (unsortedAncestry graph source) _ := isStableSort_sortBy _
  have hm : IsStableSort (fun a b : CausalAncestor => compare a.pathLength b.pathLength)
      (sortBy (fun a b => compareUlidPayloadOrLexical a.memoryId b.memoryId)
        (unsortedAncestry graph source)) (causalAncestry graph source) := by
    rw [hl]
    exact isStableSort_sortBy _
  have hso := hmi.then hm
  have hp : (causalAncestry graph source).Perm (unsortedAncestry graph source) := by
    rw [hl]
    exact (List.perm_insertionSort _ _).trans (List.perm_insertionSort _ _)
  refine ⟨?_, fun a => by rw [hp.mem_iff, mem_unsortedAncestry]⟩
  have hn := hp.nodup_iff.mpr nodup_unsortedAncestry
  refine List.Pairwise.imp₂ ?_ hso.sorted hn
  intro a b hab hne
  cases hc : ancestorCmp a b with
  | lt => rfl
  | eq => exact absurd (Std.LawfulEqCmp.eq_of_compare hc) hne
  | gt => exact absurd hc hab

/-! ## The levels of the bounded walk -/

variable {limit : ℕ}

/-- The state after whole levels up to a depth. -/
structure Walked (graph : DiGraph) (source : String) (limit : ℕ) (s : WalkState) : Prop where
  sorted : StrictlySorted ancestorCmp s.ancestors
  mem : ∀ a, a ∈ s.ancestors ↔ IsAncestor graph source a ∧ a.pathLength ≤ s.depth
  visited : ∀ v, v ∈ s.visited ↔ ∃ m ≤ s.depth, Distance graph source m v
  frontier : ∀ v, v ∈ s.frontier ↔ Distance graph source s.depth v
  bounded : s.ancestors.length ≤ limit

/-- A beginning of the list of all ancestors, as long as is wanted. -/
structure Filled (graph : DiGraph) (source : String) (limit : ℕ)
    (ancestors : List CausalAncestor) : Prop where
  sorted : StrictlySorted ancestorCmp ancestors
  sound : ∀ a ∈ ancestors, IsAncestor graph source a
  initial : ∀ a ∈ ancestors, ∀ b, IsAncestor graph source b → b ∉ ancestors →
    ancestorCmp a b = .lt
  full : ancestors.length = limit

/-- The successors that were not visited are the nodes of the next level. -/
theorem mem_candidates {s : WalkState} (h : Walked graph source limit s) {v : String} :
    v ∈ (s.frontier.flatMap graph.successors).filter (fun v => v ∉ s.visited) ↔
      Distance graph source (s.depth + 1) v := by
  rw [List.mem_filter, List.mem_flatMap, decide_eq_true_eq, h.visited, distance_succ_iff]
  constructor
  · rintro ⟨⟨u, hu, hv⟩, hn⟩
    exact ⟨⟨u, (h.frontier u).mp hu, hv⟩, fun m hm hd => hn ⟨m, hm, hd⟩⟩
  · rintro ⟨⟨u, hu, hv⟩, hb⟩
    refine ⟨⟨u, (h.frontier u).mpr hu, hv⟩, ?_⟩
    rintro ⟨m, hm, hd⟩
    exact hb m hm hd

/-- The next level, sorted. -/
def level (graph : DiGraph) (s : WalkState) : List String :=
  sortDedup compareUlidPayloadOrLexical
    ((s.frontier.flatMap graph.successors).filter fun v => v ∉ s.visited)

theorem nextLevel_eq (s : WalkState) :
    nextLevel graph limit s = (level graph s).take (limit - s.ancestors.length) := by
  unfold nextLevel level
  dsimp only
  rw [← foldl_insertBounded, List.foldl_filter, List.foldl_flatMap]
  simp only [decide_not, Bool.not_eq_true', decide_eq_false_iff_not, ite_not]

/-- The next level is what lies one hop further. -/
theorem mem_level {s : WalkState} (h : Walked graph source limit s) {v : String} :
    v ∈ level graph s ↔ Distance graph source (s.depth + 1) v := by
  rw [level, (sortDedup_spec _).2, mem_candidates h]

/-- A level put behind the levels before it. -/
theorem strictlySorted_append_level {as : List CausalAncestor} {ids : List String}
    {d : ℕ} (hs : StrictlySorted ancestorCmp as)
    (hd : ∀ a ∈ as, a.pathLength ≤ d)
    (hi : StrictlySorted compareUlidPayloadOrLexical ids) :
    StrictlySorted ancestorCmp (as ++ ids.map fun id => ⟨id, d + 1⟩) := by
  refine List.pairwise_append.mpr ⟨hs, ?_, ?_⟩
  · rw [List.pairwise_map]
    refine hi.imp ?_
    intro a b hab
    show (compare (d + 1) (d + 1)).then (compareUlidPayloadOrLexical a b) = .lt
    rw [Nat.compare_eq_eq.mpr rfl, hab]
    rfl
  · intro a ha b hb
    obtain ⟨id, -, rfl⟩ := List.mem_map.mp hb
    have hlt : compare a.pathLength (d + 1) = .lt :=
      Nat.compare_eq_lt.mpr (Nat.lt_succ_iff.mpr (hd a ha))
    show (compare a.pathLength (d + 1)).then _ = .lt
    rw [hlt]
    rfl

theorem ancestorCmp_of_length_lt {a b : CausalAncestor} (h : a.pathLength < b.pathLength) :
    ancestorCmp a b = .lt := by
  have hlt : compare a.pathLength b.pathLength = .lt := Nat.compare_eq_lt.mpr h
  unfold ancestorCmp
  rw [hlt]
  rfl

theorem walked_start : Walked graph source limit ⟨[], {source}, [source], 0⟩ where
  sorted := List.Pairwise.nil
  mem := by
    intro a
    refine ⟨fun h => absurd h List.not_mem_nil, ?_⟩
    rintro ⟨⟨hd, hne⟩, hz⟩
    exact absurd (hd.eq_zero_iff.mp (Nat.le_zero.mp hz)) hne
  visited := by
    intro v
    rw [Finset.mem_singleton]
    constructor
    · intro hv
      exact ⟨0, le_rfl, distance_zero_iff.mpr hv⟩
    · rintro ⟨m, hm, hd⟩
      exact hd.eq_zero_iff.mp (Nat.le_zero.mp hm)
  frontier := by
    intro v
    rw [List.mem_singleton, distance_zero_iff]
  bounded := Nat.zero_le _

/-- A level that fits is added whole. -/
theorem Walked.next {s : WalkState} (h : Walked graph source limit s)
    (hf : (level graph s).length ≤ limit - s.ancestors.length)
    (hl : s.ancestors.length < limit) :
    Walked graph source limit {
      ancestors := s.ancestors ++ (level graph s).map fun id => ⟨id, s.depth + 1⟩
      visited := s.visited ∪ (level graph s).toFinset
      frontier := level graph s
      depth := s.depth + 1 } where
  sorted := strictlySorted_append_level h.sorted (fun a ha => ((h.mem a).mp ha).2)
    (sortDedup_spec _).1
  mem := by
    intro a
    rw [List.mem_append, h.mem, List.mem_map]
    constructor
    · rintro (⟨han, hle⟩ | ⟨id, hid, rfl⟩)
      · exact ⟨han, hle.trans (Nat.le_succ _)⟩
      · have hd := (mem_level h).mp hid
        exact ⟨⟨hd, fun heq => absurd (hd.eq_zero_iff.mpr heq) (Nat.succ_ne_zero _)⟩, le_rfl⟩
    · rintro ⟨han, hle⟩
      rcases Nat.le_or_eq_of_le_succ hle with hle | heq
      · exact Or.inl ⟨han, hle⟩
      · obtain ⟨id, n⟩ := a
        change n = s.depth + 1 at heq
        subst heq
        exact Or.inr ⟨id, (mem_level h).mpr han.1, rfl⟩
  visited := by
    intro v
    rw [Finset.mem_union, h.visited, List.mem_toFinset, mem_level h]
    constructor
    · rintro (⟨m, hm, hd⟩ | hd)
      · exact ⟨m, hm.trans (Nat.le_succ _), hd⟩
      · exact ⟨_, le_rfl, hd⟩
    · rintro ⟨m, hm, hd⟩
      rcases Nat.le_or_eq_of_le_succ hm with hm | rfl
      · exact Or.inl ⟨m, hm, hd⟩
      · exact Or.inr hd
  frontier := fun v => mem_level h
  bounded := by
    dsimp only
    rw [List.length_append, List.length_map]
    omega

/-- Of a level that does not fit the first identifiers fill the list. -/
theorem Walked.fill {s : WalkState} (h : Walked graph source limit s)
    (hl : limit - s.ancestors.length < (level graph s).length)
    (hli : s.ancestors.length < limit) :
    Filled graph source limit (s.ancestors
      ++ ((level graph s).take (limit - s.ancestors.length)).map fun id => ⟨id, s.depth + 1⟩) := by
  have hs : StrictlySorted compareUlidPayloadOrLexical (level graph s) := (sortDedup_spec _).1
  constructor
  · exact strictlySorted_append_level h.sorted (fun a ha => ((h.mem a).mp ha).2)
      (hs.sublist (List.take_sublist _ _))
  · intro a ha
    rcases List.mem_append.mp ha with ha | ha
    · exact ((h.mem a).mp ha).1
    · obtain ⟨id, hid, rfl⟩ := List.mem_map.mp ha
      have hd := (mem_level h).mp (List.mem_of_mem_take hid)
      exact ⟨hd, fun heq => absurd (hd.eq_zero_iff.mpr heq) (Nat.succ_ne_zero _)⟩
  · intro a ha b hb hn
    rw [List.mem_append, not_or, h.mem] at hn
    have hde : s.depth + 1 ≤ b.pathLength := by
      by_contra hle
      exact hn.1 ⟨hb, by omega⟩
    rcases List.mem_append.mp ha with ha | ha
    · exact ancestorCmp_of_length_lt (Nat.lt_of_le_of_lt ((h.mem a).mp ha).2 hde)
    · obtain ⟨id, hid, rfl⟩ := List.mem_map.mp ha
      rcases Nat.lt_or_eq_of_le hde with hdee | heq
      · exact ancestorCmp_of_length_lt hdee
      · -- of two nodes of the level the one that was kept comes first
        have hm : b.memoryId ∈ level graph s := (mem_level h).mpr (heq ▸ hb.1)
        rw [← List.take_append_drop (limit - s.ancestors.length) (level graph s)] at hm hs
        have hdr := (List.mem_append.mp hm).resolve_left fun hk => hn.2
          (List.mem_map.mpr ⟨b.memoryId, hk, by rw [heq]⟩)
        have hc := (List.pairwise_append.mp hs).2.2 id hid b.memoryId hdr
        unfold ancestorCmp
        rw [heq, Nat.compare_eq_eq.mpr rfl, hc]
        rfl
  · rw [List.length_append, List.length_map, List.length_take, Nat.min_eq_left hl.le]
    omega

/-- The list that the walk returns: as long as is wanted, or complete. -/
def Returned (graph : DiGraph) (source : String) (limit : ℕ)
    (ancestors : List CausalAncestor) : Prop :=
  Filled graph source limit ancestors ∨
    StrictlySorted ancestorCmp ancestors ∧
      (∀ a, a ∈ ancestors ↔ IsAncestor graph source a) ∧ ancestors.length ≤ limit

theorem Walked.returned {s : WalkState} (h : Walked graph source limit s)
    (hex : ¬ (s.ancestors.length < limit ∧ s.frontier ≠ [])) :
    Returned graph source limit s.ancestors := by
  by_cases hf : s.ancestors.length < limit
  · have he : s.frontier = [] := by
      by_contra hne
      exact hex ⟨hf, hne⟩
    have hno : ∀ v, ¬ Distance graph source s.depth v := by
      intro v hv
      have hm := (h.frontier v).mpr hv
      rw [he] at hm
      cases hm
    refine Or.inr ⟨h.sorted, fun a => ?_, h.bounded⟩
    rw [h.mem]
    refine ⟨And.left, fun ha => ⟨ha, ?_⟩⟩
    by_contra hdeep
    exact not_distance_of_le hno (not_le.mp hdeep).le _ ha.1
  · refine Or.inl ⟨h.sorted, fun a ha => ((h.mem a).mp ha).1, ?_, ?_⟩
    · intro a ha b hb hn
      rw [h.mem, not_and, not_le] at hn
      exact ancestorCmp_of_length_lt (((h.mem a).mp ha).2.trans_lt (hn hb))
    · exact le_antisymm h.bounded (not_lt.mp hf)

theorem walkLoop_run_returned : Returned graph source limit
      ((walkLoop graph limit).run ⟨[], {source}, [source], 0⟩ trivial) := by
  refine Loop.run_induction (walkLoop graph limit)
    (P := fun s => Walked graph source limit s ∨ Filled graph source limit s.ancestors)
    (Q := Returned graph source limit) ?_ ?_ _ trivial (Or.inl walked_start)
  · intro s s' _ hP hs
    change walkStep graph limit s = .inl s' at hs
    unfold walkStep at hs
    split at hs
    · rename_i hg
      cases hs
      rcases hP with hw | hfi
      · rw [nextLevel_eq]
        rcases Nat.lt_or_ge (limit - s.ancestors.length) (level graph s).length with hl | hf
        · exact Or.inr (hw.fill hl hg.1)
        · rw [List.take_of_length_le hf]
          exact Or.inl (hw.next hf hg.1)
      · exact absurd hfi.full hg.1.ne
    · cases hs
  · intro s r _ hP hs
    change walkStep graph limit s = .inr r at hs
    unfold walkStep at hs
    split at hs
    · cases hs
    · rename_i he
      cases hs
      exact hP.elim (fun hw => hw.returned he) Or.inl

/-- **The bounded walk returns the beginning of the complete ancestry**, for every graph, every
source and every limit. -/
theorem nearestAncestors_eq_take (graph : DiGraph) (source : String) (limit : ℕ) :
    nearestAncestors graph limit source = (causalAncestry graph source).take limit := by
  unfold nearestAncestors
  split
  · rename_i hn
    rcases hn with rfl | hu
    · rw [List.take_zero]
    · rw [causalAncestry, if_pos hu, List.take_nil]
  · rename_i hso
    rw [not_or, not_not] at hso
    obtain ⟨hs, hm⟩ := causalAncestry_spec hso.2
    have hr : Returned graph source limit _ := walkLoop_run_returned
    rcases hr with hf | ⟨hw, hc, hsh⟩
    · have hap := hs.append_of_initial hf.sorted (fun a ha => (hm a).mpr (hf.sound a ha))
        (fun a ha b hb hne => hf.initial a ha b ((hm b).mp hb) hne)
      rw [hap, List.take_left' hf.full]
    · have heq := hw.eq_of_mem_iff hs fun a => (hc a).trans (hm a).symm
      rw [← heq, List.take_of_length_le hsh]

example : nearestAncestors (.ofEdges [("f", "b"), ("f", "a"), ("a", "c")]) 3 "f"
    = [⟨"a", 1⟩, ⟨"b", 1⟩, ⟨"c", 2⟩] := by decide +kernel

end Distances

end CausalWalk
