/-
# Min-cut queries on a Gomory-Hu tree

The index over a Gomory-Hu tree roots every component at its first node, by a breadth-first
sweep that notes component, depth, parent and the weight of the edge to the parent, and then
makes the tables of binary lifting.  A query lifts the deeper node to the depth of the other
one, lifts both to just below where their chains meet, and answers the least weight it saw.
-/
import Mathlib
import EideticEngine.BoundedLoop
import EideticEngine.RootedForest

namespace GomoryHu

open BinaryLifting

variable {ν W : Type*} [DecidableEq ν] [LinearOrder W] [BoundedOrder W] [Zero W]

/-! ## The tree -/

/-- What the index reads of the tree, an undirected `fnx_classes::Graph`.  Weights are `f64`
values, of which a NaN is no weight; the bounds of the order are the infinities. -/
structure Tree (ν W : Type*) where
  nodesOrdered : List ν
  neighbors : ν → List ν
  /-- The attribute `weight` of an edge, read as a float. -/
  weightAttr : ν → ν → Option W
  nodup : nodesOrdered.Nodup
  mem_of_neighbor : ∀ {u v}, v ∈ neighbors u → u ∈ nodesOrdered ∧ v ∈ nodesOrdered
  symm : ∀ {u v}, v ∈ neighbors u → u ∈ neighbors v
  irrefl : ∀ u, u ∉ neighbors u
  weight_symm : ∀ u v, weightAttr u v = weightAttr v u

namespace Tree

variable (tree : Tree ν W)

/-- The graph of the tree. -/
def graph : SimpleGraph ν where
  Adj u v := v ∈ tree.neighbors u
  symm := ⟨fun _ _ h => tree.symm h⟩
  loopless := ⟨fun u h => tree.irrefl u h⟩

/-- `gomory_tree_edge_weight`. -/
def edgeWeight (left right : ν) : W :=
  ((tree.weightAttr left right).filter fun weight => ⊥ < weight ∧ weight < ⊤ ∧ 0 ≤ weight).getD 0

/-- The number of nodes. -/
abbrev nodeCount : ℕ := tree.nodesOrdered.length

/-- The node at an index. -/
abbrev node (i : Fin tree.nodeCount) : ν := tree.nodesOrdered.get i

/-- `node_index.get`. -/
def nodeIndex (node : ν) : Option (Fin tree.nodeCount) :=
  (List.finRange tree.nodeCount).find? fun i => tree.node i = node

end Tree

/-- A tree of which no edges make a cycle, of any number of components. -/
structure Forest (ν W : Type*) extends Tree ν W where
  acyclic : toTree.graph.IsAcyclic

/-! ## The index -/

/-- The tables of the sweep; `usize::MAX` in the components is `none`. -/
structure Build (n : ℕ) (W : Type*) where
  componentByIndex : Fin n → Option ℕ
  depthByIndex : Fin n → ℕ
  ancestor : Fin n → Fin n
  minCut : Fin n → W

/-- The tables before the sweep. -/
def Build.initial (n : ℕ) : Build n W :=
  ⟨fun _ => none, fun _ => 0, fun i => ⟨0, i.pos⟩, fun _ => ⊤⟩

/-- A root of a component. -/
def Build.addRoot {n : ℕ} (build : Build n W) (component : ℕ) (root : Fin n) : Build n W :=
  { build with
    componentByIndex := Function.update build.componentByIndex root (some component)
    ancestor := Function.update build.ancestor root root }

/-- A node that is reached from its parent. -/
def Build.addChild {n : ℕ} (build : Build n W) (component : ℕ) (current child : Fin n)
    (weight : W) : Build n W where
  componentByIndex := Function.update build.componentByIndex child (some component)
  depthByIndex := Function.update build.depthByIndex child (build.depthByIndex current + 1)
  ancestor := Function.update build.ancestor child current
  minCut := Function.update build.minCut child weight

section

variable (tree : Tree ν W)

/-- The body of the loop over the neighbours of `current`. -/
def visitNeighbor (component : ℕ) (current : Fin tree.nodeCount)
    (state : Build tree.nodeCount W × List (Fin tree.nodeCount)) (neighbor : ν) :
    Build tree.nodeCount W × List (Fin tree.nodeCount) :=
  match tree.nodeIndex neighbor with
  | none => state
  | some child =>
    if (state.1.componentByIndex child).isSome then state
    else
      (state.1.addChild component current child (tree.edgeWeight (tree.node current) neighbor),
        state.2 ++ [child])

/-- A round of the loop over the queue. -/
def sweepStep (component : ℕ) :
    Build tree.nodeCount W × List (Fin tree.nodeCount) →
      (Build tree.nodeCount W × List (Fin tree.nodeCount)) ⊕ Build tree.nodeCount W
  | (build, []) => .inr build
  | (build, current :: queue) =>
    .inl ((tree.neighbors (tree.node current)).foldl (visitNeighbor tree component current)
      (build, queue))

/-- The nodes without a component, and those in the queue. -/
def sweepMeasure (state : Build tree.nodeCount W × List (Fin tree.nodeCount)) : ℕ :=
  (Finset.univ.filter fun i => state.1.componentByIndex i = none).card + state.2.length

theorem sweepMeasure_visitNeighbor (co : ℕ) (cu : Fin tree.nodeCount)
    (s : Build tree.nodeCount W × List (Fin tree.nodeCount)) (n : ν) :
    sweepMeasure tree (visitNeighbor tree co cu s n) = sweepMeasure tree s := by
  unfold visitNeighbor
  split
  · rfl
  · rename_i c _
    split
    · rfl
    · rename_i hf
      rw [Bool.not_eq_true, Option.isSome_eq_false_iff, Option.isNone_iff_eq_none] at hf
      unfold sweepMeasure Build.addChild
      have hs : (Finset.univ.filter fun i =>
            Function.update s.1.componentByIndex c (some co) i = none)
          = (Finset.univ.filter fun i => s.1.componentByIndex i = none).erase c := by
        ext i
        by_cases hi : i = c
        · simp [hi]
        · simp [hi]
      have hm : c ∈ Finset.univ.filter fun i => s.1.componentByIndex i = none := by
        simpa using hf
      have hp := Finset.card_pos.mpr ⟨c, hm⟩
      rw [hs, Finset.card_erase_of_mem hm, List.length_append, List.length_singleton]
      omega

theorem sweepMeasure_foldl (c : ℕ) (cu : Fin tree.nodeCount) (ns : List ν)
    (s : Build tree.nodeCount W × List (Fin tree.nodeCount)) :
    sweepMeasure tree (ns.foldl (visitNeighbor tree c cu) s) = sweepMeasure tree s := by
  induction ns generalizing s with
  | nil => rfl
  | cons n ns ih => rw [List.foldl_cons, ih, sweepMeasure_visitNeighbor]

/-- The loop over the queue. -/
def sweepLoop (component : ℕ) :
    Loop (Build tree.nodeCount W × List (Fin tree.nodeCount)) (Build tree.nodeCount W) where
  step := sweepStep tree component
  Inv _ := True
  measure := sweepMeasure tree
  inv_step _ _ _ _ := trivial
  measure_step := by
    rintro ⟨build, queue⟩ state' _ hstep
    cases queue with
    | nil => cases hstep
    | cons current queue =>
      cases hstep
      rw [sweepMeasure_foldl]
      unfold sweepMeasure
      dsimp only
      rw [List.length_cons]
      omega

/-- The body of the loop over the roots. -/
def sweepRoot (state : Build tree.nodeCount W × ℕ) (root : Fin tree.nodeCount) :
    Build tree.nodeCount W × ℕ :=
  if (state.1.componentByIndex root).isSome then state
  else
    ((sweepLoop tree state.2).run (state.1.addRoot state.2 root, [root]) trivial, state.2 + 1)

/-- The tables of the whole sweep, and the number of components. -/
def sweep : Build tree.nodeCount W × ℕ :=
  (List.finRange tree.nodeCount).foldl (sweepRoot tree) (Build.initial tree.nodeCount, 0)

/-- `binary_lifting_level_count`. -/
def binaryLiftingLevelCount (nodeCount : ℕ) : ℕ := max (Nat.size (max nodeCount 1)) 1

/-- The levels of `ancestor_by_power` and `min_cut_by_power`, side by side. -/
def levelTables (build : Build tree.nodeCount W) :
    List (Table (Fin tree.nodeCount) W) :=
  List.iterate nextTable (build.ancestor, build.minCut) (binaryLiftingLevelCount tree.nodeCount)

/-- `finite_path_min_cut`. -/
def finitePathMinCut (minCut : W) : W := if ⊥ < minCut ∧ minCut < ⊤ then minCut else 0

/-- `TreeMinCutIndex::query_min_cut` on the indices of two nodes of one component, the first of
which is not higher than the second. -/
def pathMinCut (build : Build tree.nodeCount W) (left right : Fin tree.nodeCount) : W :=
  let tables := levelTables tree build
  let depthDelta := build.depthByIndex left - build.depthByIndex right
  let (left, minCut) := climb tables depthDelta (left, ⊤)
  if left = right then finitePathMinCut minCut
  else
    let (left, right, minCut) := separate tables (left, right, minCut)
    finitePathMinCut (min (min minCut (build.minCut left)) (build.minCut right))

/-- `TreeMinCutIndex::query_min_cut`, over the index that `TreeMinCutIndex::new` builds. -/
def indexQueryMinCut (left right : ν) : Option W :=
  let build := (sweep tree).1
  (tree.nodeIndex left).bind fun left =>
    (tree.nodeIndex right).bind fun right =>
      if build.componentByIndex left ≠ build.componentByIndex right then none
      else if build.depthByIndex left < build.depthByIndex right then
        some (pathMinCut tree build right left)
      else some (pathMinCut tree build left right)

/-- `query_min_cut`. -/
def queryMinCut (left right : ν) : Option W :=
  if left ∉ tree.nodesOrdered ∨ right ∉ tree.nodesOrdered then none
  else if left = right then some 0
  else indexQueryMinCut tree left right

end

/-! ## What the sweep keeps -/

variable {tree : Tree ν W}

omit [LinearOrder W] [BoundedOrder W] [Zero W] in
theorem nodeIndex_eq_some_iff {node : ν} {i : Fin tree.nodeCount} :
    tree.nodeIndex node = some i ↔ tree.node i = node := by
  unfold Tree.nodeIndex
  constructor
  · intro h
    simpa using List.find?_some h
  · intro h
    cases hf : (List.finRange tree.nodeCount).find? fun i => tree.node i = node with
    | none => exact absurd h (by simpa using List.find?_eq_none.mp hf i (List.mem_finRange i))
    | some j =>
      have hj : tree.node j = node := by simpa using List.find?_some hf
      rw [tree.nodup.injective_get (hj.trans h.symm)]

omit [DecidableEq ν] [LinearOrder W] [BoundedOrder W] [Zero W] in
theorem exists_index {node : ν} (h : node ∈ tree.nodesOrdered) :
    ∃ i : Fin tree.nodeCount, tree.node i = node := by
  obtain ⟨i, hi⟩ := List.mem_iff_get.mp h
  exact ⟨i, hi⟩

/-- Nodes that are joined by an edge, by their indices. -/
def Joined (tree : Tree ν W) (i j : Fin tree.nodeCount) : Prop :=
  tree.node j ∈ tree.neighbors (tree.node i)

/-- The tables while the nodes of `pending` wait for a look at their neighbours: components are
numbered below `limit`, every node with a component has its place below its parent, a component
has one root, and the neighbours of a node that does not wait are in its component. -/
structure Swept (tree : Tree ν W) (build : Build tree.nodeCount W) (limit : ℕ)
    (pending : List (Fin tree.nodeCount)) : Prop where
  fresh : ∀ i, build.componentByIndex i = none →
    build.depthByIndex i = 0 ∧ build.minCut i = ⊤
  root : ∀ i, build.componentByIndex i ≠ none → build.depthByIndex i = 0 →
    build.ancestor i = i
  child : ∀ i, build.componentByIndex i ≠ none → build.depthByIndex i ≠ 0 →
    Joined tree i (build.ancestor i) ∧
      build.depthByIndex (build.ancestor i) + 1 = build.depthByIndex i ∧
      build.componentByIndex (build.ancestor i) = build.componentByIndex i ∧
      build.minCut i = tree.edgeWeight (tree.node (build.ancestor i)) (tree.node i)
  single : ∀ i j, build.componentByIndex i ≠ none →
    build.componentByIndex i = build.componentByIndex j → build.depthByIndex i = 0 →
    build.depthByIndex j = 0 → i = j
  bound : ∀ i component, build.componentByIndex i = some component → component < limit
  waiting : ∀ i ∈ pending, build.componentByIndex i = some (limit - 1)
  finished : ∀ i, build.componentByIndex i ≠ none → i ∉ pending → ∀ j, Joined tree i j →
    build.componentByIndex j = build.componentByIndex i

omit [DecidableEq ν] in
theorem swept_initial : Swept tree (Build.initial tree.nodeCount) 0 [] where
  fresh _ _ := ⟨rfl, rfl⟩
  root _ h := absurd rfl h
  child _ h := absurd rfl h
  single _ _ h := absurd rfl h
  bound _ _ h := by cases h
  waiting _ h := by cases h
  finished _ h := absurd rfl h

omit [DecidableEq ν] in
/-- A new root starts a new component. -/
theorem Swept.addRoot {build : Build tree.nodeCount W} {l : ℕ}
    (h : Swept tree build l []) {root : Fin tree.nodeCount}
    (hr : build.componentByIndex root = none) :
    Swept tree (build.addRoot l root) (l + 1) [root] := by
  have hs : ∀ i, i ≠ root → (build.addRoot l root).componentByIndex i = build.componentByIndex i ∧
        (build.addRoot l root).ancestor i = build.ancestor i := fun i hi =>
    ⟨Function.update_of_ne hi _ _, Function.update_of_ne hi _ _⟩
  have hn : (build.addRoot l root).componentByIndex root = some l ∧
      (build.addRoot l root).ancestor root = root :=
    ⟨Function.update_self _ _ _, Function.update_self _ _ _⟩
  constructor
  · intro i hi
    by_cases hir : i = root
    · rw [hir, hn.1] at hi
      cases hi
    · rw [(hs i hir).1] at hi
      exact h.fresh i hi
  · intro i hi hd
    by_cases hir : i = root
    · rw [hir, hn.2]
    · rw [(hs i hir).1] at hi
      rw [(hs i hir).2]
      exact h.root i hi hd
  · intro i hi hd
    by_cases hir : i = root
    · rw [hir] at hd
      exact absurd (h.fresh root hr).1 hd
    · rw [(hs i hir).1] at hi ⊢
      rw [(hs i hir).2]
      obtain ⟨hj, hup, hc, hcu⟩ := h.child i hi hd
      have hpa : build.ancestor i ≠ root := by
        intro heq
        rw [heq, hr] at hc
        exact hi hc.symm
      rw [(hs _ hpa).1]
      exact ⟨hj, hup, hc, hcu⟩
  · intro i j hi hc hd hd'
    by_cases hir : i = root
    · by_cases hjr : j = root
      · rw [hir, hjr]
      · rw [hir, hn.1, (hs j hjr).1] at hc
        exact absurd (h.bound j l hc.symm) (Nat.lt_irrefl _)
    · by_cases hjr : j = root
      · rw [hjr, hn.1, (hs i hir).1] at hc
        exact absurd (h.bound i l hc) (Nat.lt_irrefl _)
      · rw [(hs i hir).1] at hi
        rw [(hs i hir).1, (hs j hjr).1] at hc
        exact h.single i j hi hc hd hd'
  · intro i c hi
    by_cases hir : i = root
    · rw [hir, hn.1] at hi
      cases hi
      exact Nat.lt_succ_self _
    · rw [(hs i hir).1] at hi
      exact (h.bound i c hi).trans (Nat.lt_succ_self _)
  · intro i hi
    rw [List.mem_singleton.mp hi, hn.1, Nat.add_sub_cancel]
  · intro i hi hp j hj
    have hir : i ≠ root := fun heq => hp (List.mem_singleton.mpr heq)
    rw [(hs i hir).1] at hi ⊢
    have hc := h.finished i hi (List.not_mem_nil) j hj
    have hjr : j ≠ root := by
      rintro rfl
      rw [hr] at hc
      exact hi hc.symm
    rw [(hs j hjr).1, hc]

omit [DecidableEq ν] in
/-- A neighbour without a component gets its place below the node it was reached from. -/
theorem Swept.addChild {build : Build tree.nodeCount W} {co : ℕ}
    {cu ch : Fin tree.nodeCount} {qu : List (Fin tree.nodeCount)}
    (h : Swept tree build (co + 1) (cu :: qu)) (hj : Joined tree cu ch)
    (hch : build.componentByIndex ch = none) :
    Swept tree (build.addChild co cu ch (tree.edgeWeight (tree.node cu) (tree.node ch)))
      (co + 1) (cu :: (qu ++ [ch])) := by
  have hcu : build.componentByIndex cu = some co := h.waiting cu List.mem_cons_self
  have hne : cu ≠ ch := by
    rintro rfl
    rw [hch] at hcu
    cases hcu
  set next := build.addChild co cu ch (tree.edgeWeight (tree.node cu) (tree.node ch)) with hnext
  have hs : ∀ i, i ≠ ch →
      next.componentByIndex i = build.componentByIndex i ∧
        next.depthByIndex i = build.depthByIndex i ∧ next.ancestor i = build.ancestor i ∧
        next.minCut i = build.minCut i := fun i hi =>
    ⟨Function.update_of_ne hi _ _, Function.update_of_ne hi _ _, Function.update_of_ne hi _ _,
      Function.update_of_ne hi _ _⟩
  have hn : next.componentByIndex ch = some co ∧
      next.depthByIndex ch = build.depthByIndex cu + 1 ∧ next.ancestor ch = cu ∧
      next.minCut ch = tree.edgeWeight (tree.node cu) (tree.node ch) :=
    ⟨Function.update_self _ _ _, Function.update_self _ _ _, Function.update_self _ _ _,
      Function.update_self _ _ _⟩
  constructor
  · intro i hi
    by_cases hic : i = ch
    · rw [hic, hn.1] at hi
      cases hi
    · rw [(hs i hic).1] at hi
      rw [(hs i hic).2.1, (hs i hic).2.2.2]
      exact h.fresh i hi
  · intro i hi hd
    by_cases hic : i = ch
    · rw [hic, hn.2.1] at hd
      cases hd
    · rw [(hs i hic).1] at hi
      rw [(hs i hic).2.1] at hd
      rw [(hs i hic).2.2.1]
      exact h.root i hi hd
  · intro i hi hd
    by_cases hic : i = ch
    · rw [hic, hn.2.2.1, hn.2.1, hn.1, hn.2.2.2, (hs cu hne).1, (hs cu hne).2.1]
      exact ⟨tree.symm hj, rfl, hcu, rfl⟩
    · rw [(hs i hic).1] at hi ⊢
      rw [(hs i hic).2.1] at hd ⊢
      rw [(hs i hic).2.2.1, (hs i hic).2.2.2]
      obtain ⟨hup, hl, hc, hcut⟩ := h.child i hi hd
      have hpa : build.ancestor i ≠ ch := by
        intro heq
        rw [heq, hch] at hc
        exact hi hc.symm
      rw [(hs _ hpa).1, (hs _ hpa).2.1]
      exact ⟨hup, hl, hc, hcut⟩
  · intro i j hi hc hd hd'
    have hic : i ≠ ch := by
      rintro rfl
      rw [hn.2.1] at hd
      cases hd
    have hjc : j ≠ ch := by
      rintro rfl
      rw [hn.2.1] at hd'
      cases hd'
    rw [(hs i hic).1] at hi
    rw [(hs i hic).1, (hs j hjc).1] at hc
    rw [(hs i hic).2.1] at hd
    rw [(hs j hjc).2.1] at hd'
    exact h.single i j hi hc hd hd'
  · intro i c hi
    by_cases hic : i = ch
    · rw [hic, hn.1] at hi
      cases hi
      exact Nat.lt_succ_self _
    · rw [(hs i hic).1] at hi
      exact h.bound i c hi
  · intro i hi
    by_cases hic : i = ch
    · rw [hic, hn.1, Nat.add_sub_cancel]
    · rw [(hs i hic).1]
      refine h.waiting i ?_
      simpa [hic] using hi
  · intro i hi hp j hij
    have hic : i ≠ ch := by
      rintro rfl
      exact hp (by simp)
    rw [(hs i hic).1] at hi ⊢
    have hc := h.finished i hi (fun hm => hp (by
      rcases List.mem_cons.mp hm with rfl | hm
      · exact List.mem_cons_self
      · exact List.mem_cons_of_mem _ (List.mem_append_left _ hm))) j hij
    have hjc : j ≠ ch := by
      rintro rfl
      rw [hch] at hc
      exact hi hc.symm
    rw [(hs j hjc).1, hc]

omit [DecidableEq ν] in
/-- A node all of whose neighbours have a component is finished. -/
theorem Swept.finish {build : Build tree.nodeCount W} {l : ℕ} {c : Fin tree.nodeCount}
    {qu : List (Fin tree.nodeCount)} (h : Swept tree build l (c :: qu))
    (ha : ∀ j, Joined tree c j → build.componentByIndex j ≠ none) :
    Swept tree build l qu := by
  refine { h with waiting := fun i hi => h.waiting i (List.mem_cons_of_mem _ hi), finished := ?_ }
  intro i hi hq j hij
  by_cases hic : i = c
  · subst hic
    have hc := h.waiting i List.mem_cons_self
    by_cases hjp : j ∈ i :: qu
    · rw [h.waiting j hjp, hc]
    · exact (h.finished j (ha j hij) hjp i (tree.symm hij)).symm
  · refine h.finished i hi (fun hm => ?_) j hij
    rcases List.mem_cons.mp hm with heq | hm
    · exact hic heq
    · exact hq hm

/-- What a step of the sweep does to the tables: nodes keep having a component. -/
def Extends {n : ℕ} (build next : Build n W) : Prop :=
  ∀ i, build.componentByIndex i ≠ none → next.componentByIndex i ≠ none

/-- A node that gets a component has one, and the others keep theirs. -/
theorem update_some_ne_none {n : ℕ} {cs : Fin n → Option ℕ} (new : Fin n)
    (c : ℕ) {i : Fin n} (h : i = new ∨ cs i ≠ none) :
    Function.update cs new (some c) i ≠ none := by
  by_cases hi : i = new
  · rw [hi, Function.update_self]
    exact Option.some_ne_none _
  · rw [Function.update_of_ne hi]
    exact h.resolve_left hi

theorem visitNeighbor_spec {c : ℕ} {cu : Fin tree.nodeCount}
    {build : Build tree.nodeCount W} {qu : List (Fin tree.nodeCount)}
    (h : Swept tree build (c + 1) (cu :: qu)) {ch : Fin tree.nodeCount}
    (hj : Joined tree cu ch) :
    ∃ next q', visitNeighbor tree c cu (build, qu) (tree.node ch) = (next, q') ∧
      Swept tree next (c + 1) (cu :: q') ∧ Extends build next ∧
      next.componentByIndex ch ≠ none := by
  have hin : tree.nodeIndex (tree.node ch) = some ch := nodeIndex_eq_some_iff.mpr rfl
  unfold visitNeighbor
  rw [hin]
  dsimp only
  split
  · rename_i ha
    exact ⟨build, qu, rfl, h, fun _ hi => hi, Option.isSome_iff_ne_none.mp ha⟩
  · rename_i hf
    rw [Bool.not_eq_true, Option.isSome_eq_false_iff, Option.isNone_iff_eq_none] at hf
    exact ⟨_, _, rfl, h.addChild hj hf, fun i hi => update_some_ne_none ch c (Or.inr hi),
      update_some_ne_none ch c (Or.inl rfl)⟩

/-- The loop over neighbours gives each of them a component. -/
theorem foldl_visitNeighbor_spec {c : ℕ} {cu : Fin tree.nodeCount}
    {ns : List ν} : ∀ {build : Build tree.nodeCount W} {qu : List (Fin tree.nodeCount)},
      Swept tree build (c + 1) (cu :: qu) →
      (∀ n ∈ ns, n ∈ tree.neighbors (tree.node cu)) →
      ∃ next q', ns.foldl (visitNeighbor tree c cu) (build, qu) = (next, q') ∧
        Swept tree next (c + 1) (cu :: q') ∧ Extends build next ∧
        ∀ j, tree.node j ∈ ns → next.componentByIndex j ≠ none := by
  induction ns with
  | nil =>
    intro build qu h _
    exact ⟨build, qu, rfl, h, fun _ hi => hi, fun _ hj => by cases hj⟩
  | cons n ns ih =>
    intro build qu h hn
    rw [List.forall_mem_cons] at hn
    obtain ⟨ch, rfl⟩ := exists_index (tree.mem_of_neighbor hn.1).2
    obtain ⟨next, q', hv, hne, he, hc⟩ := visitNeighbor_spec h hn.1
    obtain ⟨l, q'', hf, hl, he', ha⟩ := ih hne hn.2
    refine ⟨l, q'', ?_, hl, fun i hi => he' i (he i hi), ?_⟩
    · rw [List.foldl_cons, hv, hf]
    · intro j hj
      rcases List.mem_cons.mp hj with heq | hj
      · rw [tree.nodup.injective_get heq]
        exact he' ch hc
      · exact ha j hj

/-- The loop over the queue finishes the component. -/
theorem sweepLoop_run_spec {c : ℕ} {build : Build tree.nodeCount W}
    {qu : List (Fin tree.nodeCount)} (h : Swept tree build (c + 1) qu) :
    Swept tree ((sweepLoop tree c).run (build, qu) trivial) (c + 1) [] ∧
      Extends build ((sweepLoop tree c).run (build, qu) trivial) := by
  refine Loop.run_induction (sweepLoop tree c)
    (P := fun s => Swept tree s.1 (c + 1) s.2 ∧ Extends build s.1)
    (Q := fun next => Swept tree next (c + 1) [] ∧ Extends build next) ?_ ?_
    (build, qu) trivial ⟨h, fun _ hi => hi⟩
  · rintro ⟨cu, qu⟩ s' _ ⟨hsw, he⟩ hs
    cases qu with
    | nil => cases hs
    | cons node qu =>
      cases hs
      obtain ⟨next, q', hf, hne, he', ha⟩ := foldl_visitNeighbor_spec hsw (fun _ hn => hn)
      rw [hf]
      exact ⟨hne.finish ha, fun i hi => he' i (he i hi)⟩
  · rintro ⟨cu, qu⟩ next _ ⟨hsw, he⟩ hs
    cases qu with
    | nil =>
      cases hs
      exact ⟨hsw, he⟩
    | cons node qu => cases hs

theorem sweepRoot_spec {s : Build tree.nodeCount W × ℕ} (h : Swept tree s.1 s.2 [])
    (root : Fin tree.nodeCount) :
    Swept tree (sweepRoot tree s root).1 (sweepRoot tree s root).2 [] ∧
      Extends s.1 (sweepRoot tree s root).1 ∧
      (sweepRoot tree s root).1.componentByIndex root ≠ none := by
  unfold sweepRoot
  split
  · rename_i ha
    exact ⟨h, fun _ hi => hi, Option.isSome_iff_ne_none.mp ha⟩
  · rename_i hf
    rw [Bool.not_eq_true, Option.isSome_eq_false_iff, Option.isNone_iff_eq_none] at hf
    obtain ⟨hs, he⟩ := sweepLoop_run_spec (h.addRoot hf)
    exact ⟨hs, fun i hi => he i (update_some_ne_none root s.2 (Or.inr hi)),
      he root (update_some_ne_none root s.2 (Or.inl rfl))⟩

/-- **After the sweep every node has its place.** -/
theorem sweep_spec (tree : Tree ν W) : Swept tree (sweep tree).1 (sweep tree).2 [] ∧
      ∀ i, (sweep tree).1.componentByIndex i ≠ none := by
  have hf : ∀ (rs : List (Fin tree.nodeCount)) (s : Build tree.nodeCount W × ℕ),
      Swept tree s.1 s.2 [] →
      Swept tree (rs.foldl (sweepRoot tree) s).1 (rs.foldl (sweepRoot tree) s).2 [] ∧
        Extends s.1 (rs.foldl (sweepRoot tree) s).1 ∧
        ∀ root ∈ rs, (rs.foldl (sweepRoot tree) s).1.componentByIndex root ≠ none := by
    intro rs
    induction rs with
    | nil => exact fun _ h => ⟨h, fun _ hi => hi, List.forall_mem_nil _⟩
    | cons root rs ih =>
      intro s h
      obtain ⟨hs, he, hr⟩ := sweepRoot_spec h root
      obtain ⟨hl, he', ha⟩ := ih _ hs
      rw [List.foldl_cons]
      exact ⟨hl, fun i hi => he' i (he i hi), List.forall_mem_cons.mpr ⟨he' root hr, ha⟩⟩
  obtain ⟨hs, -, ha⟩ := hf (List.finRange tree.nodeCount) (Build.initial _, 0) swept_initial
  exact ⟨hs, fun i => ha i (List.mem_finRange i)⟩

/-! ## The forest of the sweep -/

/-- The graph of the tree on the indices. -/
abbrev indexGraph (tree : Tree ν W) : SimpleGraph (Fin tree.nodeCount) :=
  tree.graph.comap tree.node

theorem rooted_sweep (tree : Tree ν W) :
    RootedForest.Rooted (indexGraph tree) (sweep tree).1.ancestor (sweep tree).1.depthByIndex := by
  obtain ⟨hs, ha⟩ := sweep_spec tree
  exact ⟨fun i => hs.root i (ha i), fun i hi => (hs.child i (ha i) hi).1,
    fun i hi => (hs.child i (ha i) hi).2.1⟩

theorem component_iterate (k : ℕ) (i : Fin tree.nodeCount) :
    (sweep tree).1.componentByIndex ((sweep tree).1.ancestor^[k] i)
      = (sweep tree).1.componentByIndex i := by
  obtain ⟨hs, ha⟩ := sweep_spec tree
  induction k generalizing i with
  | zero => rfl
  | succ k ih =>
    rw [Function.iterate_succ_apply, ih]
    by_cases hi : (sweep tree).1.depthByIndex i = 0
    · rw [hs.root i (ha i) hi]
    · exact (hs.child i (ha i) hi).2.2.1

/-- The chains of a component end at one root. -/
theorem iterate_depth_eq {i j : Fin tree.nodeCount}
    (h : (sweep tree).1.componentByIndex i = (sweep tree).1.componentByIndex j) :
    (sweep tree).1.ancestor^[(sweep tree).1.depthByIndex i] i
      = (sweep tree).1.ancestor^[(sweep tree).1.depthByIndex j] j := by
  obtain ⟨hs, ha⟩ := sweep_spec tree
  have hr := rooted_sweep tree
  refine hs.single _ _ (ha _) ?_ ?_ ?_
  · rw [component_iterate, component_iterate, h]
  · rw [hr.depth_iterate, Nat.sub_self]
  · rw [hr.depth_iterate, Nat.sub_self]

/-- **Two nodes have one component exactly when they are connected.** -/
theorem component_eq_iff {i j : Fin tree.nodeCount} :
    (sweep tree).1.componentByIndex i = (sweep tree).1.componentByIndex j ↔
      tree.graph.Reachable (tree.node i) (tree.node j) := by
  obtain ⟨hs, hal⟩ := sweep_spec tree
  constructor
  · intro h
    have hc : ∀ i : Fin tree.nodeCount, tree.graph.Reachable (tree.node i)
        (tree.node ((sweep tree).1.ancestor^[(sweep tree).1.depthByIndex i] i)) := by
      intro i
      obtain ⟨p, -⟩ := (rooted_sweep tree).exists_chain _ i le_rfl
      exact ⟨p.map (SimpleGraph.Hom.comap tree.node tree.graph)⟩
    have hj := (hc j).symm
    rw [← iterate_depth_eq h] at hj
    exact (hc i).trans hj
  · rintro ⟨p⟩
    generalize hu : tree.node i = u at p
    generalize hv : tree.node j = v at p
    induction p generalizing i with
    | nil => rw [tree.nodup.injective_get (hu.trans hv.symm)]
    | @cons u w _ ha _ ih =>
      obtain ⟨k, hk⟩ := exists_index (tree.mem_of_neighbor ha).2
      have hjo : Joined tree i k := by
        unfold Joined
        rw [hu, hk]
        exact ha
      rw [← hs.finished i (hal i) List.not_mem_nil k hjo, ih hk hv]

omit [DecidableEq ν] in
theorem edgeWeight_comm (tree : Tree ν W) (u v : ν) :
    tree.edgeWeight u v = tree.edgeWeight v u := by
  unfold Tree.edgeWeight
  rw [tree.weight_symm]

/-- The weight of an edge. -/
def Tree.weight (tree : Tree ν W) : Sym2 ν → W :=
  Sym2.lift ⟨tree.edgeWeight, edgeWeight_comm tree⟩

omit [DecidableEq ν] in
theorem finitePathMinCut_weight (tree : Tree ν W) (e : Sym2 ν) :
    finitePathMinCut (tree.weight e) = tree.weight e := by
  induction e with
  | _ u v =>
    show finitePathMinCut (tree.edgeWeight u v) = tree.edgeWeight u v
    unfold Tree.edgeWeight
    cases hf : (tree.weightAttr u v).filter fun weight => ⊥ < weight ∧ weight < ⊤ ∧ 0 ≤ weight with
    | none =>
      unfold finitePathMinCut
      split <;> rfl
    | some weight =>
      have hb := Option.filter_eq_some_iff.mp hf
      simp only [decide_eq_true_eq] at hb
      exact if_pos ⟨hb.2.1, hb.2.2.1⟩

theorem lt_two_pow_levelCount (n : ℕ) : n < 2 ^ binaryLiftingLevelCount n := by
  have hs : max n 1 < 2 ^ Nat.size (max n 1) := Nat.lt_size_self _
  have hp : 2 ^ Nat.size (max n 1) ≤ 2 ^ binaryLiftingLevelCount n :=
    Nat.pow_le_pow_right (by decide) (le_max_left _ _)
  have hle := le_max_left n 1
  omega

omit [DecidableEq ν] [Zero W] in
theorem levelTables_eq (tree : Tree ν W) (build : Build tree.nodeCount W) :
    levelTables tree build = (List.range (binaryLiftingLevelCount tree.nodeCount)).map
      (levelTable build.ancestor build.minCut) := by
  unfold levelTables
  rw [← levelTable_zero, iterate_nextTable, List.range_eq_range']

theorem minCut_eq_weight {i : Fin tree.nodeCount} (hi : (sweep tree).1.depthByIndex i ≠ 0) :
    (sweep tree).1.minCut i = tree.weight ((s(i, (sweep tree).1.ancestor i)).map tree.node) := by
  obtain ⟨hs, ha⟩ := sweep_spec tree
  rw [(hs.child i (ha i) hi).2.2.2, edgeWeight_comm]
  rfl

/-- The value of two chains up to where they meet, as the query computes it. -/
theorem isLeast_finitePathMinCut {left right : Fin tree.nodeCount} {a b : ℕ}
    (ha : a ≤ (sweep tree).1.depthByIndex left) (hb : b ≤ (sweep tree).1.depthByIndex right)
    (hm : (sweep tree).1.ancestor^[a] left = (sweep tree).1.ancestor^[b] right)
    (hap : a ≠ 0 → b ≠ 0 →
      (sweep tree).1.ancestor^[a - 1] left ≠ (sweep tree).1.ancestor^[b - 1] right)
    (hne : left ≠ right) :
    ∃ p : (indexGraph tree).Walk left right, p.IsPath ∧
      IsLeast {w | ∃ e ∈ p.edges, tree.weight (e.map tree.node) = w} (finitePathMinCut
          (min (chainMin (sweep tree).1.ancestor (sweep tree).1.minCut a left)
            (chainMin (sweep tree).1.ancestor (sweep tree).1.minCut b right))) := by
  have hv : ∀ i, (sweep tree).1.depthByIndex i ≠ 0 → (sweep tree).1.minCut i
      = (tree.weight ∘ Sym2.map tree.node) s(i, (sweep tree).1.ancestor i) :=
    fun i => minCut_eq_weight
  obtain ⟨p, hp, hl⟩ := (rooted_sweep tree).exists_path_isLeast hv ha hb hm hap hne
  refine ⟨p, hp, ?_⟩
  obtain ⟨e, -, he⟩ := hl.1
  rw [← he, Function.comp_apply, finitePathMinCut_weight]
  rwa [← he] at hl

/-- **The lifting walk answers the least weight on a path between the nodes.** -/
theorem pathMinCut_spec {left right : Fin tree.nodeCount} (hc : (sweep tree).1.componentByIndex left
      = (sweep tree).1.componentByIndex right)
    (hd : (sweep tree).1.depthByIndex right ≤ (sweep tree).1.depthByIndex left)
    (hne : left ≠ right) :
    ∃ p : (indexGraph tree).Walk left right, p.IsPath ∧
      IsLeast {w | ∃ e ∈ p.edges, tree.weight (e.map tree.node) = w}
        (pathMinCut tree (sweep tree).1 left right) := by
  have hr := rooted_sweep tree
  have hl : ∀ i, (sweep tree).1.depthByIndex i < 2 ^ binaryLiftingLevelCount tree.nodeCount := by
    intro i
    have hca := hr.depth_lt_card i
    rw [Fintype.card_fin] at hca
    exact hca.trans (lt_two_pow_levelCount _)
  set up := (sweep tree).1.ancestor with hup
  set cut := (sweep tree).1.minCut with hcut
  set d := (sweep tree).1.depthByIndex with hdepths
  set delta := d left - d right with hdelta
  have hcl : climb (levelTables tree (sweep tree).1) delta (left, ⊤)
      = (up^[delta] left, chainMin up cut delta left) := by
    rw [levelTables_eq, climb_levelTables, min_top_left,
      Nat.mod_eq_of_lt ((Nat.sub_le _ _).trans_lt (hl left))]
  unfold pathMinCut
  dsimp only
  rw [← hdepths, ← hdelta, hcl]
  dsimp only
  split
  · -- the deeper node is below the other one
    rename_i hm
    have h := isLeast_finitePathMinCut (Nat.sub_le _ _ : delta ≤ d left) (Nat.zero_le _)
      hm (fun _ hz => absurd rfl hz) hne
    rwa [chainMin, min_top_right] at h
  · rename_i ha
    have hlev : d (up^[delta] left) = d right := by
      rw [hr.depth_iterate]
      omega
    have hro : ∀ k, d right ≤ k → up^[k] (up^[delta] left) = up^[k] right := by
      intro k hk
      rw [hr.iterate_of_depth_le (hlev.le.trans hk), hr.iterate_of_depth_le hk]
      exact iterate_depth_eq ((component_iterate delta left).trans hc)
    have hm := hro _ (hl right).le
    obtain ⟨k, hb, hn, hw⟩ := @separate_levelTables _ _ _ _ up cut _
      (binaryLiftingLevelCount tree.nodeCount) _ _ (chainMin up cut delta left) ha hm
    have hk : k < d right := by
      by_contra hle
      exact hb (hro k (not_lt.mp hle))
    rw [levelTables_eq, hw]
    dsimp only
    have ht : delta + (k + 1) ≤ d left := by omega
    have hm : up^[delta + (k + 1)] left = up^[k + 1] right := by
      rw [Nat.add_comm, Function.iterate_add_apply]
      exact hn
    have hla : up^[delta + (k + 1) - 1] left ≠ up^[k + 1 - 1] right := by
      rw [show delta + (k + 1) - 1 = k + delta by omega, Nat.add_sub_cancel,
        Function.iterate_add_apply]
      exact hb
    have h := isLeast_finitePathMinCut ht hk hm (fun _ _ => hla) hne
    rw [← hup, ← hcut, chainMin_add, chainMin_succ, chainMin_succ] at h
    rw [← hcut]
    have hmi : ∀ m m₁ m₂ c₁ c₂ : W, min (min m (min m₁ c₁)) (min m₂ c₂)
        = min (min (min (min m m₁) m₂) c₁) c₂ := by
      intro m m₁ m₂ c₁ c₂
      ac_rfl
    rwa [hmi] at h

/-! ## Queries -/

omit [DecidableEq ν] [LinearOrder W] [BoundedOrder W] [Zero W] in
/-- The ends of a walk between two nodes are nodes of the tree. -/
theorem mem_nodes_of_walk {left right : ν} (p : tree.graph.Walk left right) (hne : left ≠ right) :
    left ∈ tree.nodesOrdered := by
  cases p with
  | nil => exact absurd rfl hne
  | cons ha _ => exact (tree.mem_of_neighbor ha).1

omit [DecidableEq ν] in
/-- The least weight on the path of a forest, by a path on the indices. -/
theorem isLeast_of_indexPath (f : Forest ν W) {i j : Fin f.nodeCount} {cut : W}
    {q : (indexGraph f.toTree).Walk i j} (hq : q.IsPath)
    (hl : IsLeast {w | ∃ e ∈ q.edges, f.weight (e.map f.node) = w} cut)
    {p : f.graph.Walk (f.node i) (f.node j)} (hp : p.IsPath) :
    IsLeast {w | ∃ e ∈ p.edges, f.weight e = w} cut := by
  have hpa : (q.map (SimpleGraph.Hom.comap f.node f.graph)).IsPath := hq.map f.nodup.injective_get
  have hu : p = q.map (SimpleGraph.Hom.comap f.node f.graph) :=
    congrArg Subtype.val ((f.acyclic.subsingleton_path _ _).elim ⟨p, hp⟩ ⟨_, hpa⟩)
  have he : p.edges = q.edges.map (Sym2.map f.node) := by
    rw [hu]
    exact SimpleGraph.Walk.edges_map _ _
  simpa only [he, List.mem_map, exists_exists_and_eq_and] using hl

/-- Connected nodes get the least weight on the path between them. -/
theorem queryMinCut_of_path (f : Forest ν W) {left right : ν} (hne : left ≠ right)
    {p : f.graph.Walk left right} (hp : p.IsPath) :
    ∃ cut, queryMinCut f.toTree left right = some cut ∧
      IsLeast {w | ∃ e ∈ p.edges, f.weight e = w} cut := by
  have hle := mem_nodes_of_walk p hne
  have hr := mem_nodes_of_walk p.reverse hne.symm
  obtain ⟨i, rfl⟩ := exists_index hle
  obtain ⟨j, rfl⟩ := exists_index hr
  have hij : i ≠ j := fun heq => hne (congrArg _ heq)
  have hc := component_eq_iff.mpr ⟨p⟩
  have hi : f.nodeIndex (f.node i) = some i := nodeIndex_eq_some_iff.mpr rfl
  have hj : f.nodeIndex (f.node j) = some j := nodeIndex_eq_some_iff.mpr rfl
  unfold queryMinCut indexQueryMinCut
  rw [if_neg (by rintro (h | h); exacts [h hle, h hr]), if_neg hne]
  dsimp only
  rw [hi, hj, Option.bind_some, Option.bind_some, if_neg (not_not.mpr hc)]
  split
  · rename_i hd
    obtain ⟨q, hq, hl⟩ := pathMinCut_spec hc.symm hd.le hij.symm
    refine ⟨_, rfl, ?_⟩
    have h := isLeast_of_indexPath f hq hl hp.reverse
    simpa only [SimpleGraph.Walk.edges_reverse, List.mem_reverse] using h
  · rename_i hd
    obtain ⟨q, hq, hl⟩ := pathMinCut_spec hc (not_lt.mp hd) hij
    exact ⟨_, rfl, isLeast_of_indexPath f hq hl hp⟩

/-- There is no answer exactly for unknown nodes and for nodes that are not connected. -/
theorem queryMinCut_eq_none_iff (tree : Tree ν W) (left right : ν) :
    queryMinCut tree left right = none ↔ left ∉ tree.nodesOrdered ∨ right ∉ tree.nodesOrdered ∨
        ¬ tree.graph.Reachable left right := by
  unfold queryMinCut
  split
  · rename_i hu
    exact ⟨fun _ => hu.elim Or.inl fun h => Or.inr (Or.inl h), fun _ => rfl⟩
  · rename_i hk
    rw [not_or, not_not, not_not] at hk
    split
    · rename_i heq
      subst heq
      simp [hk.1]
    · obtain ⟨i, rfl⟩ := exists_index hk.1
      obtain ⟨j, rfl⟩ := exists_index hk.2
      have hi : tree.nodeIndex (tree.node i) = some i := nodeIndex_eq_some_iff.mpr rfl
      have hj : tree.nodeIndex (tree.node j) = some j := nodeIndex_eq_some_iff.mpr rfl
      unfold indexQueryMinCut
      dsimp only
      rw [hi, hj, Option.bind_some, Option.bind_some, ← component_eq_iff]
      simp only [hk.1, hk.2, not_true, false_or]
      split
      · rename_i hc
        simp [hc]
      · rename_i hc
        rw [not_not] at hc
        split <;> simp [hc]

/-- **A query over a forest answers nothing exactly for unknown nodes and for nodes in different
components; two different nodes that are connected get the least weight on the path between
them, a node and itself get zero, and the order of the two nodes does not matter.** -/
theorem queryMinCut_spec (forest : Forest ν W) (left right : ν) :
    (queryMinCut forest.toTree left right = none ↔
      left ∉ forest.nodesOrdered ∨ right ∉ forest.nodesOrdered ∨
        ¬ forest.graph.Reachable left right) ∧
    (∀ p : forest.graph.Walk left right, p.IsPath → left ≠ right →
      ∃ cut, queryMinCut forest.toTree left right = some cut ∧
        IsLeast {w | ∃ e ∈ p.edges, forest.weight e = w} cut) ∧
    (left ∈ forest.nodesOrdered → left = right → queryMinCut forest.toTree left right = some 0) ∧
    queryMinCut forest.toTree left right = queryMinCut forest.toTree right left := by
  refine ⟨queryMinCut_eq_none_iff _ _ _, fun p hp hne => queryMinCut_of_path forest hne hp, ?_, ?_⟩
  · rintro hm rfl
    unfold queryMinCut
    simp [hm]
  · by_cases hne : left = right
    · rw [hne]
    cases hq : queryMinCut forest.toTree left right with
    | none =>
      rw [queryMinCut_eq_none_iff] at hq
      refine (Eq.symm ?_)
      rw [queryMinCut_eq_none_iff, SimpleGraph.reachable_comm]
      exact or_left_comm.mp hq
    | some cut =>
      -- both answers are the least weight on one path
      have hr : forest.graph.Reachable left right := by
        by_contra hnot
        rw [(queryMinCut_eq_none_iff _ _ _).mpr (Or.inr (Or.inr hnot))] at hq
        cases hq
      obtain ⟨p, hp⟩ := hr.exists_isPath
      obtain ⟨c, hc, hl⟩ := queryMinCut_of_path forest hne hp
      obtain ⟨c', hc', hl'⟩ := queryMinCut_of_path forest (Ne.symm hne) hp.reverse
      simp only [SimpleGraph.Walk.edges_reverse, List.mem_reverse] at hl'
      rw [← hq, hc, hc', hl.unique hl']

/-- A path of three nodes with `none` in the middle, of which the edge to `some false` is the
lighter. -/
def chainTree : Tree (Option Bool) (WithBot (WithTop ℤ)) where
  nodesOrdered := [some true, none, some false]
  neighbors u := u.elim [some true, some false] fun _ => [none]
  weightAttr u v := some (if u = some false ∨ v = some false then 2 else 5)
  nodup := by decide
  mem_of_neighbor {u v} := by decide +revert
  symm {u v} := by decide +revert
  irrefl := by decide
  weight_symm u v := by simp only [or_comm]

/-- The path is connected and has one edge less than nodes, so it is a forest. -/
def chain : Forest (Option Bool) (WithBot (WithTop ℤ)) where
  toTree := chainTree
  acyclic := by
    let _ : DecidableRel chainTree.graph.Adj := fun u v =>
      inferInstanceAs (Decidable (v ∈ chainTree.neighbors u))
    refine (SimpleGraph.isTree_iff_connected_and_card.mpr ⟨?_, ?_⟩).isAcyclic
    · have hmiddle : ∀ v, none = v ∨ chainTree.graph.Adj none v := by decide
      refine SimpleGraph.connected_iff_exists_forall_reachable _ |>.mpr ⟨none, fun v => ?_⟩
      exact (hmiddle v).elim (fun h => h ▸ .refl _) SimpleGraph.Adj.reachable
    · rw [Nat.card_eq_fintype_card, Nat.card_eq_fintype_card]
      rfl

example : queryMinCut chain.toTree (some true) (some false) = some 2 := by decide

/-- A forest of one node. -/
def loneNode : Forest String (WithBot (WithTop ℤ)) where
  nodesOrdered := ["a"]
  neighbors _ := []
  weightAttr _ _ := none
  nodup := by decide
  mem_of_neighbor h := by cases h
  symm h := by cases h
  irrefl _ h := by cases h
  weight_symm _ _ := rfl
  acyclic := by
    intro u p hp
    cases p with
    | nil => exact hp.ne_nil rfl
    | cons hadj _ => cases hadj

/-- The path from a node to itself has no edge, so zero is no least weight on it. -/
theorem queryMinCut_lone_node :
    "a" ∈ loneNode.nodesOrdered ∧
    ∃ p : loneNode.graph.Walk "a" "a", p.IsPath ∧
      queryMinCut loneNode.toTree "a" "a" = some 0 ∧
      ¬ ∃ cut, queryMinCut loneNode.toTree "a" "a" = some cut ∧
        IsLeast {w | ∃ e ∈ p.edges, loneNode.weight e = w} cut := by
  refine ⟨List.mem_singleton.mpr rfl, .nil, SimpleGraph.Walk.IsPath.nil, rfl, ?_⟩
  rintro ⟨cut, -, ⟨e, he, -⟩, -⟩
  cases he

end GomoryHu
