/-
# Building the graph of repair actions

The builder succeeds exactly when ids are unique, prerequisites are known and there is no cycle.
The layers depend on the actions only through their ids, their priorities and which prerequisites
they have.  When there is a cycle, the builder names the first action, by id, that leads to one.
-/
import EideticEngine.BoundedInsert
import EideticEngine.RepairLayers

namespace RepairActionGraph

open KahnLayers (HasChain InLayer OnCycle Requires)
open RustText (strCmp)

/-! ## The map by id -/

/-- In the order of the ids, each once. -/
def SortedById (byId : ById) : Prop := byId.Pairwise fun a b => strCmp a.id b.id = .lt

theorem SortedById.nodup {byId : ById} (h : SortedById byId) : byId.ids.Nodup :=
  nodup_of_pairwise_lt (List.pairwise_map.mpr h)

theorem sortedById_orderedInsert {byId : ById} {ac : RepairAction} (h : SortedById byId)
    (hn : ac.id ∉ byId.ids) :
    SortedById (byId.orderedInsert (fun a b => strCmp a.id b.id ≠ .gt) ac) := by
  have hc : Std.TransCmp fun a b : RepairAction => strCmp a.id b.id :=
    ComparisonSort.transCmp_on RepairAction.id
  have hle : (byId.orderedInsert (fun a b => strCmp a.id b.id ≠ .gt) ac).Pairwise
      fun a b => strCmp a.id b.id ≠ .gt := by
    refine List.Pairwise.orderedInsert ac byId (h.imp fun hlt => ?_)
    rw [hlt]
    exact nofun
  have hne : (byId.orderedInsert (fun a b => strCmp a.id b.id ≠ .gt) ac).Pairwise
      fun a b => a.id ≠ b.id := by
    rw [← List.pairwise_map]
    refine ((List.perm_orderedInsert _ ac byId).map RepairAction.id).nodup_iff.mpr ?_
    exact List.nodup_cons.mpr ⟨hn, h.nodup⟩
  refine (hle.and hne).imp fun {a b} hab => ?_
  cases hc : strCmp a.id b.id with
  | lt => rfl
  | eq => exact absurd (Std.LawfulEqCmp.eq_of_compare hc) hab.2
  | gt => exact absurd hc hab.1

/-- Unique ids are collected, in their order. -/
theorem collectById_of_nodup {actions : List RepairAction} {byId : ById} (h : SortedById byId)
    (hn : ((actions ++ byId).map RepairAction.id).Nodup) :
    ∃ bi', collectById byId actions = .ok bi' ∧ bi'.Perm (actions ++ byId) ∧ SortedById bi' := by
  induction actions generalizing byId with
  | nil => exact ⟨byId, rfl, .refl byId, h⟩
  | cons ac actions ih =>
    have hne : ac.id ∉ byId.ids := by
      intro hme
      rw [List.cons_append, List.map_cons, List.nodup_cons, List.map_append] at hn
      exact hn.1 (List.mem_append_right _ hme)
    have hp := List.perm_orderedInsert (fun a b : RepairAction => strCmp a.id b.id ≠ .gt) ac byId
    have hm : (actions ++ byId.orderedInsert (fun a b => strCmp a.id b.id ≠ .gt) ac).Perm
        (ac :: actions ++ byId) :=
      (hp.append_left actions).trans List.perm_middle
    obtain ⟨bi', hc, hp', hs⟩ := ih (sortedById_orderedInsert h hne)
      ((hm.map RepairAction.id).nodup_iff.mpr hn)
    refine ⟨bi', ?_, hp'.trans hm, hs⟩
    rw [collectById, insertById, if_neg hne]
    exact hc

/-- What is collected had unique ids. -/
theorem nodup_of_collectById {actions : List RepairAction} {byId bi' : ById}
    (h : collectById byId actions = .ok bi') (hn : byId.ids.Nodup) :
    ((actions ++ byId).map RepairAction.id).Nodup := by
  induction actions generalizing byId with
  | nil => exact hn
  | cons ac actions ih =>
    rw [collectById, insertById] at h
    by_cases hm : ac.id ∈ byId.ids
    · rw [if_pos hm] at h
      cases h
    · rw [if_neg hm] at h
      have hp := List.perm_orderedInsert (fun a b : RepairAction => strCmp a.id b.id ≠ .gt) ac byId
      have hr := ih h ((hp.map RepairAction.id).nodup_iff.mpr (List.nodup_cons.mpr ⟨hm, hn⟩))
      exact (((hp.append_left actions).trans List.perm_middle).map RepairAction.id).nodup_iff.mp hr

theorem unknown_eq_none {byId : ById} : byId.unknown = none
    ↔ ∀ ac ∈ byId, ∀ p ∈ ac.prerequisites, p ∈ byId.ids := by
  rw [ById.unknown, List.find?_eq_none]
  constructor
  · intro h ac hm p hp
    have he : (ac.id, p) ∈ byId.flatMap fun ac => ac.prerequisites.map fun p => (ac.id, p) :=
      List.mem_flatMap.mpr ⟨ac, hm, List.mem_map_of_mem hp⟩
    exact not_not.mp fun hn => h _ he (decide_eq_true hn)
  · intro h ed he hn
    obtain ⟨ac, hm, hin⟩ := List.mem_flatMap.mp he
    obtain ⟨p, hp, rfl⟩ := List.mem_map.mp hin
    exact of_decide_eq_true hn (h ac hm p hp)

/-! ## The prerequisites of a list of actions -/

/-- The ids that the actions of an id name. -/
def prerequisitesOf (actions : List RepairAction) (id : String) : List String :=
  (actions.filter (·.id = id)).flatMap RepairAction.prerequisites

section

variable {actions actions' : List RepairAction} {byId : ById} {a b : String}

/-- The prerequisites over all actions of an identifier. -/
theorem mem_prerequisitesOf : b ∈ prerequisitesOf actions a
    ↔ ∃ ac ∈ actions, ac.id = a ∧ b ∈ ac.prerequisites := by
  rw [prerequisitesOf, List.mem_flatMap]
  simp only [List.mem_filter, decide_eq_true_eq, and_assoc]

/-- The map by id has the prerequisites of the actions. -/
theorem mem_pre_iff (hn : byId.ids.Nodup) (hp : byId.Perm actions) :
    b ∈ byId.pre a ↔ b ∈ prerequisitesOf actions a := by
  rw [mem_prerequisitesOf]
  constructor
  · intro hb
    by_cases ha : a ∈ byId.ids
    · obtain ⟨ac, hm, rfl⟩ := List.mem_map.mp ha
      rw [pre_of_mem hn hm] at hb
      exact ⟨ac, hp.mem_iff.mp hm, rfl, hb⟩
    · rw [pre_of_not_mem ha] at hb
      cases hb
  · rintro ⟨ac, hm, rfl, hb⟩
    rw [pre_of_mem hn (hp.mem_iff.mpr hm)]
    exact hb

theorem requires_congr {pre p' : String → List String} (h : ∀ a b, b ∈ pre a ↔ b ∈ p' a) :
    Requires pre = Requires p' := by
  funext a b
  exact propext (h a b)

/-! ## Success -/

/-- What the builder asks of the actions before it makes layers. -/
structure Named (actions : List RepairAction) : Prop where
  unique : (actions.map RepairAction.id).Nodup
  known : ∀ action ∈ actions, ∀ prereq ∈ action.prerequisites,
    prereq ∈ actions.map RepairAction.id

theorem exists_byId (h : (actions.map RepairAction.id).Nodup) :
    ∃ byId, collectById [] actions = .ok byId ∧ byId.Perm actions ∧ SortedById byId := by
  have hn : ((actions ++ []).map RepairAction.id).Nodup := by
    rw [List.append_nil]
    exact h
  obtain ⟨byId, hc, hp, hs⟩ := collectById_of_nodup .nil hn
  rw [List.append_nil] at hp
  exact ⟨byId, hc, hp, hs⟩

theorem mem_ids_iff (hp : byId.Perm actions) : a ∈ byId.ids ↔ a ∈ actions.map RepairAction.id :=
  (hp.map RepairAction.id).mem_iff

theorem Named.wellFormed (h : Named actions) (hp : byId.Perm actions)
    (hs : SortedById byId) : byId.WellFormed where
  sorted := hs
  known := fun ac hm p hpr => (mem_ids_iff hp).mpr (h.known ac (hp.mem_iff.mp hm) p hpr)

/-- Named actions get their layers. -/
theorem Named.build (h : Named actions) : ∃ byId r, byId.Perm actions ∧ byId.WellFormed
    ∧ Outcome byId r
    ∧ buildRepairActionGraph actions = some (r.map byId.graph) := by
  obtain ⟨byId, hc, hp, hs⟩ := exists_byId h.unique
  have hw := h.wellFormed hp hs
  obtain ⟨r, hr, ho⟩ := kahnLayers_outcome hw
  refine ⟨byId, r, hp, hw, ho, ?_⟩
  rw [buildRepairActionGraph, hc]
  dsimp only
  rw [unknown_eq_none.mpr hw.known]
  dsimp only
  rw [hr]
  rfl

/-- Actions that are not named make an error that is not of a cycle. -/
theorem named_of_build {r : Except RepairActionGraphError Graph}
    (h : buildRepairActionGraph actions = some r)
    (hr : ∀ error, r = .error error → ∃ cs, error = .dependencyCycle cs) :
    Named actions := by
  unfold buildRepairActionGraph at h
  split at h
  · rename_i error hc
    obtain ⟨cs, rfl⟩ := hr error (Option.some.inj h).symm
    -- The map by id fails only for an id that comes twice.
    have hno : ∀ (actions : List RepairAction) (byId : ById),
        collectById byId actions ≠ .error (.dependencyCycle cs) := by
      intro actions
      induction actions with
      | nil => exact fun byId => nofun
      | cons ac actions ih =>
        intro byId
        rw [collectById]
        split
        · exact nofun
        · exact ih _
    exact absurd hc (hno actions [])
  · rename_i byId hc
    have hn := nodup_of_collectById hc List.nodup_nil
    rw [List.append_nil] at hn
    obtain ⟨bi', hc', hp, -⟩ := exists_byId hn
    cases hc.symm.trans hc'
    split at h
    · obtain ⟨cs, hco⟩ := hr _ (Option.some.inj h).symm
      cases hco
    · rename_i hu
      refine ⟨hn, fun ac hm p hpr => ?_⟩
      exact (mem_ids_iff hp).mp (unknown_eq_none.mp hu ac (hp.mem_iff.mpr hm) p hpr)

/-- No action lies on a cycle. -/
def Acyclic (actions : List RepairAction) : Prop :=
  ∀ id, ¬ OnCycle (prerequisitesOf actions) id

/-- A cycle is one of actions. -/
theorem mem_ids_of_onCycle (h : OnCycle (prerequisitesOf actions) a) :
    a ∈ actions.map RepairAction.id := by
  obtain ⟨b, hs, -⟩ := Relation.TransGen.head'_iff.mp h
  obtain ⟨ac, hm, rfl, -⟩ := mem_prerequisitesOf.mp hs
  exact List.mem_map_of_mem hm

theorem hasChain_pre_iff (hw : byId.WellFormed) (hp : byId.Perm actions) {k : ℕ} :
    HasChain byId.pre a k ↔ HasChain (prerequisitesOf actions) a k :=
  KahnLayers.hasChain_congr fun _ _ => mem_pre_iff hw.nodup hp

theorem requires_pre (hw : byId.WellFormed) (hp : byId.Perm actions) :
    Requires byId.pre = Requires (prerequisitesOf actions) :=
  requires_congr fun _ _ => mem_pre_iff hw.nodup hp

/-- **The builder succeeds exactly on named actions without a cycle.** -/
theorem build_ok_iff : (∃ graph, buildRepairActionGraph actions = some (.ok graph))
    ↔ Named actions ∧ Acyclic actions := by
  constructor
  · rintro ⟨graph, hb⟩
    have hn := named_of_build hb nofun
    refine ⟨hn, fun id hc => ?_⟩
    obtain ⟨byId, r, hp, hw, ho, hb'⟩ := hn.build
    rw [hb] at hb'
    cases r with
    | error error => cases hb'
    | ok ls =>
      refine ho.2 id ((mem_ids_iff hp).mpr (mem_ids_of_onCycle hc)) ?_
      rw [hasChain_pre_iff hw hp]
      exact KahnLayers.hasChain_of_cycle .refl hc _
  · rintro ⟨hn, ha⟩
    obtain ⟨byId, r, hp, hw, ho, hb⟩ := hn.build
    cases r with
    | ok ls => exact ⟨byId.graph ls, hb⟩
    | error error =>
      obtain ⟨cs, hm, -, hu, -⟩ := ho
      obtain ⟨c, -, hc⟩ := KahnLayers.exists_cycle_of_unbounded hw.closed hm hu
      rw [OnCycle, requires_pre hw hp] at hc
      exact absurd hc (ha c)

/-! ## The layers of a graph -/

/-- What the layers of actions are. -/
structure LayeredGraph (actions : List RepairAction) (graph : Graph) : Prop where
  partition : graph.parallelizableGroups.flatten.Perm (actions.map RepairAction.id)
  longest : ∀ k layer, graph.parallelizableGroups[k]? = some layer → ∀ id ∈ layer,
    HasChain (prerequisitesOf actions) id k ∧ ∀ j, HasChain (prerequisitesOf actions) id j → j ≤ k
  sorted : ∀ layer ∈ graph.parallelizableGroups, layer.Pairwise fun x y =>
    ∀ a ∈ actions, ∀ b ∈ actions, a.id = x → b.id = y →
      a.priority.sortKey < b.priority.sortKey
        ∨ a.priority.sortKey = b.priority.sortKey ∧ strCmp x y = .lt
  ordered : ∀ before id after, graph.topologicallyOrderedExecution = before ++ id :: after →
    ∀ prereq ∈ prerequisitesOf actions id, prereq ∈ before

theorem Layered.nodup_flatten {ls : List (List String)} (h : Layered byId ls) :
    ls.flatten.Nodup := by
  rw [List.nodup_flatten]
  refine ⟨fun l hl => ?_, ?_⟩
  · exact BoundedInsert.StrictlySorted.nodup (h.sorted l hl)
  · rw [List.pairwise_iff_getElem]
    intro i j hi hj hlt id hid hidj
    have hin := ((h.mem i _ (List.getElem?_eq_getElem hi) id).mp hid).2
    have hinj := ((h.mem j _ (List.getElem?_eq_getElem hj) id).mp hidj).2
    exact absurd (hin.unique hinj) hlt.ne

/-- Every id whose chains end before the layers do is in one of them. -/
theorem Layered.mem_flatten {ls : List (List String)} (h : Layered byId ls)
    (he : ∀ id ∈ byId.ids, ¬ HasChain byId.pre id ls.length) :
    a ∈ ls.flatten ↔ a ∈ byId.ids := by
  rw [List.mem_flatten]
  constructor
  · rintro ⟨l, hl, ha⟩
    obtain ⟨k, hk⟩ := List.mem_iff_getElem?.mp hl
    exact ((h.mem k l hk a).mp ha).1
  · intro ha
    -- The longest chain is one shorter than the first that is missing.
    have hs : ∃ k, ¬ HasChain byId.pre a k := ⟨_, he a ha⟩
    classical
    cases hf : Nat.find hs with
    | zero =>
      have hn := Nat.find_spec hs
      rw [hf] at hn
      exact absurd (.zero a) hn
    | succ k =>
      have hn := Nat.find_spec hs
      rw [hf] at hn
      have hc : HasChain byId.pre a k := not_not.mp (Nat.find_min hs (by omega))
      have hle : k < ls.length := by
        refine not_le.mp fun hle => ?_
        exact he a ha (hc.mono hle)
      refine ⟨ls[k], List.getElem_mem hle, ?_⟩
      exact (h.mem k _ (List.getElem?_eq_getElem hle) a).mpr ⟨ha, hc, hn⟩

/-- In the flattened layers an action comes after its prerequisites. -/
theorem Layered.ordered {ls : List (List String)} (hw : byId.WellFormed)
    (h : Layered byId ls) (he : ∀ id ∈ byId.ids, ¬ HasChain byId.pre id ls.length)
    {be after : List String} (hs : ls.flatten = be ++ a :: after)
    (hb : b ∈ byId.pre a) : b ∈ be := by
  have ha : a ∈ byId.ids := (h.mem_flatten he).mp (by rw [hs]; simp)
  have hbi : b ∈ ls.flatten := (h.mem_flatten he).mpr (hw.closed a ha b hb)
  -- Elements of the flattened layers stand in the order of their layers.
  have ho : ls.flatten.Pairwise fun x y => ∀ i j,
      InLayer byId.pre x i → InLayer byId.pre y j → i ≤ j := by
    rw [List.pairwise_flatten]
    refine ⟨fun la hlay => ?_, ?_⟩
    · obtain ⟨k, hk⟩ := List.mem_iff_getElem?.mp hlay
      refine List.pairwise_of_forall_mem_list fun x hx y hy i j hi hj => ?_
      have hxk := ((h.mem k la hk x).mp hx).2
      have hyk := ((h.mem k la hk y).mp hy).2
      rw [hi.unique hxk, hj.unique hyk]
    · rw [List.pairwise_iff_getElem]
      intro k l hk hl hlt x hx y hy i j hi hj
      have hxk := ((h.mem k _ (List.getElem?_eq_getElem hk) x).mp hx).2
      have hyl := ((h.mem l _ (List.getElem?_eq_getElem hl) y).mp hy).2
      rw [hi.unique hxk, hj.unique hyl]
      exact hlt.le
  obtain ⟨al, hal, hain⟩ := List.mem_flatten.mp ((h.mem_flatten he).mpr ha)
  obtain ⟨i, hi⟩ := List.mem_iff_getElem?.mp hal
  have hai := ((h.mem i al hi a).mp hain).2
  obtain ⟨bl, hbl, hb'⟩ := List.mem_flatten.mp hbi
  obtain ⟨j, hj⟩ := List.mem_iff_getElem?.mp hbl
  have hbj := ((h.mem j bl hj b).mp hb').2
  have hlt := hai.lt_of_mem hbj hb
  rw [hs] at hbi ho
  rcases List.mem_append.mp hbi with hbe | haf
  · exact hbe
  · rcases List.mem_cons.mp haf with rfl | hla
    · exact absurd (hai.unique hbj) (by omega)
    · have hp := (List.pairwise_append.mp ho).2.1
      have hle := (List.pairwise_cons.mp hp).1 b hla i j hai hbj
      omega

/-- The rank of an action is that of its priority. -/
theorem rank_of_mem (hn : byId.ids.Nodup) {ac : RepairAction} (h : ac ∈ byId) :
    byId.rank ac.id = ac.priority.sortKey := by
  rw [ById.rank, get_of_mem hn h]
  rfl

/-- The graph of layers of actions by id. -/
theorem layeredGraph_graph {ls : List (List String)} (hw : byId.WellFormed)
    (hp : byId.Perm actions) (h : Layered byId ls)
    (he : ∀ id ∈ byId.ids, ¬ HasChain byId.pre id ls.length) :
    LayeredGraph actions (byId.graph ls) where
  partition := by
    have hi : (actions.map RepairAction.id).Nodup := (hp.map RepairAction.id).nodup_iff.mp hw.nodup
    refine (List.perm_ext_iff_of_nodup h.nodup_flatten hi).mpr fun id => ?_
    rw [← mem_ids_iff hp]
    exact h.mem_flatten he
  longest := by
    intro k l hl id hid
    have hin := KahnLayers.inLayer_iff.mp ((h.mem k l hl id).mp hid).2
    refine ⟨(hasChain_pre_iff hw hp).mp hin.1, fun j hj => ?_⟩
    exact hin.2 j ((hasChain_pre_iff hw hp).mpr hj)
  sorted := by
    intro l hl
    refine (h.sorted l hl).imp fun {x y} hlt a ha b hb hax hby => ?_
    subst hax hby
    rw [ById.layerCmp, rank_of_mem hw.nodup (hp.mem_iff.mpr ha),
      rank_of_mem hw.nodup (hp.mem_iff.mpr hb), Ordering.then_eq_lt, compare_lt_iff_lt,
      compare_eq_iff_eq] at hlt
    exact hlt
  ordered := by
    intro be id after hs p hpr
    exact h.ordered hw he hs ((mem_pre_iff hw.nodup hp).mpr hpr)

/-! ## The order of actions and of prerequisites -/

/-- An action without its list of prerequisites. -/
def RepairAction.bare (action : RepairAction) : RepairAction := { action with prerequisites := [] }

/-- Two actions that differ at most in the order and the repetition of their prerequisites. -/
def SamePrerequisites (a b : RepairAction) : Prop :=
  a.bare = b.bare ∧ ∀ prereq, prereq ∈ a.prerequisites ↔ prereq ∈ b.prerequisites

/-- Sorted maps of the same bare actions have the same bare actions in the same places. -/
theorem map_bare_eq {bi' : ById} (h : SortedById byId) (h' : SortedById bi')
    (hp : (byId.map RepairAction.bare).Perm (bi'.map RepairAction.bare)) :
    byId.map RepairAction.bare = bi'.map RepairAction.bare := by
  have hs : ∀ {byId : ById}, SortedById byId →
      (byId.map RepairAction.bare).Pairwise fun a b => strCmp a.id b.id = .lt :=
    fun h => List.pairwise_map.mpr h
  refine List.Perm.eq_of_pairwise ?_ (hs h) (hs h') hp
  intro a b _ _ hab hba
  rw [← Std.OrientedCmp.gt_iff_lt, hab] at hba
  cases hba

theorem get_map_bare (byId : ById) (id : String) :
    ById.get (byId.map RepairAction.bare) id = (byId.get id).map RepairAction.bare :=
  List.find?_map

/-- Ranks are those of the bare actions. -/
theorem rank_congr {bi' : ById}
    (h : byId.map RepairAction.bare = bi'.map RepairAction.bare) : byId.rank = bi'.rank := by
  have hb : ∀ byId : ById, byId.rank = ById.rank (byId.map RepairAction.bare) := by
    intro byId
    funext id
    rw [ById.rank, ById.rank, get_map_bare, Option.map_map]
    rfl
  rw [hb byId, hb bi', h]

/-- **Layers are determined** by the ids, the chains and the ranks. -/
theorem layered_unique {bi' : ById} {ls ls' : List (List String)}
    (hi : ∀ id, id ∈ byId.ids ↔ id ∈ bi'.ids) (hr : byId.rank = bi'.rank)
    (hc : ∀ id k, HasChain byId.pre id k ↔ HasChain bi'.pre id k)
    (h : Layered byId ls) (he : ∀ id ∈ byId.ids, ¬ HasChain byId.pre id ls.length)
    (h' : Layered bi' ls')
    (he' : ∀ id ∈ bi'.ids, ¬ HasChain bi'.pre id ls'.length) : ls = ls' := by
  have hcm : byId.layerCmp = bi'.layerCmp := by
    funext a b
    rw [ById.layerCmp, ById.layerCmp, hr]
  have hle : ls.length = ls'.length := by
    -- A layer after the end of the others would hold an action.
    refine le_antisymm (not_lt.mp fun hlt => ?_) (not_lt.mp fun hlt => ?_)
    · obtain ⟨id, hid⟩ := List.exists_mem_of_ne_nil _ (h.nonempty _ (List.getElem_mem hlt))
      obtain ⟨hin, hl⟩ := (h.mem _ _ (List.getElem?_eq_getElem hlt) id).mp hid
      exact he' id ((hi id).mp hin) ((hc id _).mp hl.1)
    · obtain ⟨id, hid⟩ := List.exists_mem_of_ne_nil _ (h'.nonempty _ (List.getElem_mem hlt))
      obtain ⟨hin, hl⟩ := (h'.mem _ _ (List.getElem?_eq_getElem hlt) id).mp hid
      exact he id ((hi id).mpr hin) ((hc id _).mpr hl.1)
  refine List.ext_getElem hle fun k hk hk' => ?_
  have hs' := h'.sorted _ (List.getElem_mem hk')
  rw [← hcm] at hs'
  refine BoundedInsert.StrictlySorted.eq_of_mem_iff (h.sorted _ (List.getElem_mem hk)) hs' ?_
  intro id
  rw [h.mem k _ (List.getElem?_eq_getElem hk), h'.mem k _ (List.getElem?_eq_getElem hk'), hi,
    InLayer, InLayer, hc, hc]

/-- Links depend only on which prerequisites there are. -/
theorem withLinks_congr {bi' : ById} (hn : byId.ids.Nodup) (hn' : bi'.ids.Nodup)
    (hp : ∀ a b, b ∈ byId.pre a ↔ b ∈ bi'.pre a) : byId.withLinks = bi'.withLinks := by
  funext action
  have hl : ((byId.adjacency action.id).insertionSort fun a b => strCmp a b ≠ .gt).destutter (· ≠ ·)
      = ((bi'.adjacency action.id).insertionSort
        fun a b => strCmp a b ≠ .gt).destutter (· ≠ ·) := by
    rw [ComparisonSort.destutter_insertionSort_eq_iff]
    intro c
    rw [mem_adjacency hn, mem_adjacency hn']
    exact hp c action.id
  rw [ById.withLinks, ById.withLinks, hl]

theorem bare_withLinks (byId : ById) (ac : RepairAction) :
    (byId.withLinks ac).bare = byId.withLinks ac.bare := by
  by_cases he : ac.expectedOutcome.preconditionsForNextActions = []
  · rw [ById.withLinks, if_pos he, ById.withLinks,
      if_pos (show ac.bare.expectedOutcome.preconditionsForNextActions = [] from he)]
    rfl
  · rw [ById.withLinks, if_neg he, ById.withLinks,
      if_neg (show ¬ ac.bare.expectedOutcome.preconditionsForNextActions = [] from he)]

theorem id_withLinks (byId : ById) (ac : RepairAction) : (byId.withLinks ac).id = ac.id := by
  rw [ById.withLinks]
  split
  · rfl
  · rfl

/-- The actions of the graph are in the order of the map. -/
theorem graph_actions (h : SortedById byId) (ls : List (List String)) :
    (byId.graph ls).actions = byId.map byId.withLinks := by
  refine List.Pairwise.insertionSort_eq ?_
  rw [List.pairwise_map]
  refine h.imp fun {a b} hlt => ?_
  rw [id_withLinks, id_withLinks, hlt]
  exact nofun

/-- Two graphs that differ at most in the prerequisites as they were given. -/
def SameGraph (graph graph' : Graph) : Prop :=
  graph' = { graph with actions := graph'.actions }
    ∧ graph'.actions.map RepairAction.bare = graph.actions.map RepairAction.bare

theorem sameGraph_graph {bi' : ById} {ls ls' : List (List String)}
    (hw : byId.WellFormed) (hw' : bi'.WellFormed)
    (hb : byId.map RepairAction.bare = bi'.map RepairAction.bare)
    (hp : ∀ a b, b ∈ byId.pre a ↔ b ∈ bi'.pre a)
    (h : Layered byId ls) (he : ∀ id ∈ byId.ids, ¬ HasChain byId.pre id ls.length)
    (h' : Layered bi' ls')
    (he' : ∀ id ∈ bi'.ids, ¬ HasChain bi'.pre id ls'.length) :
    SameGraph (byId.graph ls) (bi'.graph ls') := by
  have hi : byId.ids = bi'.ids := by
    have hm := congrArg (List.map RepairAction.id) hb
    rw [List.map_map, List.map_map] at hm
    exact hm
  have hl : ls = ls' := layered_unique (fun id => by rw [hi]) (rank_congr hb)
      (fun id k => KahnLayers.hasChain_congr hp) h he h' he'
  have ha : (bi'.graph ls').actions.map RepairAction.bare
      = (byId.graph ls).actions.map RepairAction.bare := by
    rw [graph_actions hw.sorted, graph_actions hw'.sorted,
      withLinks_congr hw'.nodup hw.nodup fun a b => (hp a b).symm, List.map_map,
      List.map_map]
    calc bi'.map (RepairAction.bare ∘ byId.withLinks)
        = (bi'.map RepairAction.bare).map byId.withLinks := by
          rw [List.map_map]
          exact List.map_congr_left fun ac _ => bare_withLinks byId ac
      _ = (byId.map RepairAction.bare).map byId.withLinks := by rw [hb]
      _ = byId.map (RepairAction.bare ∘ byId.withLinks) := by
          rw [List.map_map]
          exact (List.map_congr_left fun ac _ => bare_withLinks byId ac).symm
  refine ⟨?_, ha⟩
  have hd : ∀ l : List RepairAction, l.map RepairAction.estimatedDurationSeconds
      = (l.map RepairAction.bare).map RepairAction.estimatedDurationSeconds := by
    intro l
    rw [List.map_map]
    rfl
  have ht : (bi'.graph ls').estimatedTotalDurationSeconds
      = (byId.graph ls).estimatedTotalDurationSeconds := by
    show ((bi'.graph ls').actions.map _).sum = ((byId.graph ls).actions.map _).sum
    rw [hd, ha, ← hd]
  subst hl
  show Graph.mk _ _ _ _ (bi'.graph ls).estimatedTotalDurationSeconds = _
  rw [ht]
  rfl

/-- The graph that is built is the one of the layers of the actions. -/
theorem layers_of_build {graph : Graph} (h : buildRepairActionGraph actions = some (.ok graph)) :
    ∃ byId ls, byId.Perm actions ∧ byId.WellFormed ∧ Layered byId ls
      ∧ (∀ id ∈ byId.ids, ¬ HasChain byId.pre id ls.length) ∧ graph = byId.graph ls := by
  obtain ⟨byId, r, hp, hw, ho, hb⟩ := (named_of_build h nofun).build
  rw [h] at hb
  cases r with
  | error error => cases hb
  | ok ls => exact ⟨byId, ls, hp, hw, ho.1, ho.2, by cases hb; rfl⟩

/-- Names and cycles depend only on ids and on which prerequisites there are. -/
theorem named_acyclic_congr (hi : (actions.map RepairAction.id).Perm (actions'.map RepairAction.id))
    (hpr : ∀ a b, b ∈ prerequisitesOf actions a ↔ b ∈ prerequisitesOf actions' a)
    (h : Named actions ∧ Acyclic actions) : Named actions' ∧ Acyclic actions' := by
  obtain ⟨hn, ha⟩ := h
  refine ⟨⟨hi.nodup_iff.mp hn.unique, fun ac hm p hp => ?_⟩, fun id => ?_⟩
  · have hol := (hpr ac.id p).mpr (mem_prerequisitesOf.mpr ⟨ac, hm, rfl, hp⟩)
    obtain ⟨other, ho, -, hin⟩ := mem_prerequisitesOf.mp hol
    exact hi.mem_iff.mp (hn.known other ho p hin)
  · rw [OnCycle, ← requires_congr hpr]
    exact ha id

/-- The same bare actions with the same prerequisites build the same graph. -/
theorem build_congr {graph : Graph}
    (hb : (actions.map RepairAction.bare).Perm (actions'.map RepairAction.bare))
    (hpr : ∀ a b, b ∈ prerequisitesOf actions a ↔ b ∈ prerequisitesOf actions' a)
    (h : buildRepairActionGraph actions = some (.ok graph)) :
    ∃ g', buildRepairActionGraph actions' = some (.ok g') ∧ SameGraph graph g' := by
  have hi : (actions.map RepairAction.id).Perm (actions'.map RepairAction.id) := by
    have hm := hb.map RepairAction.id
    rw [List.map_map, List.map_map] at hm
    exact hm
  obtain ⟨g', h'⟩ := build_ok_iff.mpr (named_acyclic_congr hi hpr (build_ok_iff.mp ⟨graph, h⟩))
  refine ⟨g', h', ?_⟩
  obtain ⟨byId, ls, hp, hw, hl, he, rfl⟩ := layers_of_build h
  obtain ⟨bi', ls', hp', hw', hl', he', rfl⟩ := layers_of_build h'
  have hm : byId.map RepairAction.bare = bi'.map RepairAction.bare :=
    map_bare_eq hw.sorted hw'.sorted (((hp.map _).trans hb).trans (hp'.map _).symm)
  have hs : ∀ a b, b ∈ byId.pre a ↔ b ∈ bi'.pre a := by
    intro a b
    rw [mem_pre_iff hw.nodup hp, mem_pre_iff hw'.nodup hp']
    exact hpr a b
  exact sameGraph_graph hw hw' hm hs hl he hl' he'

/-- A permutation of the actions builds the same graph. -/
theorem build_perm {graph : Graph} (hp : actions.Perm actions')
    (h : buildRepairActionGraph actions = some (.ok graph)) :
    buildRepairActionGraph actions' = some (.ok graph) := by
  have hpr : ∀ a b, b ∈ prerequisitesOf actions a ↔ b ∈ prerequisitesOf actions' a := by
    intro a b
    rw [mem_prerequisitesOf, mem_prerequisitesOf]
    simp only [hp.mem_iff]
  obtain ⟨g', h', hs, -⟩ := build_congr (hp.map _) hpr h
  obtain ⟨byId, ls, hb, hw, -, -, rfl⟩ := layers_of_build h
  obtain ⟨bi', ls', hb', hw', -, -, rfl⟩ := layers_of_build h'
  have hm : byId = bi' := by
    refine List.Perm.eq_of_pairwise ?_ hw.sorted hw'.sorted ((hb.trans hp).trans hb'.symm)
    intro a b _ _ hab hba
    rw [← Std.OrientedCmp.gt_iff_lt, hab] at hba
    cases hba
  subst hm
  have hl : ls' = ls := congrArg Graph.parallelizableGroups hs
  rw [h', hl]

/-- The same actions up to the order and the repetition of prerequisites. -/
theorem mem_prerequisitesOf_of_same (h : List.Forall₂ SamePrerequisites actions actions') :
    b ∈ prerequisitesOf actions a ↔ b ∈ prerequisitesOf actions' a := by
  induction h with
  | nil => rfl
  | @cons ac a' actions actions' hh _ ih =>
    have hid : ac.bare.id = a'.bare.id := by rw [hh.1]
    change ac.id = a'.id at hid
    rw [mem_prerequisitesOf] at ih ⊢
    rw [mem_prerequisitesOf] at ih ⊢
    simp only [List.mem_cons, exists_eq_or_imp, hid, hh.2 b, ih]

theorem map_bare_of_same (h : List.Forall₂ SamePrerequisites actions actions') :
    actions.map RepairAction.bare = actions'.map RepairAction.bare := by
  induction h with
  | nil => rfl
  | cons hh _ ih => exact congrArg₂ List.cons hh.1 ih

end

/-- **Repair actions are layered by their longest chains of prerequisites.**  The builder succeeds
exactly when ids are unique, prerequisites are known and there is no cycle.  A permutation of the
actions builds the same graph; another order or repetition of prerequisites builds a graph that
differs only in the lists of prerequisites as they were given. -/
theorem repair_actions_layered (actions : List RepairAction) :
    ((∃ graph, buildRepairActionGraph actions = some (.ok graph)) ↔ Named actions ∧ Acyclic actions)
    ∧ ∀ graph, buildRepairActionGraph actions = some (.ok graph) → LayeredGraph actions graph
      ∧ (∀ actions', actions.Perm actions' → buildRepairActionGraph actions' = some (.ok graph))
      ∧ ∀ actions', List.Forall₂ SamePrerequisites actions actions' →
        ∃ graph', buildRepairActionGraph actions' = some (.ok graph') ∧ SameGraph graph graph' := by
  refine ⟨build_ok_iff, fun graph h => ⟨?_, fun actions' hp => ?_, fun actions' hs => ?_⟩⟩
  · obtain ⟨byId, ls, hp, hw, hl, he, rfl⟩ := layers_of_build h
    exact layeredGraph_graph hw hp hl he
  · exact build_perm hp h
  · refine build_congr (List.Perm.of_eq (map_bare_of_same hs)) ?_ h
    exact fun a b => mem_prerequisitesOf_of_same hs

/-- An action of an id with prerequisites. -/
def sampleAction (id : String) (prerequisites : List String) : RepairAction :=
  { id := id
    kind := .eeSubcommand
    command := "ee mesh doctor"
    humanReadable := "Check the mesh"
    prerequisites := prerequisites
    expectedOutcome := ⟨[], []⟩
    priority := .medium
    estimatedDurationSeconds := 5
    reversible := false
    reversalCommand := none
    requiresUserConfirmation := false
    executionContext := .eeSubcommand }

/-- Prerequisites in another order are returned in that order. -/
theorem reordered_prerequisites_are_returned :
    ¬ ∀ actions actions' : List RepairAction, List.Forall₂ SamePrerequisites actions actions' →
      buildRepairActionGraph actions' = buildRepairActionGraph actions := by
  intro h
  have hs : List.Forall₂ SamePrerequisites
      [sampleAction "a" ["b", "c"], sampleAction "b" [], sampleAction "c" []]
      [sampleAction "a" ["c", "b"], sampleAction "b" [], sampleAction "c" []] := by
    refine .cons ⟨rfl, fun p => ?_⟩ (.cons ⟨rfl, fun _ => .rfl⟩ (.cons ⟨rfl, fun _ => .rfl⟩ .nil))
    simp [sampleAction, or_comm]
  exact absurd (h _ _ hs) (by decide +kernel)

/-! ## The action that a cycle error names -/

/-- From the action a cycle can be reached. -/
def LeadsToCycle (actions : List RepairAction) (id : String) : Prop :=
  ∃ c, Relation.ReflTransGen (Requires (prerequisitesOf actions)) id c
    ∧ OnCycle (prerequisitesOf actions) c

/-- The first id of the actions that lead to a cycle. -/
def FirstToCycle (actions : List RepairAction) (id : String) : Prop :=
  LeadsToCycle actions id
    ∧ ∀ other ∈ actions.map RepairAction.id, LeadsToCycle actions other → strCmp id other ≠ .gt

/-- **A cycle error names the first action that leads to a cycle.** -/
theorem firstToCycle_of_error {actions : List RepairAction} {cs : String}
    (h : buildRepairActionGraph actions = some (.error (.dependencyCycle cs))) :
    cs ∈ actions.map RepairAction.id ∧ FirstToCycle actions cs := by
  have hn : Named actions := by
    refine named_of_build h fun error he => ⟨cs, ?_⟩
    cases he
    rfl
  obtain ⟨byId, r, hp, hw, ho, hb⟩ := hn.build
  rw [h] at hb
  cases r with
  | ok ls => cases hb
  | error error =>
    cases hb
    obtain ⟨first, hm, he, hu, hle⟩ := ho
    cases he
    have hl : ∀ id ∈ byId.ids, (∀ j, HasChain byId.pre id j) ↔ LeadsToCycle actions id := by
      intro id hid
      rw [KahnLayers.unbounded_iff hw.closed hid, LeadsToCycle]
      simp only [OnCycle, requires_pre hw hp]
    refine ⟨(mem_ids_iff hp).mp hm, (hl _ hm).mp hu, ?_⟩
    intro other hot hc
    have hin := (mem_ids_iff hp).mpr hot
    exact hle other hin ((hl other hin).mpr hc)

/-- **The action that a cycle error names lies on a cycle** exactly when the first action, by id,
of those that lead to a cycle does. -/
theorem reported_cycle_is_real_iff {actions : List RepairAction} {contains : String}
    (h : buildRepairActionGraph actions = some (.error (.dependencyCycle contains))) :
    OnCycle (prerequisitesOf actions) contains
      ↔ ∃ first ∈ actions.map RepairAction.id, FirstToCycle actions first
        ∧ OnCycle (prerequisitesOf actions) first := by
  obtain ⟨hm, hf⟩ := firstToCycle_of_error h
  constructor
  · intro hc
    exact ⟨contains, hm, hf, hc⟩
  · rintro ⟨first, hin, hf', hc⟩
    -- There is one first id.
    have heq : strCmp contains first = .eq := ComparisonSort.eq_of_ne_gt (hf.2 first hin hf'.1)
        (hf'.2 contains hm hf.1)
    rw [Std.LawfulEqCmp.eq_of_compare heq]
    exact hc

/-- Two actions that need each other. -/
theorem reported_cycle_is_real_iff_sample :
    buildRepairActionGraph [sampleAction "a" ["b"], sampleAction "b" ["a"]]
        = some (.error (.dependencyCycle "a"))
      ∧ OnCycle (prerequisitesOf [sampleAction "a" ["b"], sampleAction "b" ["a"]]) "a" := by
  have hb : buildRepairActionGraph [sampleAction "a" ["b"], sampleAction "b" ["a"]]
      = some (.error (.dependencyCycle "a")) := by decide +kernel
  refine ⟨hb, (reported_cycle_is_real_iff hb).mpr ⟨"a", by decide, ?_⟩⟩
  have hab : Requires (prerequisitesOf [sampleAction "a" ["b"], sampleAction "b" ["a"]]) "a" "b" :=
    show "b" ∈ prerequisitesOf _ "a" by decide
  have hba : Requires (prerequisitesOf [sampleAction "a" ["b"], sampleAction "b" ["a"]]) "b" "a" :=
    show "a" ∈ prerequisitesOf _ "b" by decide
  have hc : OnCycle (prerequisitesOf [sampleAction "a" ["b"], sampleAction "b" ["a"]]) "a" :=
    .tail (.single hab) hba
  refine ⟨⟨⟨"a", .refl, hc⟩, fun other ho _ => ?_⟩, hc⟩
  have hca : other = "a" ∨ other = "b" := by simpa [sampleAction] using ho
  rcases hca with rfl | rfl
  · decide
  · decide

/-- An action that only waits for a cycle is named when its id comes first. -/
theorem cycle_error_names_a_waiting_action : ¬ ∀ (actions : List RepairAction) (contains : String),
      buildRepairActionGraph actions = some (.error (.dependencyCycle contains)) →
      OnCycle (prerequisitesOf actions) contains := by
  intro h
  have hc := h [sampleAction "a" ["b"], sampleAction "b" ["c"], sampleAction "c" ["b"]] "a"
    (by decide +kernel)
  -- No action names `a`.
  obtain ⟨b, -, hs⟩ := Relation.TransGen.tail'_iff.mp hc
  obtain ⟨ac, hm, -, hin⟩ := mem_prerequisitesOf.mp hs
  have hn : ∀ ac ∈ [sampleAction "a" ["b"], sampleAction "b" ["c"], sampleAction "c" ["b"]],
      "a" ∉ ac.prerequisites := by decide
  exact hn ac hm hin

end RepairActionGraph
