/-
# Layers of repair actions

After `k` rounds the actions that are placed are those without a chain of `k` prerequisites, and
the counters are the numbers of prerequisites that are not placed.  So the actions that a round
places are those whose longest chain has length `k`, and a round that places none leaves only
actions from which a cycle can be reached.
-/
import EideticEngine.RepairActionGraph

namespace RepairActionGraph

open KahnLayers (HasChain InLayer OnCycle Requires)
open RustText (strCmp)

/-! ## Actions by id -/

/-- The prerequisites of an id. -/
def ById.pre (byId : ById) (id : String) : List String :=
  ((byId.get id).map RepairAction.prerequisites).getD []

/-- In the order of the ids, each once, and all prerequisites known. -/
structure ById.WellFormed (byId : ById) : Prop where
  sorted : byId.Pairwise fun a b => strCmp a.id b.id = .lt
  known : ∀ action ∈ byId, ∀ prereq ∈ action.prerequisites, prereq ∈ byId.ids

section

variable {byId : ById} {id child : String}

theorem ById.WellFormed.sortedIds (h : byId.WellFormed) :
    byId.ids.Pairwise fun a b => strCmp a b = .lt :=
  List.pairwise_map.mpr h.sorted

theorem nodup_of_pairwise_lt {l : List String} (h : l.Pairwise fun a b => strCmp a b = .lt) :
    l.Nodup := by
  refine h.imp fun {a b} hlt heq => ?_
  have hs : strCmp a a = .eq := Std.ReflCmp.compare_self
  rw [← heq, hs] at hlt
  cases hlt

theorem ById.WellFormed.nodup (h : byId.WellFormed) : byId.ids.Nodup :=
  nodup_of_pairwise_lt h.sortedIds

theorem get_cons (a : RepairAction) (byId : ById) (id : String) :
    ById.get (a :: byId) id = if a.id = id then some a else byId.get id := by
  rw [ById.get, List.find?_cons]
  by_cases heq : a.id = id
  · simp [heq]
  · simp only [heq, decide_false, if_false]
    rfl

theorem pre_cons (a : RepairAction) (byId : ById) (id : String) : ById.pre (a :: byId) id
      = if a.id = id then a.prerequisites else byId.pre id := by
  rw [ById.pre, get_cons]
  split
  · rfl
  · rfl

theorem get_of_mem (hn : byId.ids.Nodup) {a : RepairAction} (h : a ∈ byId) :
    byId.get a.id = some a := by
  induction byId with
  | nil => cases h
  | cons first byId ih =>
    obtain ⟨hf, hr⟩ := List.nodup_cons.mp hn
    rw [get_cons]
    rcases List.mem_cons.mp h with rfl | hm
    · exact if_pos rfl
    · have hne : first.id ≠ a.id := by
        intro heq
        exact hf (by rw [heq]; exact List.mem_map_of_mem hm)
      rw [if_neg hne, ih hr hm]

theorem pre_of_mem (hn : byId.ids.Nodup) {a : RepairAction} (h : a ∈ byId) :
    byId.pre a.id = a.prerequisites := by
  rw [ById.pre, get_of_mem hn h]
  rfl

theorem pre_of_not_mem (h : id ∉ byId.ids) : byId.pre id = [] := by
  have hn : byId.get id = none := by
    rw [ById.get, List.find?_eq_none]
    intro a hm heq
    exact h (of_decide_eq_true heq ▸ List.mem_map_of_mem hm)
  rw [ById.pre, hn]
  rfl

theorem ById.WellFormed.closed (h : byId.WellFormed) :
    ∀ a ∈ byId.ids, ∀ b ∈ byId.pre a, b ∈ byId.ids := by
  intro a ha b hb
  obtain ⟨ac, hm, rfl⟩ := List.mem_map.mp ha
  rw [pre_of_mem h.nodup hm] at hb
  exact h.known ac hm b hb

/-- An action is a child as often as it names the id. -/
theorem count_adjacency (hn : byId.ids.Nodup) (id child : String) :
    (byId.adjacency id).count child = (byId.pre child).count id := by
  induction byId with
  | nil => rfl
  | cons a byId ih =>
    obtain ⟨hf, hr⟩ := List.nodup_cons.mp hn
    have hs : ById.adjacency (a :: byId) id = (a.prerequisites.filter (· = id)).map (fun _ => a.id)
          ++ ById.adjacency byId id :=
      List.flatMap_cons
    rw [hs, List.count_append, ih hr, pre_cons, List.map_const']
    by_cases heq : a.id = child
    · subst heq
      rw [if_pos rfl, pre_of_not_mem hf, List.count_replicate_self, List.count_nil,
        Nat.add_zero, List.count_eq_length_filter]
      congr 2
    · rw [if_neg heq, List.count_replicate, if_neg (by simpa using heq), Nat.zero_add]

theorem mem_adjacency (hn : byId.ids.Nodup) : child ∈ byId.adjacency id ↔ id ∈ byId.pre child := by
  rw [← List.count_pos_iff, count_adjacency hn, List.count_pos_iff]

end

/-! ## Counters -/

section

variable {byId : ById} {placed : Finset String} {inDegree : String → ℕ} {id : String}

/-- Counting down a list of children. -/
theorem foldl_countDown (ch : List String) (inDegree : String → ℕ) (c : String) :
    ch.foldl countDown inDegree c = inDegree c - ch.count c := by
  induction ch generalizing inDegree with
  | nil => rfl
  | cons child ch ih =>
    rw [List.foldl_cons, ih, List.count_cons, countDown]
    by_cases heq : child = c
    · subst heq
      split
      · rw [Function.update_self, if_pos (beq_self_eq_true child)]
        omega
      · rw [if_pos (beq_self_eq_true child)]
        omega
    · simp only [beq_false_of_ne heq, Bool.false_eq_true, if_false, Nat.add_zero]
      split
      · rw [Function.update_of_ne (Ne.symm heq)]
      · rfl

/-- The counter of an action is the number of its prerequisites that are not placed. -/
def Counted (byId : ById) (state : Finset String × (String → ℕ)) : Prop :=
  ∀ c, state.2 c = (byId.pre c).countP (· ∉ state.1)

theorem countP_not_mem_insert (h : id ∉ placed) (l : List String) :
    l.countP (· ∉ insert id placed) + l.count id = l.countP (· ∉ placed) := by
  induction l with
  | nil => rfl
  | cons c l ih =>
    rw [List.countP_cons, List.countP_cons, List.count_cons, ← ih]
    by_cases heq : c = id
    · subst heq
      simp only [Finset.mem_insert, true_or, not_true_eq_false, decide_false,
        Bool.false_eq_true, if_false, h, not_false_eq_true, decide_true, if_true, beq_self_eq_true]
      omega
    · simp only [Finset.mem_insert, heq, false_or, beq_iff_eq, if_false]
      omega

/-- Placing an action keeps the counters. -/
theorem Counted.place (hn : byId.ids.Nodup) (h : Counted byId (placed, inDegree))
    (hne : id ∉ placed) : Counted byId (RepairActionGraph.place byId (placed, inDegree) id) := by
  intro c
  have hco := countP_not_mem_insert hne (byId.pre c)
  have hc := h c
  dsimp only [RepairActionGraph.place] at hc ⊢
  rw [foldl_countDown, count_adjacency hn, hc, ← hco, Nat.add_sub_cancel]
  rfl

/-- Placing a layer. -/
theorem foldl_place (hno : byId.ids.Nodup) {l : List String} (hl : l.Nodup)
    (h : Counted byId (placed, inDegree)) (hn : ∀ id ∈ l, id ∉ placed) :
    (l.foldl (place byId) (placed, inDegree)).1 = placed ∪ l.toFinset
      ∧ Counted byId (l.foldl (place byId) (placed, inDegree)) := by
  induction l generalizing placed inDegree with
  | nil => exact ⟨(Finset.union_empty placed).symm, h⟩
  | cons id l ih =>
    obtain ⟨hf, hr⟩ := List.nodup_cons.mp hl
    have hid := hn id List.mem_cons_self
    have hne : ∀ other ∈ l, other ∉ insert id placed := by
      intro other ho hm
      rcases Finset.mem_insert.mp hm with rfl | hol
      · exact hf ho
      · exact hn other (List.mem_cons_of_mem _ ho) hol
    obtain ⟨hp, hc⟩ := ih hr (h.place hno hid) hne
    refine ⟨hp.trans ?_, hc⟩
    rw [List.toFinset_cons, Finset.union_insert, Finset.insert_union]

end

/-! ## Rounds -/

section

variable {byId : ById} {placed : Finset String} {inDegree : String → ℕ}
  {layers : List (List String)} {k : ℕ}

/-- After `k` rounds the actions without a chain of `k` prerequisites are placed. -/
structure RoundInv (byId : ById) (k : ℕ) (state : Finset String × (String → ℕ)) : Prop where
  counted : Counted byId state
  placed : ∀ id, id ∈ state.1 ↔ id ∈ byId.ids ∧ ¬ HasChain byId.pre id k

/-- The layers so far: each has the actions of its number, in their order. -/
structure Layered (byId : ById) (layers : List (List String)) : Prop where
  mem : ∀ j layer, layers[j]? = some layer →
    ∀ id, id ∈ layer ↔ id ∈ byId.ids ∧ InLayer byId.pre id j
  sorted : ∀ layer ∈ layers, layer.Pairwise fun a b => byId.layerCmp a b = .lt
  nonempty : ∀ layer ∈ layers, layer ≠ []

/-- Before the first layer nothing is emitted. -/
theorem RoundInv.initial (byId : ById) : RoundInv byId 0 (∅, byId.inDegree) where
  counted := by
    intro c
    have ha : (byId.pre c).countP (fun p => decide (p ∉ (∅ : Finset String)))
        = (byId.pre c).length := by
      rw [List.countP_eq_length]
      exact fun p _ => decide_eq_true (Finset.notMem_empty p)
    refine Eq.trans ?_ ha.symm
    dsimp only [ById.inDegree, ById.pre]
    cases byId.get c with
    | none => rfl
    | some a => rfl
  placed := by
    intro id
    exact ⟨fun h => absurd h (Finset.notMem_empty id), fun h => absurd (.zero id) h.2⟩

/-- **A round takes the actions of its layer.** -/
theorem RoundInv.mem_current (hw : byId.WellFormed) (h : RoundInv byId k (placed, inDegree))
    (id : String) :
    id ∈ byId.ids.filter (fun id => inDegree id = 0 ∧ id ∉ placed)
      ↔ id ∈ byId.ids ∧ InLayer byId.pre id k := by
  rw [List.mem_filter, decide_eq_true_eq]
  refine and_congr_right fun hid => ?_
  have hz : inDegree id = 0 ↔ ¬ HasChain byId.pre id (k + 1) := by
    rw [show inDegree id = _ from h.counted id, List.countP_eq_zero, KahnLayers.hasChain_succ_iff]
    constructor
    · rintro ha ⟨p, hp, hc⟩
      have hin := not_not.mp fun hn => ha p hp (decide_eq_true hn)
      exact ((h.placed p).mp hin).2 hc
    · intro hno p hp hn
      refine of_decide_eq_true hn ((h.placed p).mpr ⟨hw.closed id hid p hp, ?_⟩)
      exact fun hc => hno ⟨p, hp, hc⟩
  have hpl : id ∉ placed ↔ HasChain byId.pre id k := by
    rw [show id ∈ placed ↔ _ from h.placed id]
    constructor
    · exact fun hn => not_not.mp fun hc => hn ⟨hid, hc⟩
    · exact fun hc hb => hb.2 hc
  rw [hz, hpl]
  exact and_comm

instance (byId : ById) : Std.TransCmp byId.layerCmp := by
  have hrank : Std.TransCmp fun a b => compare (byId.rank a) (byId.rank b) :=
    @ComparisonSort.transCmp_on String ℕ compare _ byId.rank
  exact inferInstanceAs (Std.TransCmp (compareLex (fun a b => compare (byId.rank a) (byId.rank b))
    strCmp))

instance (byId : ById) : Std.LawfulEqCmp byId.layerCmp where
  compare_self := by
    intro a
    rw [ById.layerCmp, Std.ReflOrd.compare_self, Ordering.then_eq_eq]
    exact ⟨rfl, Std.ReflCmp.compare_self⟩
  eq_of_compare := by
    intro a b h
    exact Std.LawfulEqCmp.eq_of_compare (Ordering.then_eq_eq.mp h).2

/-- A sorted layer is strictly sorted. -/
theorem pairwise_sortedLayer {l : List String} (h : l.Nodup) :
    (l.insertionSort fun a b => byId.layerCmp a b ≠ .gt).Pairwise
      fun a b => byId.layerCmp a b = .lt := by
  have hle := List.pairwise_insertionSort (fun a b => byId.layerCmp a b ≠ .gt) l
  have hne := (List.perm_insertionSort (fun a b => byId.layerCmp a b ≠ .gt) l).nodup_iff.mpr h
  refine (hle.and hne).imp fun {a b} hab => ?_
  cases hc : byId.layerCmp a b with
  | lt => rfl
  | eq => exact absurd (Std.LawfulEqCmp.eq_of_compare hc) hab.2
  | gt => exact absurd hc hab.1

theorem Layered.snoc {l : List String} (h : Layered byId layers)
    (hm : ∀ id, id ∈ l ↔ id ∈ byId.ids ∧ InLayer byId.pre id layers.length)
    (hs : l.Pairwise fun a b => byId.layerCmp a b = .lt) (hne : l ≠ []) :
    Layered byId (layers ++ [l]) where
  mem := by
    intro j other ho
    rw [List.getElem?_append] at ho
    split at ho
    · exact h.mem j other ho
    · rename_i hl
      rw [List.getElem?_singleton] at ho
      split at ho
      · rename_i hj
        obtain rfl : j = layers.length := by omega
        cases ho
        exact hm
      · cases ho
  sorted := by
    intro other ho
    rcases List.mem_append.mp ho with hol | hn
    · exact h.sorted other hol
    · rw [List.mem_singleton.mp hn]
      exact hs
  nonempty := by
    intro other ho
    rcases List.mem_append.mp ho with hol | hn
    · exact h.nonempty other hol
    · rw [List.mem_singleton.mp hn]
      exact hne

/-- The next round. -/
theorem RoundInv.next (hw : byId.WellFormed) (h : RoundInv byId k (placed, inDegree))
    {l : List String} (hno : l.Nodup)
    (hm : ∀ id, id ∈ l ↔ id ∈ byId.ids ∧ InLayer byId.pre id k) :
    RoundInv byId (k + 1) (l.foldl (place byId) (placed, inDegree)) := by
  have hne : ∀ id ∈ l, id ∉ placed := by
    intro id hid hp
    exact ((h.placed id).mp hp).2 ((hm id).mp hid).2.1
  obtain ⟨hp, hco⟩ := foldl_place hw.nodup hno h.counted hne
  refine ⟨hco, fun id => ?_⟩
  rw [hp, Finset.mem_union, List.mem_toFinset, hm]
  constructor
  · rintro (ho | ⟨hid, hin⟩)
    · obtain ⟨hid, hn⟩ := (h.placed id).mp ho
      exact ⟨hid, fun hc => hn (hc.mono (Nat.le_succ k))⟩
    · exact ⟨hid, hin.2⟩
  · rintro ⟨hid, hn⟩
    by_cases hc : HasChain byId.pre id k
    · exact .inr ⟨hid, hc, hn⟩
    · exact .inl ((h.placed id).mpr ⟨hid, hc⟩)

/-- What the loop gives: all layers, or the first action from which chains do not end. -/
def Outcome (byId : ById) : Except RepairActionGraphError (List (List String)) → Prop
  | .ok layers => Layered byId layers ∧ ∀ id ∈ byId.ids, ¬ HasChain byId.pre id layers.length
  | .error error => ∃ contains ∈ byId.ids, error = .dependencyCycle contains
      ∧ (∀ j, HasChain byId.pre contains j)
      ∧ ∀ id ∈ byId.ids, (∀ j, HasChain byId.pre id j) → strCmp contains id ≠ .gt

/-- No more are placed than there are. -/
theorem RoundInv.card_le (hn : byId.ids.Nodup) (h : RoundInv byId k (placed, inDegree)) :
    placed.card ≤ byId.length := by
  have hs : placed ⊆ byId.ids.toFinset := by
    intro id hid
    exact List.mem_toFinset.mpr ((h.placed id).mp hid).1
  have hc := Finset.card_le_card hs
  rw [List.toFinset_card_of_nodup hn, ById.ids, List.length_map] at hc
  exact hc

/-- While one is left, fewer are placed than there are. -/
theorem RoundInv.card_lt (hn : byId.ids.Nodup) (h : RoundInv byId k (placed, inDegree))
    {id : String} (hid : id ∈ byId.ids) (hch : HasChain byId.pre id k) :
    placed.card < byId.length := by
  have hs : placed ⊂ byId.ids.toFinset := by
    refine Finset.ssubset_iff_subset_ne.mpr ⟨fun other ho => ?_, fun heq => ?_⟩
    · exact List.mem_toFinset.mpr ((h.placed other).mp ho).1
    · have hp : id ∈ placed := heq ▸ List.mem_toFinset.mpr hid
      exact ((h.placed id).mp hp).2 hch
  have hc := Finset.card_lt_card hs
  rw [List.toFinset_card_of_nodup hn, ById.ids, List.length_map] at hc
  exact hc

/-- While fewer are placed than there are, one is left. -/
theorem RoundInv.exists_left (hn : byId.ids.Nodup) (h : RoundInv byId k (placed, inDegree))
    (hl : placed.card < byId.length) : ∃ id ∈ byId.ids, HasChain byId.pre id k := by
  by_contra hnone
  have hs : byId.ids.toFinset ⊆ placed := by
    intro id hid
    rw [List.mem_toFinset] at hid
    exact (h.placed id).mpr ⟨hid, fun hc => hnone ⟨id, hid, hc⟩⟩
  have hca := Finset.card_le_card hs
  rw [List.toFinset_card_of_nodup hn, ById.ids, List.length_map] at hca
  omega

/-- The first element of a kind in a sorted list is the least of them. -/
theorem find?_least {l : List String} (hs : l.Pairwise fun a b => strCmp a b = .lt)
    {p : String → Bool} {first : String} (h : l.find? p = some first) :
    ∀ id ∈ l, p id = true → strCmp first id ≠ .gt := by
  induction l with
  | nil => cases h
  | cons x l ih =>
    obtain ⟨hx, hl⟩ := List.pairwise_cons.mp hs
    intro id hid hp
    rw [List.find?_cons] at h
    split at h
    · cases h
      rcases List.mem_cons.mp hid with rfl | hm
      · have hse : strCmp id id = .eq := Std.ReflCmp.compare_self
        rw [hse]
        exact nofun
      · rw [hx id hm]
        exact nofun
    · rename_i hn
      rcases List.mem_cons.mp hid with rfl | hm
      · rw [hp] at hn
        cases hn
      · exact ih hl h id hm hp

/-- A round that takes none names the first action that is left. -/
theorem RoundInv.stuck (hw : byId.WellFormed) (h : RoundInv byId k (placed, inDegree))
    (hle : placed.card < byId.length)
    (he : byId.ids.filter (fun id => inDegree id = 0 ∧ id ∉ placed) = []) :
    Outcome byId (.error (.dependencyCycle
      ((byId.ids.find? fun id => 0 < inDegree id ∧ id ∉ placed).getD "<unknown>"))) := by
  have hno : ∀ id ∈ byId.ids, ¬ InLayer byId.pre id k := by
    intro id hid hin
    have hm := (h.mem_current hw id).mpr ⟨hid, hin⟩
    rw [he] at hm
    cases hm
  have hl : ∀ id ∈ byId.ids, id ∉ placed ↔ HasChain byId.pre id k := by
    intro id hid
    rw [show id ∈ placed ↔ _ from h.placed id]
    constructor
    · exact fun hn => not_not.mp fun hc => hn ⟨hid, hc⟩
    · exact fun hc hb => hb.2 hc
  have hu : ∀ id ∈ byId.ids, id ∉ placed ↔ ∀ j, HasChain byId.pre id j := by
    intro id hid
    rw [hl id hid]
    constructor
    · exact KahnLayers.unbounded_of_no_layer hw.closed hno hid
    · exact fun ha => ha k
  have hp : ∀ id ∈ byId.ids, id ∉ placed → 0 < inDegree id := by
    intro id hid hn
    refine Nat.pos_of_ne_zero fun hz => ?_
    exact (List.filter_eq_nil_iff.mp he) id hid (decide_eq_true ⟨hz, hn⟩)
  obtain ⟨left, hin, hc⟩ := h.exists_left hw.nodup hle
  have ho := (hl left hin).mpr hc
  have hs : (byId.ids.find? fun id => 0 < inDegree id ∧ id ∉ placed).isSome := by
    rw [List.find?_isSome]
    exact ⟨left, hin, decide_eq_true ⟨hp left hin ho, ho⟩⟩
  obtain ⟨first, hf⟩ := Option.isSome_iff_exists.mp hs
  rw [hf, Option.getD_some]
  have hm := List.mem_of_find?_eq_some hf
  refine ⟨first, hm, rfl, ?_, ?_⟩
  · have hfo : 0 < inDegree first ∧ first ∉ placed := by simpa using List.find?_some hf
    exact (hu first hm).mp hfo.2
  · intro id hid ha
    have hn := (hu id hid).mpr ha
    exact find?_least hw.sortedIds hf id hid (decide_eq_true ⟨hp id hid hn, hn⟩)

/-- **The rounds end**, with all layers or at actions from which chains do not end. -/
theorem kahnRounds_outcome (hw : byId.WellFormed) {f : ℕ}
    (h : RoundInv byId layers.length (placed, inDegree)) (hl : Layered byId layers)
    (hfu : byId.length < f + placed.card) :
    ∃ r, kahnRounds byId f (placed, inDegree) layers = some r ∧ Outcome byId r := by
  induction f generalizing placed inDegree layers with
  | zero =>
    have hca := h.card_le hw.nodup
    omega
  | succ f ih =>
    rw [kahnRounds]
    split
    · rename_i hle
      dsimp only
      split
      · rename_i he
        exact ⟨_, rfl, h.stuck hw hle he⟩
      · rename_i hs
        have hn : (byId.ids.filter fun id => inDegree id = 0 ∧ id ∉ placed).Nodup :=
          hw.nodup.filter _
        have hp := List.perm_insertionSort (fun a b => byId.layerCmp a b ≠ .gt)
          (byId.ids.filter fun id => inDegree id = 0 ∧ id ∉ placed)
        have hme : ∀ id, id ∈ (byId.ids.filter fun id => inDegree id = 0
            ∧ id ∉ placed).insertionSort (fun a b => byId.layerCmp a b ≠ .gt)
            ↔ id ∈ byId.ids ∧ InLayer byId.pre id layers.length :=
          fun id => hp.mem_iff.trans (h.mem_current hw id)
        have hla := hp.nodup_iff.mpr hn
        have hne := h.next hw hla hme
        have hnew : ∀ id ∈ (byId.ids.filter fun id => inDegree id = 0 ∧ id ∉ placed).insertionSort
            (fun a b => byId.layerCmp a b ≠ .gt), id ∉ placed := by
          intro id hid hpl
          exact ((h.placed id).mp hpl).2 ((hme id).mp hid).2.1
        have hpl := (foldl_place hw.nodup hla h.counted hnew).1
        obtain ⟨id, hid⟩ := List.exists_mem_of_ne_nil _ hs
        -- The round places at least one more.
        have hm : placed.card < (placed ∪ ((byId.ids.filter fun id => inDegree id = 0
            ∧ id ∉ placed).insertionSort fun a b => byId.layerCmp a b ≠ .gt).toFinset).card := by
          refine Finset.card_lt_card (Finset.ssubset_iff_of_subset Finset.subset_union_left |>.mpr
            ⟨id, ?_, hnew id (hp.mem_iff.mpr hid)⟩)
          exact Finset.mem_union_right _ (List.mem_toFinset.mpr (hp.mem_iff.mpr hid))
        rw [← hpl] at hm
        generalize hst : List.foldl (place byId) (placed, inDegree)
          ((byId.ids.filter fun id => inDegree id = 0 ∧ id ∉ placed).insertionSort
            fun a b => byId.layerCmp a b ≠ .gt) = state at hne hm ⊢
        obtain ⟨p', id'⟩ := state
        have hno := List.ne_nil_of_mem (hp.mem_iff.mpr hid)
        refine ih ?_ (hl.snoc hme (pairwise_sortedLayer hn) hno) ?_
        · rw [List.length_append]
          exact hne
        · dsimp only at hm
          omega
    · rename_i hf
      exact ⟨_, rfl, hl, fun id hid hc => hf (h.card_lt hw.nodup hid hc)⟩

/-- The layers of actions by id. -/
theorem kahnLayers_outcome (hw : byId.WellFormed) :
    ∃ r, kahnLayers byId = some r ∧ Outcome byId r :=
  kahnRounds_outcome hw (RoundInv.initial byId) ⟨nofun, nofun, nofun⟩ (by omega)

end

end RepairActionGraph
