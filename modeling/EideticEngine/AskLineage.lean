/-
# Lineage groups

The groups of `source_support_groups` in `src/core/ask_native.rs` are the connected components
of the records under two kinds of links: a visible rule with the memories that it derives from,
and a record with the key of its provenance.  A group is named by its least string, also where
that string is no record.
-/
import EideticEngine.AskNative

namespace Ask

open RustText (strCmp)
open Provenance (ProvenanceUri)
open Std (ExtTreeMap)

variable (rules : AskRules) (records : List (String × Option String))
  (sources : ExtTreeMap String AskNativeSource strCmp)

/-! ## Links -/

/-- What joins a record with another record, a memory or a document. -/
inductive Link : String → String → Prop
  | derivation {id parent : String} {source : AskNativeSource}
    (hvisible : id ∈ records.map Prod.fst)
    (hsource : sources[id]? = some source) (hparent : parent ∈ source.sourceMemoryIds) :
    Link id parent
  | provenance {id uri key : String} {parsed : ProvenanceUri} (hrecord : (id, some uri) ∈ records)
    (hparsed : Provenance.fromStr rules.uuids uri = .ok parsed)
    (hkey : sourceKey parsed = some key) : Link id key

/-- One lineage: a chain of links leads from the one to the other. -/
def SameLineage : String → String → Prop := Relation.EqvGen (Link rules records sources)

/-- The key of a provenance, when it names an individual source. -/
def provenanceKey (uri : String) : Option String :=
  (Provenance.fromStr rules.uuids uri).toOption.bind sourceKey

/-- The links in the order in which they are joined. -/
def links : List (String × String) :=
  ((sources.toList.filter fun (id, _) => id ∈ (StableSort.sortBy strCmp
      (records.map Prod.fst)).destutter (· ≠ ·)).flatMap fun (id, source) =>
    source.sourceMemoryIds.map fun parent => (id, parent))
    ++ records.filterMap fun (id, provenanceUri) =>
      (provenanceUri.bind (provenanceKey rules)).map fun key => (id, key)

theorem mem_ids (id : String) :
    id ∈ (StableSort.sortBy strCmp (records.map Prod.fst)).destutter (· ≠ ·)
      ↔ id ∈ records.map Prod.fst :=
  ComparisonSort.mem_destutter_insertionSort

theorem mem_links (left right : String) :
    (left, right) ∈ links rules records sources ↔ Link rules records sources left right := by
  unfold links
  rw [List.mem_append, List.mem_flatMap, List.mem_filterMap]
  constructor
  · rintro (⟨⟨id, s⟩, he, hl⟩ | ⟨⟨id, pu⟩, hr, hl⟩)
    · obtain ⟨hs, hv⟩ := List.mem_filter.mp he
      obtain ⟨p, hpa, heq⟩ := List.mem_map.mp hl
      obtain ⟨rfl, rfl⟩ := Prod.mk.inj heq
      exact .derivation ((mem_ids records id).mp (by simpa using hv))
        (ExtTreeMap.mem_toList_iff_getElem?_eq_some.mp hs) hpa
    · obtain ⟨key, hk, heq⟩ := Option.map_eq_some_iff.mp hl
      obtain ⟨rfl, rfl⟩ := Prod.mk.inj heq
      obtain ⟨uri, rfl, hu⟩ := Option.bind_eq_some_iff.mp hk
      obtain ⟨pa, hp, hk⟩ := Option.bind_eq_some_iff.mp hu
      refine .provenance hr ?_ hk
      cases hre : Provenance.fromStr rules.uuids uri with
      | error e => simp [hre, Except.toOption] at hp
      | ok value =>
        rw [hre] at hp
        exact congrArg Except.ok (Option.some.inj hp)
  · rintro (⟨hv, hs, hpa⟩ | ⟨hr, hp, hk⟩)
    · refine .inl ⟨(left, _), List.mem_filter.mpr ⟨?_, ?_⟩, List.mem_map.mpr ⟨right, hpa, rfl⟩⟩
      · exact ExtTreeMap.mem_toList_iff_getElem?_eq_some.mpr hs
      · simpa using (mem_ids records left).mpr hv
    · refine .inr ⟨_, hr, ?_⟩
      simp [provenanceKey, hp, hk, Except.toOption]

theorem connected_links (left right : String) :
    LeastForest.Connected (links rules records sources) left right
      ↔ SameLineage rules records sources left right := by
  unfold LeastForest.Connected SameLineage
  rw [show (fun left right => (left, right) ∈ links rules records sources)
      = Link rules records sources from
    funext fun left => funext fun right => propext (mem_links rules records sources left right)]

/-! ## The forest of a run -/

/-- The forest after all joins. -/
theorem joinProvenance_eq : joinProvenance rules records (joinDerivations sources
        ((StableSort.sortBy strCmp (records.map Prod.fst)).destutter (· ≠ ·)) LeastForest.empty)
      = LeastForest.joinAll strCmp (links rules records sources) := by
  unfold links LeastForest.joinAll joinDerivations joinProvenance
  rw [List.foldl_append, List.foldl_flatMap, List.foldl_filterMap]
  simp only [List.foldl_map]
  congr 1
  funext forest record
  obtain ⟨id, pu⟩ := record
  cases pu with
  | none => rfl
  | some uri =>
    simp only [provenanceKey, Option.bind_some]
    cases Provenance.fromStr rules.uuids uri with
    | error e => rfl
    | ok p =>
      simp only [Except.toOption, Option.bind_some]
      cases sourceKey p with
      | none => rfl
      | some key => rfl

/-- Searching for the groups compresses ways and moves no root. -/
theorem getElem?_foldl_root (f : LeastForest strCmp) (ids : List String) (id : String) :
    (ids.foldl (fun (ps, gs) id => let (top, ps) := LeastForest.root ps id
        (ps, gs.insert id top)) (f, (∅ : ExtTreeMap String String strCmp))).2[id]?
      = if id ∈ ids then some (f.rootOf id) else none := by
  have hr : ∀ (f : LeastForest strCmp) (gs : ExtTreeMap String String strCmp),
      (ids.foldl (fun (ps, gs) id => let (top, ps) := LeastForest.root ps id
        (ps, gs.insert id top)) (f, gs)).2[id]?
        = if id ∈ ids then some (f.rootOf id) else gs[id]? := by
    induction ids with
    | nil => intro f gs; rfl
    | cons head ids ih =>
      intro f gs
      rw [List.foldl_cons, ih, LeastForest.rootOf_root_snd, ExtTreeMap.getElem?_insert_ite]
      by_cases hm : id ∈ ids
      · rw [if_pos hm, if_pos (List.mem_cons_of_mem _ hm)]
      · by_cases heq : head = id
        · subst heq
          rw [if_neg hm, if_pos rfl, if_pos List.mem_cons_self]
          rfl
        · rw [if_neg hm, if_neg heq, if_neg]
          simp [hm, Ne.symm heq]
  rw [hr, ExtTreeMap.getElem?_empty]

/-- The root of a string after all joins. -/
def lineageRoot (id : String) : String :=
  (LeastForest.joinAll strCmp (links rules records sources)).rootOf id

open Classical in
/-- A record has no group only where there is neither a source nor a link. -/
theorem getElem?_sourceSupportGroups (id : String) :
    (sourceSupportGroups rules records sources)[id]?
      = if sources.isEmpty = true ∧ ∀ key, lineageRoot rules records sources key = key then none
        else if id ∈ records.map Prod.fst then some (lineageRoot rules records sources id)
        else none := by
  have he : ((sources.isEmpty
      && (LeastForest.joinAll strCmp (links rules records sources)).parents.isEmpty) = true)
        ↔ sources.isEmpty = true ∧ ∀ key, lineageRoot rules records sources key = key := by
    rw [Bool.and_eq_true, LeastForest.isEmpty_parents_iff]
    rfl
  unfold sourceSupportGroups
  simp only [joinProvenance_eq]
  by_cases hn : sources.isEmpty = true ∧ ∀ key, lineageRoot rules records sources key = key
  · rw [if_pos (he.mpr hn), if_pos hn, ExtTreeMap.getElem?_empty]
  · rw [if_neg fun h => hn (he.mp h), if_neg hn, getElem?_foldl_root]
    exact if_congr (mem_ids records id) rfl rfl

theorem supportKey_sourceSupportGroups {id : String} (hid : id ∈ records.map Prod.fst) :
    supportKey id (sourceSupportGroups rules records sources)
      = lineageRoot rules records sources id := by
  unfold supportKey
  rw [getElem?_sourceSupportGroups, if_pos hid]
  split
  · rename_i he
    exact (he.2 id).symm
  · rfl

theorem lineageRoot_eq_iff (left right : String) :
    lineageRoot rules records sources left = lineageRoot rules records sources right
      ↔ SameLineage rules records sources left right :=
  (LeastForest.rootOf_joinAll_eq_iff strCmp _ left right).trans
    (connected_links rules records sources left right)

theorem lineageRoot_least (id : String) :
    SameLineage rules records sources id (lineageRoot rules records sources id)
      ∧ ∀ other, SameLineage rules records sources id other →
        (strCmp (lineageRoot rules records sources id) other).isLE = true := by
  obtain ⟨hs, hl⟩ := LeastForest.rootOf_joinAll_least strCmp (links rules records sources) id
  refine ⟨(connected_links ..).mp hs, fun other ho => ?_⟩
  exact hl other ((connected_links ..).mpr ho)

/-- The least string of a component depends only on the links. -/
theorem lineageRoot_congr {records rs' : List (String × Option String)}
    (hli : Link rules rs' sources = Link rules records sources) (id : String) :
    lineageRoot rules rs' sources id = lineageRoot rules records sources id := by
  have hs : SameLineage rules rs' sources = SameLineage rules records sources :=
    congrArg Relation.EqvGen hli
  obtain ⟨hse, hl⟩ := lineageRoot_least rules records sources id
  obtain ⟨hs', hl'⟩ := lineageRoot_least rules rs' sources id
  rw [hs] at hs' hl'
  exact Std.LawfulEqCmp.eq_of_compare (Std.OrientedCmp.isLE_antisymm (hl' _ hse) (hl _ hs'))

theorem link_congr {records rs' : List (String × Option String)}
    (hr : ∀ record, record ∈ rs' ↔ record ∈ records) :
    Link rules rs' sources = Link rules records sources := by
  have hi : ∀ id, id ∈ rs'.map Prod.fst ↔ id ∈ records.map Prod.fst := by
    intro id
    simp only [List.mem_map, hr]
  funext left right
  apply propext
  constructor
  · rintro (⟨hv, hs, hp⟩ | ⟨hre, hpa, hk⟩)
    · exact .derivation ((hi left).mp hv) hs hp
    · exact .provenance ((hr _).mp hre) hpa hk
  · rintro (⟨hv, hs, hp⟩ | ⟨hre, hpa, hk⟩)
    · exact .derivation ((hi left).mpr hv) hs hp
    · exact .provenance ((hr _).mpr hre) hpa hk

/-- **The support groups are the connected components of the lineage links**, each named by its
least string; neither the order nor the repetition of the records matters, and every search for
a root ends. -/
theorem support_groups_are_components :
    (∀ left ∈ records.map Prod.fst, ∀ right ∈ records.map Prod.fst,
        (supportKey left (sourceSupportGroups rules records sources)
            = supportKey right (sourceSupportGroups rules records sources)
          ↔ SameLineage rules records sources left right))
      ∧ (∀ id ∈ records.map Prod.fst, SameLineage rules records sources id
            (supportKey id (sourceSupportGroups rules records sources))
          ∧ ∀ other, SameLineage rules records sources id other →
            (strCmp (supportKey id (sourceSupportGroups rules records sources)) other).isLE = true)
      ∧ (∀ records' : List (String × Option String),
        (∀ record, record ∈ records' ↔ record ∈ records) →
          sourceSupportGroups rules records' sources = sourceSupportGroups rules records sources)
      ∧ ∀ (forest : LeastForest strCmp) (id : String) (steps : ℕ), forest.parents.size < steps →
          ∃ path top, LeastForest.climb forest.parents steps id = some (path, top)
            ∧ forest.parents[top]? = none := by
  refine ⟨fun left hl right hri => ?_, fun id hid => ?_, fun records' hr => ?_,
    fun forest id steps hs => ?_⟩
  · rw [supportKey_sourceSupportGroups rules records sources hl,
      supportKey_sourceSupportGroups rules records sources hri, lineageRoot_eq_iff]
  · rw [supportKey_sourceSupportGroups rules records sources hid]
    exact lineageRoot_least rules records sources id
  · refine ExtTreeMap.ext_getElem? fun id => ?_
    have hro : lineageRoot rules records' sources = lineageRoot rules records sources :=
      funext (lineageRoot_congr rules sources (link_congr rules sources hr))
    have hi : id ∈ records'.map Prod.fst ↔ id ∈ records.map Prod.fst := by
      simp only [List.mem_map, hr]
    rw [getElem?_sourceSupportGroups, getElem?_sourceSupportGroups]
    rw [hro]
    simp only [hi]
  · exact ⟨(forest.way id).1, (forest.way id).2, LeastForest.climb_eq_way forest id hs,
      forest.isRoot_rootOf id⟩

end Ask
