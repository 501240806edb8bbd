/-
# The parameters in a graph cache key

The key of a cached graph result is a hash over the tokens of the parameters: one token for
every scalar, with the path that leads to it, one for the length of every array, and one for
every empty array or object.  The tokens are sorted, repetitions are dropped and every token is
ended by a NUL.  The legacy key takes the JSON text of the parameters with sorted keys instead.
Both tell apart the same values: those that differ in more than the order of keys.
-/
import EideticEngine.JsonIdentity
import EideticEngine.TextOrder
import EideticEngine.TextFields
import EideticEngine.ComparisonSort

namespace GraphCacheKeys

open Serde RustText
open JsonStrings (quoted quoted_append_inj nul_notMem_quoted)

variable {α : Type*}

/-! ## The two texts -/

/-- `serde_json::to_string` of a text. -/
def encodedText [JsonStrings] (text : String) : String := String.ofList (quoted text)

/-- The keys of an object, sorted. -/
def sortedKeys (entries : List (String × Json)) : List String :=
  (entries.map Prod.fst).insertionSort fun a b => strCmp a b ≠ .gt

/-- `Map::get`. -/
def mapGet (key : String) (entries : List (String × α)) : Option α :=
  (entries.find? fun entry => entry.1 = key).map Prod.snd

mutual

/-- `canonical_graph_algorithm_params_value`. -/
def canonicalParamsValue : Json → Json
  | .array items => .array (canonicalItems items)
  | .object entries =>
    .object ((sortedKeys entries).filterMap fun key =>
      (mapGet key (canonicalEntries entries)).map fun value => (key, value))
  | .null => .null
  | .bool value => .bool value
  | .number text => .number text
  | .string text => .string text

/-- The items of an array in canonical form. -/
def canonicalItems : List Json → List Json
  | [] => []
  | item :: items => canonicalParamsValue item :: canonicalItems items

/-- The values of an object in canonical form. -/
def canonicalEntries : List (String × Json) → List (String × Json)
  | [] => []
  | (key, value) :: entries => (key, canonicalParamsValue value) :: canonicalEntries entries

end

/-- `canonical_graph_algorithm_params_json`. -/
def canonicalParamsJson [JsonStrings] (params : Json) : String :=
  (canonicalParamsValue params).display

section

variable [JsonStrings]

mutual

/-- `collect_param_tokens`. -/
def collectParamTokens (path : String) : Json → List String
  | .null => [path ++ "=null"]
  | .bool value => [path ++ "=" ++ (if value then "true" else "false")]
  | .number text => [path ++ "=" ++ text]
  | .string text => [path ++ "=" ++ encodedText text]
  | .array items =>
    [path ++ ".len=" ++ items.length.repr] ++ (if items.isEmpty then [path ++ "=[]"] else [])
      ++ collectItemTokens path 0 items
  | .object entries =>
    (if entries.isEmpty then [path ++ "=\x7b\x7d"] else [])
      ++ (sortedKeys entries).flatMap fun key =>
        (mapGet key (collectEntryTokens path entries)).getD []

/-- The tokens of the items from an index on. -/
def collectItemTokens (path : String) (index : ℕ) : List Json → List String
  | [] => []
  | item :: items =>
    collectParamTokens (path ++ "[" ++ index.repr ++ "]") item
      ++ collectItemTokens path (index + 1) items

/-- The tokens of every entry, under its key. -/
def collectEntryTokens (path : String) : List (String × Json) → List (String × List String)
  | [] => []
  | (key, value) :: entries =>
    (key, collectParamTokens (path ++ "." ++ encodedText key) value)
      :: collectEntryTokens path entries

end

/-- The tokens that `encode_graph_algorithm_params_bitmap` goes through: `tokens.sort()` and
`tokens.dedup()`. -/
def paramTokens (params : Json) : List String :=
  ((collectParamTokens "$" params).insertionSort fun a b => strCmp a b ≠ .gt).destutter (· ≠ ·)

/-- What `encode_graph_algorithm_params_bitmap` feeds to the hasher of the token digest. -/
def tokenDigestInput (params : Json) : List UInt8 :=
  (paramTokens params).flatMap fun token => asBytes token ++ [0]

end

/-! ## Lookups in objects -/

theorem canonicalItems_eq (items : List Json) :
    canonicalItems items = items.map canonicalParamsValue := by
  induction items with
  | nil => rw [canonicalItems, List.map_nil]
  | cons it items ih => rw [canonicalItems, ih, List.map_cons]

theorem canonicalEntries_eq (entries : List (String × Json)) : canonicalEntries entries
      = entries.map fun en => (en.1, canonicalParamsValue en.2) := by
  induction entries with
  | nil => rw [canonicalEntries, List.map_nil]
  | cons en entries ih => rw [canonicalEntries, ih, List.map_cons]

theorem collectEntryTokens_eq [JsonStrings] (p : String) (entries : List (String × Json)) :
    collectEntryTokens p entries = entries.map fun en =>
      (en.1, collectParamTokens (p ++ "." ++ encodedText en.1) en.2) := by
  induction entries with
  | nil => rw [collectEntryTokens, List.map_nil]
  | cons en entries ih => rw [collectEntryTokens, ih, List.map_cons]

theorem mem_sortedKeys {key : String} {entries : List (String × Json)} :
    key ∈ sortedKeys entries ↔ ∃ value, (key, value) ∈ entries := by
  rw [sortedKeys, List.mem_insertionSort, List.mem_map]
  constructor
  · rintro ⟨⟨key, value⟩, hm, rfl⟩
    exact ⟨value, hm⟩
  · rintro ⟨value, hm⟩
    exact ⟨(key, value), hm, rfl⟩

/-- With distinct keys a lookup finds the entry of the key. -/
theorem mapGet_eq_some_iff {key : String} {value : α} {entries : List (String × α)}
    (hke : (entries.map Prod.fst).Nodup) :
    mapGet key entries = some value ↔ (key, value) ∈ entries := by
  rw [mapGet, Option.map_eq_some_iff]
  constructor
  · rintro ⟨⟨k', v'⟩, hf, rfl⟩
    have hk : k' = key := by simpa using List.find?_some hf
    rw [← hk]
    exact List.mem_of_find?_eq_some hf
  · intro hm
    cases hf : entries.find? fun en => en.1 = key with
    | none => exact absurd (List.find?_eq_none.mp hf _ hm) (by simp)
    | some en =>
      have hk : en.1 = key := by simpa using List.find?_some hf
      have he := List.mem_of_find?_eq_some hf
      refine ⟨en, rfl, ?_⟩
      exact congrArg Prod.snd (List.inj_on_of_nodup_map hke he hm hk)

theorem map_fst_map {β : Type*} (f : String × α → β) (entries : List (String × α)) :
    (entries.map fun en => (en.1, f en)).map Prod.fst = entries.map Prod.fst := by
  rw [List.map_map]
  rfl

/-- The entries put in the order of their sorted keys. -/
theorem perm_filterMap_mapGet {entries : List (String × α)} {keys : List String}
    (hk : (entries.map Prod.fst).Nodup) (hp : keys.Perm (entries.map Prod.fst)) :
    (keys.filterMap fun key => (mapGet key entries).map fun value => (key, value)).Perm
      entries := by
  refine (hp.filterMap _).trans (List.Perm.of_eq ?_)
  rw [List.filterMap_map]
  conv_rhs => rw [← List.filterMap_some (l := entries)]
  refine List.filterMap_congr fun en he => ?_
  have hg : mapGet en.1 entries = some en.2 := (mapGet_eq_some_iff hk).mpr he
  rw [Function.comp_apply, hg, Option.map_some]

/-! ## Canonical values -/

/-- A value differs from its canonical form in the order of keys only. -/
theorem sameUpToKeyOrder_canonical {value : Json} (hv : value.WellFormed) :
    value.SameUpToKeyOrder (canonicalParamsValue value) := by
  induction value using Json.inductionOn with
  | null => exact .refl _
  | bool value => exact .refl _
  | number text => exact .refl _
  | string text => exact .refl _
  | array items ih =>
    rw [canonicalParamsValue, canonicalItems_eq]
    exact Json.SameUpToKeyOrder.map_items (fun it hi => ih it hi (hv.items it hi)) []
  | object entries ih =>
    rw [canonicalParamsValue, canonicalEntries_eq]
    have hva := Json.SameUpToKeyOrder.map_entries (fun en he => ih en he (hv.entries en he)) []
    have hk := hv.keys
    rw [← map_fst_map fun en => canonicalParamsValue en.2] at hk
    refine hva.trans (.perm (perm_filterMap_mapGet hk ?_).symm)
    rw [map_fst_map fun en => canonicalParamsValue en.2]
    exact List.perm_insertionSort _ _

/-! ## What the tokens say -/

/-- A step of a path. -/
inductive PathStep where
  | key (name : String)
  | index (position : ℕ)

/-- What a token says of the place its path leads to. -/
inductive Leaf where
  | len (count : ℕ)
  | value (json : Json)

/-- Scalars, and arrays and objects without content. -/
def IsLeaf : Json → Prop
  | .array items => items = []
  | .object entries => entries = []
  | _ => True

/-- The value has a leaf at the end of a path. -/
inductive HasLeaf : Json → List PathStep → Leaf → Prop
  | value {json : Json} (h : IsLeaf json) : HasLeaf json [] (.value json)
  | len (items : List Json) : HasLeaf (.array items) [] (.len items.length)
  | item {items : List Json} {position : ℕ} {json : Json} {path : List PathStep} {leaf : Leaf}
    (hitem : items[position]? = some json) (h : HasLeaf json path leaf) :
    HasLeaf (.array items) (.index position :: path) leaf
  | entry {entries : List (String × Json)} {name : String} {json : Json}
    {path : List PathStep} {leaf : Leaf} (hentry : (name, json) ∈ entries)
    (h : HasLeaf json path leaf) : HasLeaf (.object entries) (.key name :: path) leaf

theorem hasLeaf_item_iff {items : List Json} {position : ℕ} {p : List PathStep} {l : Leaf} :
    HasLeaf (.array items) (.index position :: p) l ↔
      ∃ j, items[position]? = some j ∧ HasLeaf j p l := by
  constructor
  · intro h
    cases h with
    | item hi h => exact ⟨_, hi, h⟩
  · rintro ⟨j, hi, h⟩
    exact .item hi h

theorem hasLeaf_entry_iff {entries : List (String × Json)} {name : String}
    {p : List PathStep} {l : Leaf} :
    HasLeaf (.object entries) (.key name :: p) l ↔ ∃ j, (name, j) ∈ entries ∧ HasLeaf j p l := by
  constructor
  · intro h
    cases h with
    | entry he h => exact ⟨_, he, h⟩
  · rintro ⟨j, he, h⟩
    exact .entry he h

/-- Every value has a leaf. -/
theorem exists_hasLeaf (value : Json) : ∃ p l, HasLeaf value p l := by
  induction value using Json.inductionOn with
  | null => exact ⟨_, _, .value trivial⟩
  | bool value => exact ⟨_, _, .value trivial⟩
  | number text => exact ⟨_, _, .value trivial⟩
  | string text => exact ⟨_, _, .value trivial⟩
  | array items _ => exact ⟨_, _, .len items⟩
  | object entries ih =>
    cases entries with
    | nil => exact ⟨_, _, .value rfl⟩
    | cons en entries =>
      obtain ⟨p, l, h⟩ := ih en List.mem_cons_self
      exact ⟨_, _, .entry List.mem_cons_self h⟩

/-- The order of keys does not show in the leaves. -/
theorem hasLeaf_iff_of_same {a b : Json} (h : a.SameUpToKeyOrder b) :
    ∀ p l, HasLeaf a p l ↔ HasLeaf b p l := by
  induction h with
  | refl value => exact fun _ _ => Iff.rfl
  | symm _ ih => exact fun p l => (ih p l).symm
  | trans _ _ iha ihb => exact fun p l => (iha p l).trans (ihb p l)
  | perm h =>
    have ho : ∀ {entries es' : List (String × Json)}, entries.Perm es' →
        ∀ {p l}, HasLeaf (.object entries) p l → HasLeaf (.object es') p l := by
      intro entries es' hp p l hl
      cases hl with
      | value hv =>
        have hn : entries = [] := hv
        subst hn
        rw [List.nil_perm.mp hp]
        exact .value rfl
      | entry he hl => exact .entry (hp.subset he) hl
    exact fun p l => ⟨ho h, ho h.symm⟩
  | @item f a b ba _ ih =>
    have ho : ∀ {a b : Json}, (∀ p l, HasLeaf a p l → HasLeaf b p l) →
        ∀ {p l}, HasLeaf (.array (f ++ a :: ba)) p l → HasLeaf (.array (f ++ b :: ba)) p l := by
      intro a b hab p l hl
      cases hl with
      | value hv => exact absurd hv (by simp [IsLeaf])
      | len _ =>
        have hle := HasLeaf.len (f ++ b :: ba)
        rw [List.length_append, List.length_cons] at hle ⊢
        exact hle
      | @item _ position j p _ hi hl =>
        rw [hasLeaf_item_iff]
        rw [List.getElem?_append] at hi ⊢
        split at hi
        · rw [if_pos (by assumption)]
          exact ⟨j, hi, hl⟩
        · rw [if_neg (by assumption)]
          rw [List.getElem?_cons] at hi ⊢
          split at hi
          · rw [if_pos (by assumption)]
            cases hi
            exact ⟨b, rfl, hab _ _ hl⟩
          · rw [if_neg (by assumption)]
            exact ⟨j, hi, hl⟩
    exact fun p l => ⟨ho fun p l => (ih p l).mp, ho fun p l => (ih p l).mpr⟩
  | @entry f key a b ba _ ih =>
    have ho : ∀ {a b : Json}, (∀ p l, HasLeaf a p l → HasLeaf b p l) →
        ∀ {p l}, HasLeaf (.object (f ++ (key, a) :: ba)) p l →
          HasLeaf (.object (f ++ (key, b) :: ba)) p l := by
      intro a b hab p l hl
      cases hl with
      | value hv => exact absurd hv (by simp [IsLeaf])
      | entry he hl =>
        rw [List.mem_append, List.mem_cons] at he
        rcases he with he | he | he
        · exact .entry (List.mem_append_left _ he) hl
        · cases he
          exact .entry (List.mem_append_right _ List.mem_cons_self) (hab _ _ hl)
        · exact .entry (List.mem_append_right _ (List.mem_cons_of_mem _ he)) hl
    exact fun p l => ⟨ho fun p l => (ih p l).mp, ho fun p l => (ih p l).mpr⟩

/-- A value with a leaf at the root is that leaf. -/
theorem eq_of_hasLeaf_value {j l : Json} (h : HasLeaf j [] (.value l)) : j = l := by
  cases h with
  | value _ => rfl

/-- An entry with a given key is the only one. -/
theorem hasLeaf_entry_iff_of_mem {entries : List (String × Json)}
    (hk : (entries.map Prod.fst).Nodup) {name : String} {j : Json}
    (he : (name, j) ∈ entries) (p : List PathStep) (l : Leaf) :
    HasLeaf (.object entries) (.key name :: p) l ↔ HasLeaf j p l := by
  rw [hasLeaf_entry_iff]
  constructor
  · rintro ⟨j', he', h⟩
    have heq := List.inj_on_of_nodup_map hk he' he rfl
    cases heq
    exact h
  · exact fun h => ⟨j, he, h⟩

/-- Objects with the same leaves have the same keys. -/
theorem exists_entry_of_hasLeaf {entries es' : List (String × Json)}
    (h : ∀ p l, HasLeaf (.object entries) p l → HasLeaf (.object es') p l)
    {name : String} {j : Json} (he : (name, j) ∈ entries) :
    ∃ j', (name, j') ∈ es' := by
  obtain ⟨p, l, hl⟩ := exists_hasLeaf j
  obtain ⟨j', he', _⟩ := hasLeaf_entry_iff.mp (h _ _ (.entry he hl))
  exact ⟨j', he'⟩

theorem sortedKeys_eq_of_mem_iff {entries es' : List (String × Json)}
    (hk : (entries.map Prod.fst).Nodup) (hk' : (es'.map Prod.fst).Nodup)
    (h : ∀ name, (∃ j, (name, j) ∈ entries) ↔ ∃ j, (name, j) ∈ es') :
    sortedKeys entries = sortedKeys es' := by
  refine ComparisonSort.insertionSort_congr
    (fun a _ b _ hab => Std.LawfulEqCmp.eq_of_compare hab) ?_
  rw [List.perm_ext_iff_of_nodup hk hk']
  intro name
  simpa using h name

/-- **The leaves determine the canonical value.** -/
theorem canonical_eq_of_hasLeaf {value : Json} (hvalue : value.WellFormed) :
    ∀ {value' : Json}, value'.WellFormed →
      (∀ path leaf, HasLeaf value path leaf ↔ HasLeaf value' path leaf) →
        canonicalParamsValue value = canonicalParamsValue value' := by
  induction value using Json.inductionOn with
  | null =>
    intro value' _ h
    rw [eq_of_hasLeaf_value ((h _ _).mp (.value trivial))]
  | bool value =>
    intro value' _ h
    rw [eq_of_hasLeaf_value ((h _ _).mp (.value trivial))]
  | number text =>
    intro value' _ h
    rw [eq_of_hasLeaf_value ((h _ _).mp (.value trivial))]
  | string text =>
    intro value' _ h
    rw [eq_of_hasLeaf_value ((h _ _).mp (.value trivial))]
  | array items ih =>
    intro value' hvalue' h
    have hlen := (h _ _).mp (.len items)
    generalize hcount : items.length = count at hlen
    cases hlen with
    | len items' =>
      rw [canonicalParamsValue, canonicalParamsValue, canonicalItems_eq, canonicalItems_eq]
      congr 1
      refine List.ext_getElem (by rw [List.length_map, List.length_map, hcount]) ?_
      intro position hposition hposition'
      rw [List.length_map] at hposition hposition'
      rw [List.getElem_map, List.getElem_map]
      refine ih _ (List.getElem_mem _) (hvalue.items _ (List.getElem_mem _))
        (hvalue'.items _ (List.getElem_mem _)) fun path leaf => ?_
      have hleaf := h (.index position :: path) leaf
      rw [hasLeaf_item_iff, hasLeaf_item_iff, List.getElem?_eq_getElem hposition,
        List.getElem?_eq_getElem hposition'] at hleaf
      simpa using hleaf
  | object entries ih =>
    intro value' hvalue' h
    cases entries with
    | nil => rw [eq_of_hasLeaf_value ((h _ _).mp (.value rfl))]
    | cons first rest =>
      -- the leaf behind the first key makes the other value an object too
      obtain ⟨path, leaf, hleaf⟩ := exists_hasLeaf first.2
      have hother := (h _ _).mp (.entry List.mem_cons_self hleaf)
      generalize hentries : first :: rest = entries at *
      obtain ⟨entries', rfl⟩ : ∃ entries', value' = .object entries' := by
        cases hother with
        | @entry entries' _ _ _ _ _ _ => exact ⟨entries', rfl⟩
      have hkeys : sortedKeys entries = sortedKeys entries' := by
        refine sortedKeys_eq_of_mem_iff hvalue.keys hvalue'.keys fun name => ?_
        constructor
        · rintro ⟨json, hentry⟩
          exact exists_entry_of_hasLeaf (fun path leaf => (h path leaf).mp) hentry
        · rintro ⟨json, hentry⟩
          exact exists_entry_of_hasLeaf (fun path leaf => (h path leaf).mpr) hentry
      rw [canonicalParamsValue, canonicalParamsValue, canonicalEntries_eq, canonicalEntries_eq,
        hkeys]
      congr 1
      refine List.filterMap_congr fun name hname => ?_
      obtain ⟨json', hentry'⟩ := mem_sortedKeys.mp hname
      obtain ⟨json, hentry⟩ := mem_sortedKeys.mp (hkeys ▸ hname)
      have hget : ∀ {entries : List (String × Json)} {json : Json},
          (entries.map Prod.fst).Nodup → (name, json) ∈ entries →
          mapGet name (entries.map fun entry => (entry.1, canonicalParamsValue entry.2))
            = some (canonicalParamsValue json) := by
        intro entries json hnodup hmem
        rw [mapGet_eq_some_iff (by rw [map_fst_map fun entry => canonicalParamsValue entry.2];
                                   exact hnodup)]
        exact List.mem_map_of_mem hmem
      rw [hget hvalue.keys hentry, hget hvalue'.keys hentry',
        ih (name, json) hentry (hvalue.entries _ hentry) (hvalue'.entries _ hentry')
          fun path leaf => by
            rw [← hasLeaf_entry_iff_of_mem hvalue.keys hentry, h,
              hasLeaf_entry_iff_of_mem hvalue'.keys hentry']]

/-- The only leaf of a scalar is the scalar itself. -/
theorem hasLeaf_scalar_iff {j : Json} (h : ∀ items, j ≠ .array items)
    (h' : ∀ entries, j ≠ .object entries) {p : List PathStep} {l : Leaf} :
    HasLeaf j p l ↔ p = [] ∧ l = .value j := by
  constructor
  · intro hl
    cases hl with
    | value _ => exact ⟨rfl, rfl⟩
    | len items => exact absurd rfl (h items)
    | @item items _ _ _ _ _ _ => exact absurd rfl (h items)
    | @entry entries _ _ _ _ _ _ => exact absurd rfl (h' entries)
  · rintro ⟨rfl, rfl⟩
    refine .value ?_
    cases j with
    | array items => exact absurd rfl (h items)
    | object entries => exact absurd rfl (h' entries)
    | _ => trivial

/-- The leaves of a well-formed value. -/
def Leaf.WellFormed : Leaf → Prop
  | .len _ => True
  | .value json => json.WellFormed ∧ IsLeaf json

theorem HasLeaf.wellFormed {value : Json} {p : List PathStep} {l : Leaf}
    (h : HasLeaf value p l) (hv : value.WellFormed) : l.WellFormed := by
  induction h with
  | value h => exact ⟨hv, h⟩
  | len items => trivial
  | item hi _ ih => exact ih (hv.items _ (List.mem_of_getElem? hi))
  | entry he _ ih => exact ih (hv.entries _ he)

/-! ## Texts and bytes -/

theorem notMem_repr {c : Char} (hc : c.isDigit = false) (n : ℕ) : c ∉ n.repr.toList := by
  intro hm
  rw [Nat.toList_repr] at hm
  have hd := Nat.isDigit_of_mem_toDigits (by decide) (by decide) hm
  rw [hc] at hd
  cases hd

/-- The zero byte is written for NUL only. -/
theorem zero_notMem_utf8EncodeChar {c : Char} (hc : c ≠ '\x00') :
    (0 : UInt8) ∉ String.utf8EncodeChar c := by
  have hne : c.val.toNat ≠ 0 := by
    intro h
    exact hc (Char.ext (UInt32.toNat_inj.mp h))
  intro hm
  unfold String.utf8EncodeChar at hm
  generalize c.val.toNat = v at hne hm
  dsimp only at hm
  split_ifs at hm <;>
    simp only [List.mem_cons, List.not_mem_nil, or_false, ← UInt8.toNat_inj,
      UInt8.toNat_ofNat', UInt8.toNat_zero] at hm <;>
    omega

theorem zero_notMem_asBytes {token : String} (h : '\x00' ∉ token.toList) :
    (0 : UInt8) ∉ asBytes token := by
  rw [← String.ofList_toList (s := token), asBytes_ofList, List.mem_flatMap]
  rintro ⟨c, hc, hz⟩
  refine zero_notMem_utf8EncodeChar ?_ hz
  rintro rfl
  exact h hc

/-- Texts without a zero byte are told apart when each is ended by one. -/
theorem flatMap_terminated_inj {ts : List String} :
    ∀ {ts' : List String}, (∀ token ∈ ts, (0 : UInt8) ∉ asBytes token) →
      (∀ token ∈ ts', (0 : UInt8) ∉ asBytes token) →
      (ts.flatMap fun token => asBytes token ++ [0])
        = (ts'.flatMap fun token => asBytes token ++ [0]) → ts = ts' := by
  induction ts with
  | nil =>
    intro ts' _ _ h
    cases ts' with
    | nil => rfl
    | cons t' ts' => simp at h
  | cons token ts ih =>
    intro ts' ht ht' h
    cases ts' with
    | nil => simp at h
    | cons t' ts' =>
      rw [List.forall_mem_cons] at ht ht'
      simp only [List.flatMap_cons, List.append_assoc, List.singleton_append] at h
      obtain ⟨hto, hr⟩ := TextFields.append_cons_inj ht.1 ht'.1 h
      rw [asBytes_injective hto, ih ht.2 ht'.2 hr]

/-! ## The text of a token -/

section

variable [JsonStrings]

/-- How a step is written. -/
def stepChars : PathStep → List Char
  | .key name => '.' :: quoted name
  | .index position => '[' :: (position.repr.toList ++ [']'])

/-- How a leaf is written. -/
def leafChars : Leaf → List Char
  | .len count => '.' :: 'l' :: 'e' :: 'n' :: '=' :: count.repr.toList
  | .value json => '=' :: json.chars

/-- How a leaf is written behind the path that leads to it. -/
def tokenChars (path : List PathStep) (leaf : Leaf) : List Char :=
  path.flatMap stepChars ++ leafChars leaf

theorem tokenChars_cons (step : PathStep) (p : List PathStep) (l : Leaf) :
    tokenChars (step :: p) l = stepChars step ++ tokenChars p l := by
  rw [tokenChars, List.flatMap_cons, List.append_assoc]
  rfl

theorem mem_collectItemTokens {p token : String} {items : List Json} :
    ∀ {index : ℕ}, token ∈ collectItemTokens p index items ↔
      ∃ position j, items[position]? = some j ∧
        token ∈ collectParamTokens (p ++ "[" ++ (index + position).repr ++ "]") j := by
  induction items with
  | nil =>
    intro index
    rw [collectItemTokens]
    simp
  | cons it items ih =>
    intro index
    rw [collectItemTokens, List.mem_append, ih]
    constructor
    · rintro (hf | ⟨position, j, hi, ht⟩)
      · exact ⟨0, it, rfl, hf⟩
      · refine ⟨position + 1, j, hi, ?_⟩
        rwa [show index + (position + 1) = index + 1 + position by omega]
    · rintro ⟨position, j, hi, ht⟩
      cases position with
      | zero =>
        cases hi
        exact Or.inl ht
      | succ position =>
        refine Or.inr ⟨position, j, hi, ?_⟩
        rwa [show index + 1 + position = index + (position + 1) by omega]

theorem mem_entryTokens {p token : String} {entries : List (String × Json)}
    (hk : (entries.map Prod.fst).Nodup) :
    (token ∈ (sortedKeys entries).flatMap fun key =>
        (mapGet key (collectEntryTokens p entries)).getD []) ↔
      ∃ name j, (name, j) ∈ entries ∧
        token ∈ collectParamTokens (p ++ "." ++ encodedText name) j := by
  have hg : ∀ {name j}, (name, j) ∈ entries → mapGet name (collectEntryTokens p entries)
        = some (collectParamTokens (p ++ "." ++ encodedText name) j) := by
    intro name j he
    rw [collectEntryTokens_eq, mapGet_eq_some_iff]
    · exact List.mem_map.mpr ⟨(name, j), he, rfl⟩
    · rw [map_fst_map fun en : String × Json =>
        collectParamTokens (p ++ "." ++ encodedText en.1) en.2]
      exact hk
  rw [List.mem_flatMap]
  constructor
  · rintro ⟨name, hn, ht⟩
    obtain ⟨j, he⟩ := mem_sortedKeys.mp hn
    rw [hg he] at ht
    exact ⟨name, j, he, ht⟩
  · rintro ⟨name, j, he, ht⟩
    refine ⟨name, mem_sortedKeys.mpr ⟨j, he⟩, ?_⟩
    rw [hg he]
    exact ht

/-- A token is collected exactly for every leaf. -/
def TokensAreLeaves (value : Json) : Prop :=
  ∀ ⦃path token : String⦄, token ∈ collectParamTokens path value ↔
    ∃ steps leaf, HasLeaf value steps leaf ∧ token.toList = path.toList ++ tokenChars steps leaf

theorem tokensAreLeaves_scalar {j : Json} (h : ∀ items, j ≠ .array items)
    (h' : ∀ entries, j ≠ .object entries)
    (ht : ∀ p, ∃ token, collectParamTokens p j = [token] ∧
      token.toList = p.toList ++ '=' :: j.chars) : TokensAreLeaves j := by
  intro p token
  obtain ⟨w, hc, hw⟩ := ht p
  rw [hc, List.mem_singleton, ← String.toList_inj, hw]
  constructor
  · intro ht
    exact ⟨[], _, (hasLeaf_scalar_iff h h').mpr ⟨rfl, rfl⟩, ht⟩
  · rintro ⟨steps, l, hl, ht⟩
    obtain ⟨rfl, rfl⟩ := (hasLeaf_scalar_iff h h').mp hl
    exact ht

theorem tokensAreLeaves_array {items : List Json} (ih : ∀ item ∈ items, TokensAreLeaves item) :
    TokensAreLeaves (.array items) := by
  intro path token
  rw [collectParamTokens, List.mem_append, List.mem_append, List.mem_singleton,
    mem_collectItemTokens]
  constructor
  · rintro ((rfl | hempty) | ⟨position, json, hitem, htoken⟩)
    · refine ⟨[], _, .len items, ?_⟩
      simp [tokenChars, leafChars]
    · cases items with
      | nil =>
        cases List.mem_singleton.mp hempty
        refine ⟨[], _, .value rfl, ?_⟩
        simp [tokenChars, leafChars, Json.chars, Json.charsItems]
      | cons item items => cases hempty
    · obtain ⟨steps, leaf, hleaf, htoken⟩ :=
        (ih json (List.mem_of_getElem? hitem)).mp htoken
      refine ⟨_, leaf, .item hitem hleaf, ?_⟩
      rw [htoken, tokenChars_cons]
      simp [stepChars]
  · rintro ⟨steps, leaf, hleaf, htoken⟩
    cases hleaf with
    | value hnil =>
      have hitems : items = [] := hnil
      subst hitems
      refine Or.inl (Or.inr (List.mem_singleton.mpr (String.toList_inj.mp ?_)))
      rw [htoken]
      simp [tokenChars, leafChars, Json.chars, Json.charsItems]
    | len _ =>
      refine Or.inl (Or.inl (String.toList_inj.mp ?_))
      rw [htoken]
      simp [tokenChars, leafChars]
    | @item _ position json steps _ hitem hleaf =>
      refine Or.inr ⟨position, json, hitem, ?_⟩
      refine (ih json (List.mem_of_getElem? hitem)).mpr ⟨steps, leaf, hleaf, ?_⟩
      rw [htoken, tokenChars_cons]
      simp [stepChars]

theorem tokensAreLeaves_object {entries : List (String × Json)}
    (hkeys : (entries.map Prod.fst).Nodup) (ih : ∀ entry ∈ entries, TokensAreLeaves entry.2) :
    TokensAreLeaves (.object entries) := by
  intro path token
  rw [collectParamTokens, List.mem_append, mem_entryTokens hkeys]
  constructor
  · rintro (hempty | ⟨name, json, hentry, htoken⟩)
    · cases entries with
      | nil =>
        cases List.mem_singleton.mp hempty
        refine ⟨[], _, .value rfl, ?_⟩
        simp [tokenChars, leafChars, Json.chars, Json.charsEntries]
      | cons entry entries => cases hempty
    · obtain ⟨steps, leaf, hleaf, htoken⟩ := (ih _ hentry).mp htoken
      refine ⟨_, leaf, .entry hentry hleaf, ?_⟩
      rw [htoken, tokenChars_cons]
      simp [stepChars, encodedText]
  · rintro ⟨steps, leaf, hleaf, htoken⟩
    cases hleaf with
    | value hnil =>
      have hentries : entries = [] := hnil
      subst hentries
      refine Or.inl (List.mem_singleton.mpr (String.toList_inj.mp ?_))
      rw [htoken]
      simp [tokenChars, leafChars, Json.chars, Json.charsEntries]
    | @entry _ name json steps _ hentry hleaf =>
      refine Or.inr ⟨name, json, hentry, ?_⟩
      refine (ih _ hentry).mpr ⟨steps, leaf, hleaf, ?_⟩
      rw [htoken, tokenChars_cons]
      simp [stepChars, encodedText]

/-- **The collected tokens are the texts of the leaves.** -/
theorem tokensAreLeaves {value : Json} (hv : value.WellFormed) : TokensAreLeaves value := by
  induction value using Json.inductionOn with
  | null =>
    refine tokensAreLeaves_scalar (by simp) (by simp) fun p => ⟨_, by rw [collectParamTokens], ?_⟩
    simp [Json.chars]
  | bool value =>
    refine tokensAreLeaves_scalar (by simp) (by simp) fun p => ⟨_, by rw [collectParamTokens], ?_⟩
    cases value <;> simp [Json.chars]
  | number text =>
    refine tokensAreLeaves_scalar (by simp) (by simp) fun p => ⟨_, by rw [collectParamTokens], ?_⟩
    simp [Json.chars]
  | string text =>
    refine tokensAreLeaves_scalar (by simp) (by simp) fun p => ⟨_, by rw [collectParamTokens], ?_⟩
    simp [Json.chars, encodedText]
  | array items ih =>
    exact tokensAreLeaves_array fun it hi => ih it hi (hv.items it hi)
  | object entries ih =>
    exact tokensAreLeaves_object hv.keys fun en he => ih en he (hv.entries en he)

/-! ## Tokens are read in one way -/

theorem leafChars_inj {l l' : Leaf} (hl : l.WellFormed) (hl' : l'.WellFormed)
    (h : leafChars l = leafChars l') : l = l' := by
  cases l with
  | len count =>
    cases l' with
    | len c' =>
      simp only [leafChars, List.cons.injEq, true_and] at h
      rw [Nat.repr_injective (String.toList_injective h)]
    | value j' => cases (List.cons.inj h).1
  | value j =>
    cases l' with
    | len c' => cases (List.cons.inj h).1
    | value j' =>
      have hc := congrArg String.ofList (List.cons.inj h).2
      rw [Json.display_inj hl.1 hl'.1 hc]

/-- No leaf looks like a step. -/
theorem leafChars_ne_stepChars (l : Leaf) (step : PathStep) (r : List Char) :
    leafChars l ≠ stepChars step ++ r := by
  intro h
  cases l with
  | len count =>
    cases step with
    | key name =>
      -- a string starts with a quote, the length of an array with a letter
      obtain ⟨tail, ht⟩ := JsonStrings.head_quoted name
      rw [leafChars, stepChars, ht] at h
      cases (List.cons.inj (List.cons.inj h).2).1
    | index position => cases (List.cons.inj h).1
  | value j =>
    cases step with
    | key name => cases (List.cons.inj h).1
    | index position => cases (List.cons.inj h).1

theorem stepChars_append_inj {step s' : PathStep} {r r' : List Char}
    (h : stepChars step ++ r = stepChars s' ++ r') : step = s' ∧ r = r' := by
  cases step with
  | key name =>
    cases s' with
    | key n' =>
      obtain ⟨hn, hr⟩ := quoted_append_inj (List.cons.inj h).2
      exact ⟨by rw [hn], hr⟩
    | index p' => cases (List.cons.inj h).1
  | index position =>
    cases s' with
    | key n' => cases (List.cons.inj h).1
    | index p' =>
      rw [stepChars, stepChars, List.cons_append, List.cons_append, List.append_assoc,
        List.append_assoc] at h
      obtain ⟨hp, hr⟩ := TextFields.append_cons_inj (notMem_repr (by decide) _)
        (notMem_repr (by decide) _) (List.cons.inj h).2
      exact ⟨by rw [Nat.repr_injective (String.toList_injective hp)], hr⟩

/-- The text of a token determines path and leaf. -/
theorem tokenChars_inj {p : List PathStep} {l l' : Leaf} (hl : l.WellFormed)
    (hl' : l'.WellFormed) : ∀ {p' : List PathStep},
      tokenChars p l = tokenChars p' l' → p = p' ∧ l = l' := by
  induction p with
  | nil =>
    intro p' h
    cases p' with
    | nil => exact ⟨rfl, leafChars_inj hl hl' h⟩
    | cons s' p' =>
      rw [tokenChars_cons] at h
      exact absurd h (leafChars_ne_stepChars l s' _)
  | cons step p ih =>
    intro p' h
    cases p' with
    | nil =>
      rw [tokenChars_cons] at h
      exact absurd h.symm (leafChars_ne_stepChars l' step _)
    | cons s' p' =>
      rw [tokenChars_cons, tokenChars_cons] at h
      obtain ⟨hs, hr⟩ := stepChars_append_inj h
      obtain ⟨hp, he⟩ := ih hr
      exact ⟨by rw [hs, hp], he⟩

/-- Values with the same tokens have the same leaves, and the other way round. -/
theorem tokens_eq_iff {value v' : Json} (hv : value.WellFormed) (hv' : v'.WellFormed) :
    (∀ token, token ∈ collectParamTokens "$" value ↔ token ∈ collectParamTokens "$" v') ↔
      ∀ p l, HasLeaf value p l ↔ HasLeaf v' p l := by
  -- a leaf is found again from its token
  have ho : ∀ {value v' : Json}, value.WellFormed → v'.WellFormed →
      (∀ token, token ∈ collectParamTokens "$" value → token ∈ collectParamTokens "$" v') →
      ∀ {p l}, HasLeaf value p l → HasLeaf v' p l := by
    intro value v' hv hv' hto p l hl
    have hm := hto (String.ofList ('$' :: tokenChars p l))
      ((tokensAreLeaves hv).mpr ⟨p, l, hl, by simp⟩)
    obtain ⟨p', l', hl', ht⟩ := (tokensAreLeaves hv').mp hm
    rw [String.toList_ofList] at ht
    obtain ⟨hp, he⟩ := tokenChars_inj (hl.wellFormed hv) (hl'.wellFormed hv') (List.cons.inj ht).2
    rw [hp, he]
    exact hl'
  constructor
  · intro h p l
    exact ⟨ho hv hv' fun token => (h token).mp, ho hv' hv fun token => (h token).mpr⟩
  · intro h token
    rw [tokensAreLeaves hv, tokensAreLeaves hv']
    simp only [h]

/-! ## No token holds a NUL -/

theorem nul_notMem_leafChars {l : Leaf} (hl : l.WellFormed) : '\x00' ∉ leafChars l := by
  cases l with
  | len count =>
    simp only [leafChars, List.mem_cons, not_or]
    exact ⟨by decide, by decide, by decide, by decide, by decide, notMem_repr (by decide) count⟩
  | value j =>
    rw [leafChars, List.mem_cons, not_or]
    refine ⟨by decide, ?_⟩
    obtain ⟨hj, he⟩ := hl
    cases hj with
    | null => rw [Json.chars]; decide
    | bool value => cases value <;> rw [Json.chars] <;> decide
    | number _ hs =>
      rw [Json.chars]
      exact fun hm => absurd (hs _ hm) (by decide)
    | string text =>
      rw [Json.chars]
      exact nul_notMem_quoted text
    | @array items _ =>
      have hn : items = [] := he
      rw [hn, Json.chars, Json.charsItems]
      decide
    | @object entries _ _ =>
      have hn : entries = [] := he
      rw [hn, Json.chars, Json.charsEntries]
      decide

theorem nul_notMem_tokenChars (p : List PathStep) {l : Leaf} (hl : l.WellFormed) :
    '\x00' ∉ tokenChars p l := by
  induction p with
  | nil => exact nul_notMem_leafChars hl
  | cons step p ih =>
    rw [tokenChars_cons, List.mem_append, not_or]
    refine ⟨?_, ih⟩
    cases step with
    | key name =>
      rw [stepChars, List.mem_cons, not_or]
      exact ⟨by decide, nul_notMem_quoted name⟩
    | index position =>
      rw [stepChars, List.mem_cons, List.mem_append, not_or, not_or]
      exact ⟨by decide, notMem_repr (by decide) position, by decide⟩

theorem zero_notMem_paramToken {value : Json} (hv : value.WellFormed) {token : String}
    (ht : token ∈ paramTokens value) : (0 : UInt8) ∉ asBytes token := by
  rw [paramTokens, ComparisonSort.mem_destutter_insertionSort, tokensAreLeaves hv] at ht
  obtain ⟨p, l, hl, ht⟩ := ht
  refine zero_notMem_asBytes ?_
  rw [ht, List.mem_append, not_or]
  exact ⟨by decide, nul_notMem_tokenChars p (hl.wellFormed hv)⟩

/-! ## The keys identify the parameters -/

/-- `serde_json::Value`. -/
abbrev Params := {value : Json // value.WellFormed}

theorem tokenDigestInput_eq_iff_hasLeaf {value v' : Json} (hv : value.WellFormed)
    (hv' : v'.WellFormed) :
    tokenDigestInput value = tokenDigestInput v' ↔ ∀ p l, HasLeaf value p l ↔ HasLeaf v' p l := by
  rw [← tokens_eq_iff hv hv',
    ← ComparisonSort.destutter_insertionSort_eq_iff (r := fun a b => strCmp a b ≠ .gt)]
  constructor
  · intro h
    exact flatMap_terminated_inj (fun token => zero_notMem_paramToken hv)
      (fun token => zero_notMem_paramToken hv') h
  · intro h
    unfold tokenDigestInput paramTokens
    rw [h]

/-- **The input of the token digest is the same for two values exactly when their canonical
texts are, and that is when they differ in the order of keys only.** -/
theorem tokenDigestInput_eq_iff (params params' : Params) :
    (tokenDigestInput params.1 = tokenDigestInput params'.1 ↔
      canonicalParamsJson params.1 = canonicalParamsJson params'.1) ∧
    (canonicalParamsJson params.1 = canonicalParamsJson params'.1 ↔
      params.1.SameUpToKeyOrder params'.1) := by
  obtain ⟨value, hv⟩ := params
  obtain ⟨v', hv'⟩ := params'
  have hs := sameUpToKeyOrder_canonical hv
  have hs' := sameUpToKeyOrder_canonical hv'
  have ht : canonicalParamsJson value = canonicalParamsJson v' → value.SameUpToKeyOrder v' := by
    intro h
    have hc := Json.display_inj (hs.wellFormed_iff.mp hv) (hs'.wellFormed_iff.mp hv') h
    exact hs.trans (hc ▸ hs'.symm)
  have hd : tokenDigestInput value = tokenDigestInput v' →
      canonicalParamsJson value = canonicalParamsJson v' := by
    intro h
    rw [tokenDigestInput_eq_iff_hasLeaf hv hv'] at h
    unfold canonicalParamsJson
    rw [canonical_eq_of_hasLeaf hv hv' h]
  have hk : value.SameUpToKeyOrder v' → tokenDigestInput value = tokenDigestInput v' := fun h =>
    (tokenDigestInput_eq_iff_hasLeaf hv hv').mpr (hasLeaf_iff_of_same h)
  exact ⟨⟨hd, fun h => hk (ht h)⟩, ⟨ht, fun h => hd (hk h)⟩⟩

end

end GraphCacheKeys
