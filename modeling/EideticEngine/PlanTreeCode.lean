/-
# The bytes under the plan-tree hash

The hash of a plan tree is taken over a byte string that begins with the key and goes through
the fields of the plan.  Texts and lists stand behind their lengths, optional values behind a
flag, numbers have a fixed width, and the names of a mode are of one length: every field ends
where its encoding says.  So the bytes determine key and plan, and where each field ends.
-/
import EideticEngine.PlanCache
import EideticEngine.PrefixCode

namespace QueryPlans

open PrefixCode RustText

/-! ## The widths of the fields -/

/-- A text in memory. -/
def TextFits (text : String) : Prop := (asBytes text).length < 2 ^ 64

/-- A list of texts in memory. -/
def TextsFit (texts : List String) : Prop := texts.length < 2 ^ 64 ∧ ∀ text ∈ texts, TextFits text

/-- The fields of a key are `u64`. -/
structure PlanCacheKey.Fits (key : PlanCacheKey) : Prop where
  eqlHash : key.eqlHash < 2 ^ 64
  indexManifestVersion : key.indexManifestVersion < 2 ^ 64
  searchConfigHash : key.searchConfigHash < 2 ^ 64

/-- The texts of a time filter are in memory. -/
def EqlTimeFilter.Fits (filter : EqlTimeFilter) : Prop :=
  (∀ text ∈ filter.since, TextFits text) ∧ ∀ text ∈ filter.until_, TextFits text

/-- The bit patterns of a confidence filter are of 64 bits. -/
def EqlConfidenceFilter.Fits (filter : EqlConfidenceFilter) : Prop :=
  (∀ bits ∈ filter.min, bits < 2 ^ 64) ∧ ∀ bits ∈ filter.max, bits < 2 ^ 64

/-- The hops of a graph filter are a `u32`. -/
def EqlGraphFilter.Fits (filter : EqlGraphFilter) : Prop :=
  (∀ text ∈ filter.center, TextFits text) ∧ (∀ hops ∈ filter.hops, hops < 2 ^ 32) ∧
    TextsFit filter.relations

/-- A query in memory. -/
structure EqlQuery.Fits (query : EqlQuery) : Prop where
  q : TextFits query.q
  workspace : ∀ text ∈ query.workspace, TextFits text
  levels : TextsFit query.levels
  kinds : TextsFit query.kinds
  tags : TextsFit query.tags
  scope : TextsFit query.scope
  time : ∀ filter ∈ query.time, filter.Fits
  confidence : ∀ filter ∈ query.confidence, filter.Fits
  graph : ∀ filter ∈ query.graph, filter.Fits
  limit : query.limit < 2 ^ 32

/-- A plan in memory. -/
structure CompiledPlan.Fits (plan : CompiledPlan) : Prop where
  parsedQuery : plan.parsedQuery.Fits
  boundIndex : ∀ text ∈ plan.boundIndex, TextFits text
  joinStrategy : ∀ text ∈ plan.joinStrategy, TextFits text

/-! ## The code of every field -/

theorem selfDelimiting_hashStr : SelfDelimiting TextFits hashStr :=
  selfDelimiting_prefixed asBytes_injective

theorem selfDelimiting_hashOptionalStr :
    SelfDelimiting (fun o => ∀ text ∈ o, TextFits text) hashOptionalStr :=
  selfDelimiting_hashStr.optional rfl fun _ => rfl

theorem selfDelimiting_hashStrList : SelfDelimiting TextsFit hashStrList :=
  selfDelimiting_hashStr.list

theorem selfDelimiting_u64 : SelfDelimiting (· < 2 ^ 64) (leBytes 8) := by
  have h := selfDelimiting_leBytes 8
  norm_num at h ⊢
  exact h

theorem selfDelimiting_u32 : SelfDelimiting (· < 2 ^ 32) (leBytes 4) := by
  have h := selfDelimiting_leBytes 4
  norm_num at h ⊢
  exact h

theorem selfDelimiting_hashOptionalF64 :
    SelfDelimiting (fun o => ∀ b ∈ o, b < 2 ^ 64) hashOptionalF64 :=
  selfDelimiting_u64.optional rfl fun _ => rfl

theorem selfDelimiting_hashOptionalTimeFilter :
    SelfDelimiting (fun o => ∀ fi ∈ o, EqlTimeFilter.Fits fi) hashOptionalTimeFilter := by
  have hf := (selfDelimiting_hashOptionalStr.pair selfDelimiting_hashOptionalStr).comap
    (f := fun fi : EqlTimeFilter => (fi.since, fi.until_)) (by
      rintro ⟨_, _⟩ ⟨_, _⟩ h
      cases h
      rfl)
  exact hf.optional rfl fun _ => rfl

theorem selfDelimiting_hashOptionalConfidenceFilter :
    SelfDelimiting (fun o => ∀ fi ∈ o, EqlConfidenceFilter.Fits fi)
      hashOptionalConfidenceFilter := by
  have hf := (selfDelimiting_hashOptionalF64.pair selfDelimiting_hashOptionalF64).comap
    (f := fun fi : EqlConfidenceFilter => (fi.min, fi.max)) (by
      rintro ⟨_, _⟩ ⟨_, _⟩ h
      cases h
      rfl)
  exact hf.optional rfl fun _ => rfl

theorem selfDelimiting_hashOptionalGraphFilter :
    SelfDelimiting (fun o => ∀ fi ∈ o, EqlGraphFilter.Fits fi)
      hashOptionalGraphFilter := by
  have hh : SelfDelimiting (fun o => ∀ ho ∈ o, ho < 2 ^ 32) (hashOptional (leBytes 4)) :=
    selfDelimiting_u32.optional rfl fun _ => rfl
  have hf := (selfDelimiting_hashOptionalStr.pair (hh.pair selfDelimiting_hashStrList)).comap
    (f := fun fi : EqlGraphFilter => (fi.center, fi.hops, fi.relations)) (by
      rintro ⟨_, _, _⟩ ⟨_, _, _⟩ h
      cases h
      rfl)
  refine hf.optional rfl fun fi => ?_
  show 1 :: (_ ++ _ ++ _) = 1 :: (_ ++ (_ ++ _))
  rw [List.append_assoc]

/-- The names of the tag modes are of one length. -/
theorem selfDelimiting_tagsMode :
    SelfDelimiting (fun _ : EqlTagsMode => True) fun mode => asBytes mode.asStr := by
  refine selfDelimiting_of_width 3 (fun mode => by cases mode <;> decide) ?_
  intro a b _ _ h
  have hn := asBytes_injective h
  cases a <;> cases b <;> first | rfl | (exact absurd hn (by decide))

/-- The names of the speed modes are of one length. -/
theorem selfDelimiting_speed :
    SelfDelimiting (fun _ : EqlSpeedMode => True) fun mode => asBytes mode.asStr := by
  refine selfDelimiting_of_width 7 (fun mode => by cases mode <;> decide) ?_
  intro a b _ _ h
  have hn := asBytes_injective h
  cases a <;> cases b <;> first | rfl | (exact absurd hn (by decide))

theorem selfDelimiting_flagByte : SelfDelimiting (fun _ : Bool => True) flagByte := by
  refine selfDelimiting_of_width 1 (fun f => rfl) ?_
  intro a b _ _ h
  cases a <;> cases b <;> first | rfl | (exact absurd h (by decide))

/-! ## The whole string -/

/-- The pieces of the string: one for every field, and one for every element of a list behind
that of its length. -/
def planTreeFields (key : PlanCacheKey) (plan : CompiledPlan) : List (List UInt8) :=
  let query := plan.parsedQuery
  let texts (values : List String) : List (List UInt8) :=
    leBytes 8 values.length :: values.map hashStr
  [asBytes "ee.search.plan_cache.tree.v1", leBytes 8 key.eqlHash,
      leBytes 8 key.indexManifestVersion, leBytes 8 key.searchConfigHash, hashStr query.q,
      hashOptionalStr query.workspace]
    ++ texts query.levels ++ texts query.kinds ++ texts query.tags
    ++ [asBytes query.tagsMode.asStr] ++ texts query.scope
    ++ [hashOptionalTimeFilter query.time, hashOptionalConfidenceFilter query.confidence,
      hashOptionalGraphFilter query.graph, leBytes 4 query.limit, asBytes query.speed.asStr,
      flagByte query.rerank, flagByte query.returnSubgraph, flagByte query.explain,
      hashOptionalStr plan.boundIndex, hashOptionalStr plan.joinStrategy]

/-- The pieces put together are the string. -/
theorem flatten_planTreeFields (key : PlanCacheKey) (plan : CompiledPlan) :
    (planTreeFields key plan).flatten = planTreeBytes key plan := by
  unfold planTreeFields planTreeBytes
  generalize asBytes "ee.search.plan_cache.tree.v1" = d
  simp only [hashStrList, List.flatten_append, List.flatten_cons, List.flatten_nil,
    List.append_nil, List.append_assoc, List.flatMap_def]

/-- The bytes at the front of a string determine key and plan, and the rest of the string. -/
theorem planTreeBytes_append_inj {key k' : PlanCacheKey} {plan p' : CompiledPlan}
    (hk : key.Fits) (hk' : k'.Fits) (hp : plan.Fits) (hp' : p'.Fits)
    {s t : List UInt8} (h : planTreeBytes key plan ++ s = planTreeBytes k' p' ++ t) :
    key = k' ∧ plan = p' ∧ s = t := by
  have hq := hp.parsedQuery
  have hq' := hp'.parsedQuery
  unfold planTreeBytes at h
  generalize asBytes "ee.search.plan_cache.tree.v1" = d at h
  simp only [List.append_assoc] at h
  -- one field after another is taken off the front
  have h := List.append_cancel_left h
  obtain ⟨heq, h⟩ := selfDelimiting_u64 hk.eqlHash hk'.eqlHash h
  obtain ⟨hv, h⟩ := selfDelimiting_u64 hk.indexManifestVersion hk'.indexManifestVersion h
  obtain ⟨hco, h⟩ := selfDelimiting_u64 hk.searchConfigHash hk'.searchConfigHash h
  obtain ⟨hte, h⟩ := selfDelimiting_hashStr hq.q hq'.q h
  obtain ⟨hw, h⟩ := selfDelimiting_hashOptionalStr hq.workspace hq'.workspace h
  obtain ⟨hl, h⟩ := selfDelimiting_hashStrList hq.levels hq'.levels h
  obtain ⟨hki, h⟩ := selfDelimiting_hashStrList hq.kinds hq'.kinds h
  obtain ⟨ht, h⟩ := selfDelimiting_hashStrList hq.tags hq'.tags h
  obtain ⟨hm, h⟩ := selfDelimiting_tagsMode trivial trivial h
  obtain ⟨hsc, h⟩ := selfDelimiting_hashStrList hq.scope hq'.scope h
  obtain ⟨hti, h⟩ := selfDelimiting_hashOptionalTimeFilter hq.time hq'.time h
  obtain ⟨hc, h⟩ := selfDelimiting_hashOptionalConfidenceFilter hq.confidence hq'.confidence h
  obtain ⟨hg, h⟩ := selfDelimiting_hashOptionalGraphFilter hq.graph hq'.graph h
  obtain ⟨hli, h⟩ := selfDelimiting_u32 hq.limit hq'.limit h
  obtain ⟨hsp, h⟩ := selfDelimiting_speed trivial trivial h
  obtain ⟨hr, h⟩ := selfDelimiting_flagByte trivial trivial h
  obtain ⟨hs, h⟩ := selfDelimiting_flagByte trivial trivial h
  obtain ⟨he, h⟩ := selfDelimiting_flagByte trivial trivial h
  obtain ⟨hb, h⟩ := selfDelimiting_hashOptionalStr hp.boundIndex hp'.boundIndex h
  obtain ⟨hj, h⟩ := selfDelimiting_hashOptionalStr hp.joinStrategy hp'.joinStrategy h
  refine ⟨?_, ?_, h⟩
  · cases key
    cases k'
    simp_all
  · obtain ⟨qu, _, _⟩ := plan
    obtain ⟨q', _, _⟩ := p'
    cases qu
    cases q'
    simp_all

/-- **The bytes under the plan-tree hash identify key and plan, and where every field and every
list element ends.** -/
theorem planTreeBytes_identifies {key key' : PlanCacheKey} {plan plan' : CompiledPlan}
    (hkey : key.Fits) (hkey' : key'.Fits) (hplan : plan.Fits) (hplan' : plan'.Fits) :
    (planTreeBytes key plan = planTreeBytes key' plan' → key = key' ∧ plan = plan') ∧
    (planTreeFields key plan).flatten = planTreeBytes key plan ∧
    (planTreeBytes key plan = planTreeBytes key' plan' →
      planTreeFields key plan = planTreeFields key' plan') ∧
    ∀ s t, planTreeBytes key plan ++ s = planTreeBytes key' plan' ++ t →
      key = key' ∧ plan = plan' ∧ s = t := by
  have hw := fun s t => planTreeBytes_append_inj hkey hkey' hplan hplan' (s := s) (t := t)
  have he : planTreeBytes key plan = planTreeBytes key' plan' → key = key' ∧ plan = plan' := by
    intro h
    obtain ⟨hk, hp, _⟩ := hw [] [] (by rw [h])
    exact ⟨hk, hp⟩
  refine ⟨he, flatten_planTreeFields key plan, ?_, hw⟩
  intro h
  obtain ⟨hk, hp⟩ := he h
  rw [hk, hp]

/-- A plan for two tags in a graph of one relation. -/
def taggedPlan (first second : String) : CompiledPlan :=
  ⟨⟨"release", some "main", [], ["rule"], [first, second], .all, [], some ⟨some "2026", none⟩,
    none, some ⟨some "m1", some 2, ["supports"]⟩, 10, .default, true, false, false⟩,
    some "idx", none⟩

theorem taggedPlan_fits {first s : String} (hf : TextFits first)
    (hse : TextFits s) : (taggedPlan first s).Fits := by
  have ht : ∀ text ∈ ["release", "main", "rule", "2026", "m1", "supports", "idx"],
      TextFits text := by
    intro text ht
    unfold TextFits
    revert text
    decide
  simp only [List.forall_mem_cons] at ht
  obtain ⟨hr, hm, hru, hy, hc, hs, hi, -⟩ := ht
  refine ⟨⟨hr, ?_, ?_, ?_, ?_, ?_, ?_, ?_, ?_, ?_⟩, ?_, ?_⟩ <;>
    simp_all [taggedPlan, TextsFit, EqlTimeFilter.Fits, EqlGraphFilter.Fits]

/-- Moving a letter from one tag to the next changes the string. -/
theorem planTreeBytes_taggedPlan_ne :
    planTreeBytes ⟨1, 7, 9⟩ (taggedPlan "ab" "c") ≠
      planTreeBytes ⟨1, 7, 9⟩ (taggedPlan "a" "bc") := by
  have hk : PlanCacheKey.Fits ⟨1, 7, 9⟩ := ⟨by decide, by decide, by decide⟩
  have hf : ∀ text ∈ ["ab", "c", "a", "bc"], TextFits text := by
    intro text ht
    unfold TextFits
    revert text
    decide
  simp only [List.forall_mem_cons] at hf
  obtain ⟨hab, hc, ha, hbc, -⟩ := hf
  intro h
  obtain ⟨-, hp⟩ := (planTreeBytes_identifies hk hk (taggedPlan_fits hab hc)
    (taggedPlan_fits ha hbc)).1 h
  exact absurd hp (by decide)

end QueryPlans
