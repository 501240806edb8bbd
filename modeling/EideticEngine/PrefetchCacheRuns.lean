/-
# Runs of the prefetch cache

An insertion takes what the table held and the new entry, and divides them into what the table
holds and what it reports as evicted: the entries of other generations, the victim of a full
cache, and the key that displacements carried out.
-/
import EideticEngine.PprPrefetchCache

namespace PprPrefetchCache

open CuckooTable (Hashing Table)
open RustText (strCmp)

variable {S R : Type*} {functions : Functions S R} {cache after : Cache S R}
  {key : PprPrefetchCacheKey} {entry : PprPrefetchCacheEntry S R}

/-! ## Removing keys -/

/-- The cache in which only the entries changed, to those that pass a filter. -/
structure Keeps (functions : Functions S R) (cache after : Cache S R)
    (p : PprPrefetchCacheKey → Bool) : Prop where
  valid : after.entries.Valid functions.hashing
  iter : after.entries.iter.Perm (cache.entries.iter.filter fun s => p s.1)
  capacity : after.capacity = cache.capacity
  accessSequence : after.accessSequence = cache.accessSequence

/-- Which keys are kept. -/
theorem Keeps.mem_keys {p : PprPrefetchCacheKey → Bool} (h : Keeps functions cache after p)
    {k : PprPrefetchCacheKey} : k ∈ after.keys ↔ k ∈ cache.keys ∧ p k = true := by
  rw [Cache.keys, Table.keys, (h.iter.map Prod.fst).mem_iff, Cache.keys, Table.keys]
  simp only [List.mem_map, List.mem_filter]
  constructor
  · rintro ⟨s, ⟨hs, hp⟩, rfl⟩
    exact ⟨⟨s, hs, rfl⟩, hp⟩
  · rintro ⟨⟨s, hs, rfl⟩, hp⟩
    exact ⟨s, ⟨hs, hp⟩, rfl⟩

theorem Keeps.trans {l : Cache S R} {p q : PprPrefetchCacheKey → Bool}
    (h : Keeps functions cache after p) (h' : Keeps functions after l q) :
    Keeps functions cache l fun k => p k && q k where
  valid := h'.valid
  iter := by
    have hb := h'.iter.trans (h.iter.filter fun s => q s.1)
    rw [List.filter_filter] at hb
    refine hb.trans (List.Perm.of_eq ?_)
    exact List.filter_congr fun s _ => Bool.and_comm _ _
  capacity := h'.capacity.trans h.capacity
  accessSequence := h'.accessSequence.trans h.accessSequence

/-- Another filter with the same effect on the keys that are there. -/
theorem Keeps.congr {p q : PprPrefetchCacheKey → Bool} (h : Keeps functions cache after p)
    (heq : ∀ k ∈ cache.keys, p k = q k) : Keeps functions cache after q where
  valid := h.valid
  iter := by
    refine h.iter.trans (List.Perm.of_eq ?_)
    exact List.filter_congr fun s hs => heq s.1 (List.mem_map_of_mem hs)
  capacity := h.capacity
  accessSequence := h.accessSequence

theorem keeps_self (h : cache.entries.Valid functions.hashing) :
    Keeps functions cache cache fun _ => true :=
  ⟨h, by rw [List.filter_true], rfl, rfl⟩

theorem keeps_remove (h : cache.entries.Valid functions.hashing) (key : PprPrefetchCacheKey) :
    Keeps functions cache (cache.remove functions key) fun k => k ≠ key := by
  obtain ⟨hv, hp, -⟩ := h.remove key
  exact ⟨hv, hp, rfl, rfl⟩

/-- Removing keys one after the other. -/
theorem keeps_foldl_remove (keys : List PprPrefetchCacheKey)
    (h : cache.entries.Valid functions.hashing) :
    Keeps functions cache (keys.foldl (Cache.remove functions) cache) (fun k => k ∉ keys)
      ∧ (keys.foldl (Cache.remove functions) cache).liveGeneration = cache.liveGeneration := by
  induction keys generalizing cache with
  | nil => exact ⟨(keeps_self h).congr fun k _ => (decide_eq_true List.not_mem_nil).symm, rfl⟩
  | cons key keys ih =>
    have hr := keeps_remove h key
    obtain ⟨hk, hl⟩ := ih hr.valid
    refine ⟨(hr.trans hk).congr fun k _ => ?_, hl⟩
    rw [Bool.eq_iff_iff, Bool.and_eq_true, decide_eq_true_eq, decide_eq_true_eq,
      decide_eq_true_eq, List.mem_cons, not_or]

/-- Only one generation is kept. -/
theorem keeps_removeGenerationsExcept (h : cache.entries.Valid functions.hashing) (sg : ℕ) :
    Keeps functions cache (cache.removeGenerationsExcept functions sg).2
        (fun k => k.snapshotGeneration = sg)
      ∧ (cache.removeGenerationsExcept functions sg).2.liveGeneration = cache.liveGeneration := by
  obtain ⟨hke, hl⟩ := keeps_foldl_remove
    (cache.keys.filter fun key => key.snapshotGeneration ≠ sg) h
  refine ⟨hke.congr fun k hk => ?_, hl⟩
  rw [decide_eq_decide, List.mem_filter, decide_eq_true_eq]
  constructor
  · exact fun hn => not_not.mp fun hne => hn ⟨hk, hne⟩
  · exact fun heq hb => hb.2 heq

/-! ## Insertions -/

/-- All entries belong to the live generation. -/
def OneGeneration (cache : Cache S R) : Prop :=
  ∀ k ∈ cache.keys, cache.liveGeneration = some k.snapshotGeneration

/-- Before an insertion the entries of other generations are gone. -/
theorem evictForGenerationInsert_spec (h : cache.entries.Valid functions.hashing)
    (ho : OneGeneration cache) (sg : ℕ) :
    Keeps functions cache (cache.evictForGenerationInsert functions sg).2
        (fun k => k.snapshotGeneration = sg)
      ∧ (cache.evictForGenerationInsert functions sg).2.liveGeneration = some sg
      ∧ (cache.evictForGenerationInsert functions sg).1
        = cache.keys.filter fun k => k.snapshotGeneration ≠ sg := by
  rw [Cache.evictForGenerationInsert]
  split
  · rename_i hl
    have hs : ∀ k ∈ cache.keys, k.snapshotGeneration = sg := by
      intro k hk
      have hb := (ho k hk).symm.trans hl
      exact Option.some.inj hb
    refine ⟨(keeps_self h).congr fun k hk => (decide_eq_true (hs k hk)).symm, hl, ?_⟩
    symm
    rw [List.filter_eq_nil_iff]
    intro k hk hne
    exact of_decide_eq_true hne (hs k hk)
  · have hv : ({ cache with liveGeneration := some sg } :
        Cache S R).entries.Valid functions.hashing := h
    obtain ⟨hke, hl⟩ := keeps_removeGenerationsExcept hv sg
    exact ⟨⟨hke.valid, hke.iter, hke.capacity, hke.accessSequence⟩, hl, rfl⟩

/-- The entry of the key comes before those of all other keys. -/
def IsVictim (cache : Cache S R) (k : PprPrefetchCacheKey) : Prop :=
  ∃ e, (k, e) ∈ cache.entries.iter
    ∧ ∀ s ∈ cache.entries.iter, victimCmp (k, e) s ≠ .gt

instance : Std.TransCmp PprPrefetchCacheKey.cmp := by
  have hseed : Std.TransCmp fun a b : PprPrefetchCacheKey => strCmp a.seedSetHash b.seedSetHash :=
    ComparisonSort.transCmp_on PprPrefetchCacheKey.seedSetHash
  have hgeneration : Std.TransCmp fun a b : PprPrefetchCacheKey =>
      compare a.snapshotGeneration b.snapshotGeneration :=
    @ComparisonSort.transCmp_on PprPrefetchCacheKey ℕ compare _
      PprPrefetchCacheKey.snapshotGeneration
  exact inferInstanceAs (Std.TransCmp (compareLex
    (fun a b : PprPrefetchCacheKey => strCmp a.seedSetHash b.seedSetHash)
    fun a b => compare a.snapshotGeneration b.snapshotGeneration))

instance : Std.TransCmp (victimCmp : PprPrefetchCacheKey × PprPrefetchCacheEntry S R → _ → _) := by
  have huse : Std.TransCmp fun a b : PprPrefetchCacheKey × PprPrefetchCacheEntry S R =>
      compare a.2.lastUsed b.2.lastUsed :=
    @ComparisonSort.transCmp_on (PprPrefetchCacheKey × PprPrefetchCacheEntry S R) ℕ compare _
      fun a => a.2.lastUsed
  have hkey : Std.TransCmp fun a b : PprPrefetchCacheKey × PprPrefetchCacheEntry S R =>
      PprPrefetchCacheKey.cmp a.1 b.1 :=
    ComparisonSort.transCmp_on Prod.fst
  exact inferInstanceAs (Std.TransCmp (compareLex
    (fun a b : PprPrefetchCacheKey × PprPrefetchCacheEntry S R =>
      compare a.2.lastUsed b.2.lastUsed)
    fun a b => PprPrefetchCacheKey.cmp a.1 b.1))

theorem lruVictimKey_spec {k : PprPrefetchCacheKey} (h : cache.lruVictimKey = some k) :
    IsVictim cache k := by
  obtain ⟨s, hm, rfl⟩ := Option.map_eq_some_iff.mp h
  exact ⟨s.2, MinBy.mem_of_minBy hm, MinBy.minBy_le hm⟩

/-- Room for a new key. -/
theorem evictBeforeNewKey_spec (h : cache.entries.Valid functions.hashing)
    (hle : cache.entries.len ≤ cache.capacity) (hp : 0 < cache.capacity)
    (key : PprPrefetchCacheKey) :
    ∃ victim : Option PprPrefetchCacheKey, (cache.evictBeforeNewKey functions key).1 = victim.toList
      ∧ Keeps functions cache (cache.evictBeforeNewKey functions key).2 (fun k => some k ≠ victim)
      ∧ (cache.evictBeforeNewKey functions key).2.liveGeneration = cache.liveGeneration
      ∧ (∀ k, victim = some k → key ∉ cache.keys ∧ cache.entries.len = cache.capacity
        ∧ IsVictim cache k)
      ∧ (key ∉ cache.keys → (cache.evictBeforeNewKey functions key).2.entries.len
        < cache.capacity) := by
  rw [Cache.evictBeforeNewKey]
  split
  · rename_i hr
    refine ⟨none, rfl, (keeps_self h).congr fun k _ => (decide_eq_true ?_).symm, rfl, ?_, ?_⟩
    · exact Option.some_ne_none k
    · rintro k ⟨⟩
    intro hn
    rcases hr with hc | hlt
    · exact absurd (h.containsKey_iff.mp hc) hn
    · exact hlt
  · rename_i hf
    obtain ⟨hno, hlt⟩ := not_or.mp hf
    have hn : key ∉ cache.keys := fun hm => hno (h.containsKey_iff.mpr hm)
    have hl : cache.entries.len = cache.capacity := le_antisymm hle (not_lt.mp hlt)
    cases hv : cache.lruVictimKey with
    | none =>
      -- A full cache of positive capacity has a victim.
      have hni := MinBy.minBy_eq_none.mp (Option.map_eq_none_iff.mp hv)
      have hz := h.len
      rw [hni, List.length_nil] at hz
      omega
    | some victim =>
      have hke := keeps_remove h victim
      have hs := lruVictimKey_spec hv
      refine ⟨some victim, rfl, hke.congr fun k _ => ?_, rfl, ?_, fun _ => ?_⟩
      · rw [decide_eq_decide, Ne, Ne, Option.some_inj]
      · intro k hk
        cases hk
        exact ⟨hn, hl, hs⟩
      · obtain ⟨e, hm, -⟩ := hs
        have hles : (cache.remove functions victim).entries.iter.length
            < cache.entries.iter.length := by
          rw [hke.iter.length_eq]
          exact List.length_filter_lt_length_iff_exists.mpr ⟨_, hm, by simp⟩
        dsimp only
        rw [hke.valid.len]
        have := h.len
        omega

theorem evictToCapacity_of_le (f : ℕ) (h : cache.entries.len ≤ cache.capacity) :
    Cache.evictToCapacity functions f cache = ([], cache) := by
  cases f with
  | zero => rfl
  | succ f => rw [Cache.evictToCapacity, if_neg (not_lt.mpr h)]

/-- What an insertion does: `victim` makes room, and displacements carry `carried` out. -/
structure Inserts (functions : Functions S R) (cache : Cache S R) (key : PprPrefetchCacheKey)
    (entry : PprPrefetchCacheEntry S R) (evicted : List PprPrefetchCacheKey) (after : Cache S R)
    (victim : Option PprPrefetchCacheKey)
    (carried : Option (PprPrefetchCacheKey × PprPrefetchCacheEntry S R)) : Prop where
  valid : after.entries.Valid functions.hashing
  len_le : after.entries.len ≤ after.capacity
  capacity : after.capacity = cache.capacity
  accessSequence : after.accessSequence = cache.accessSequence
  liveGeneration : after.liveGeneration = some key.snapshotGeneration
  evicted : evicted = cache.keys.filter (fun k => k.snapshotGeneration ≠ key.snapshotGeneration)
    ++ victim.toList ++ carried.toList.map Prod.fst
  iter : (carried.toList ++ after.entries.iter).Perm ((key, entry) :: cache.entries.iter.filter
    fun s => s.1.snapshotGeneration = key.snapshotGeneration ∧ some s.1 ≠ victim ∧ s.1 ≠ key)
  victim : ∀ k, victim = some k → key ∉ cache.keys ∧ cache.entries.len = cache.capacity
    ∧ k.snapshotGeneration = key.snapshotGeneration ∧ IsVictim cache k

/-- A cache that does not change when the generations that it does not hold go. -/
theorem OneGeneration.filter_eq (ho : OneGeneration cache) {k : PprPrefetchCacheKey}
    (hm : k ∈ cache.keys) :
    cache.entries.iter.filter (fun s => s.1.snapshotGeneration = k.snapshotGeneration)
      = cache.entries.iter := by
  rw [List.filter_eq_self]
  intro s hs
  have hb := (ho s.1 (List.mem_map_of_mem hs)).symm.trans (ho k hm)
  exact decide_eq_true (Option.some.inj hb)

/-- The entry that is carried when displacements are used up. -/
def Cache.displaced (functions : Functions S R) (cache : Cache S R) (key : PprPrefetchCacheKey)
    (entry : PprPrefetchCacheEntry S R) :
    Option (PprPrefetchCacheKey × PprPrefetchCacheEntry S R) :=
  let current := (cache.evictForGenerationInsert functions key.snapshotGeneration).2
  let room := (current.evictBeforeNewKey functions key).2
  (room.entries.insert functions.hashing key entry).1

/-- **An insertion at a positive capacity.** -/
theorem insertEntry_spec (h : cache.entries.Valid functions.hashing) (ho : OneGeneration cache)
    (hle : cache.entries.len ≤ cache.capacity) (hpo : 0 < cache.capacity)
    (key : PprPrefetchCacheKey) (entry : PprPrefetchCacheEntry S R) :
    ∃ victim, Inserts functions cache key entry
      (cache.insertEntry functions key entry).1.evicted (cache.insertEntry functions key entry).2
      victim (cache.displaced functions key entry) := by
  obtain ⟨hst, hli, hsta⟩ := evictForGenerationInsert_spec h ho key.snapshotGeneration
  rw [Cache.insertEntry, Cache.displaced]
  generalize cache.evictForGenerationInsert functions key.snapshotGeneration = first
    at hst hli hsta ⊢
  obtain ⟨sta, c⟩ := first
  dsimp only at hst hli hsta ⊢
  have hcu : c.entries.len ≤ c.capacity := by
    rw [hst.valid.len, hst.iter.length_eq, hst.capacity]
    exact (List.length_filter_le _ _).trans (h.len ▸ hle)
  have hc : 0 < c.capacity := by
    rw [hst.capacity]
    exact hpo
  rw [if_neg hc.ne']
  obtain ⟨victim, hv, hr, hro, hvi, hroo⟩ := evictBeforeNewKey_spec hst.valid hcu hc key
  generalize c.evictBeforeNewKey functions key = se at hv hr hro hroo ⊢
  obtain ⟨vs, r⟩ := se
  dsimp only at hv hr hro hroo ⊢
  obtain ⟨hva, hp, -⟩ := hr.valid.insert key entry
  have hl := hp.length_eq
  rw [List.length_append, List.length_cons] at hl
  generalize r.entries.insert functions.hashing key entry = t at hva hp hl ⊢
  obtain ⟨carried, entries⟩ := t
  dsimp only at hva hp hl ⊢
  -- There is room, so that nothing more is evicted.
  have hlen : entries.len ≤ r.capacity := by
    rw [hva.len, hr.capacity]
    have hroomTotal := hr.valid.len
    by_cases hin : key ∈ r.keys
    · obtain ⟨s, hs, hke⟩ := List.mem_map.mp hin
      have hles : (r.entries.iter.filter fun s => s.1 ≠ key).length < r.entries.iter.length :=
        List.length_filter_lt_length_iff_exists.mpr ⟨s, hs, by simp [hke]⟩
      have hfe : r.entries.iter.length ≤ c.entries.iter.length := by
        rw [hr.iter.length_eq]
        exact List.length_filter_le _ _
      have hcur := hst.valid.len
      omega
    · have hn : key ∉ c.keys := by
        intro hm
        refine hin (hr.mem_keys.mpr ⟨hm, decide_eq_true fun heq => ?_⟩)
        exact (hvi key heq.symm).1 hm
      have hbo := hroo hn
      have hfi := List.length_filter_le (fun s => decide (s.1 ≠ key)) r.entries.iter
      omega
  have he : Cache.evictToCapacity functions entries.len { r with entries }
      = ([], { r with entries }) :=
    evictToCapacity_of_le _ hlen
  refine ⟨victim, ?_⟩
  rw [he]
  dsimp only
  refine ⟨hva, hlen, hr.capacity.trans hst.capacity,
    hr.accessSequence.trans hst.accessSequence, hro.trans hli, ?_, ?_, ?_⟩
  · rw [hsta, hv, List.append_nil]
  · refine hp.trans (List.Perm.cons _ ?_)
    have hb := (hst.trans hr).iter.filter fun s => s.1 ≠ key
    rw [List.filter_filter] at hb
    refine hb.trans (List.Perm.of_eq (List.filter_congr fun s _ => ?_))
    rw [Bool.eq_iff_iff]
    simp only [Bool.and_eq_true, decide_eq_true_eq]
    tauto
  · intro k hk
    obtain ⟨hn, hf, hlea⟩ := hvi k hk
    obtain ⟨e, hm, h'⟩ := hlea
    obtain ⟨hin, hg⟩ := hst.mem_keys.mp (List.mem_map_of_mem hm)
    have hsa : k.snapshotGeneration = key.snapshotGeneration := of_decide_eq_true hg
    -- One entry of the new generation means that all are.
    have ha := ho.filter_eq hin
    dsimp only at ha
    rw [hsa] at ha
    have hi := hst.iter
    rw [ha] at hi
    refine ⟨fun hke => ?_, ?_, hsa, e, hi.mem_iff.mp hm, ?_⟩
    · exact hn (hst.mem_keys.mpr ⟨hke, decide_eq_true rfl⟩)
    · rw [h.len, ← hi.length_eq, ← hst.valid.len, hf, hst.capacity]
    · exact fun s hs => h' s (hi.mem_iff.mpr hs)

section

variable {evicted : List PprPrefetchCacheKey} {victim : Option PprPrefetchCacheKey}
  {carried : Option (PprPrefetchCacheKey × PprPrefetchCacheEntry S R)}

/-- What is carried or held afterwards. -/
theorem Inserts.mem_iff (h : Inserts functions cache key entry evicted after victim carried)
    (k : PprPrefetchCacheKey) : k ∈ carried.toList.map Prod.fst ∨ k ∈ after.keys
      ↔ k = key ∨ k ∈ cache.keys ∧ k.snapshotGeneration = key.snapshotGeneration
        ∧ some k ≠ victim := by
  have hk := (h.iter.map Prod.fst).mem_iff (a := k)
  rw [List.map_append, List.mem_append] at hk
  refine hk.trans ?_
  rw [List.map_cons, List.mem_cons, Cache.keys, Table.keys]
  simp only [List.mem_map, List.mem_filter, decide_eq_true_eq]
  constructor
  · rintro (heq | ⟨s, ⟨hs, hg, hv, -⟩, rfl⟩)
    · exact .inl heq
    · exact .inr ⟨⟨s, hs, rfl⟩, hg, hv⟩
  · rintro (heq | ⟨⟨s, hs, rfl⟩, hg, hv⟩)
    · exact .inl heq
    · by_cases heq : s.1 = key
      · exact .inl heq
      · exact .inr ⟨s, ⟨hs, hg, hv, heq⟩, rfl⟩

theorem Inserts.nodup (hv : cache.entries.Valid functions.hashing)
    (h : Inserts functions cache key entry evicted after victim carried) :
    (carried.toList.map Prod.fst ++ after.keys).Nodup := by
  have hk := h.iter.map Prod.fst
  rw [List.map_append] at hk
  refine hk.nodup_iff.mpr (List.nodup_cons.mpr ⟨fun hm => ?_, ?_⟩)
  · obtain ⟨s, hs, heq⟩ := List.mem_map.mp hm
    exact (of_decide_eq_true (List.mem_filter.mp hs).2).2.2 heq
  · exact hv.nodup.sublist (List.filter_sublist.map _)

/-- **No key is lost or made up** by an insertion. -/
theorem Inserts.conserves (hva : cache.entries.Valid functions.hashing)
    (h : Inserts functions cache key entry evicted after victim carried) :
    (∀ k, k = key ∨ k ∈ cache.keys ↔ k ∈ after.keys ∨ k ∈ evicted)
      ∧ ∀ k ∈ evicted, k ∉ after.keys := by
  have he : ∀ k, k ∈ evicted ↔ (k ∈ cache.keys
      ∧ k.snapshotGeneration ≠ key.snapshotGeneration) ∨ victim = some k
      ∨ k ∈ carried.toList.map Prod.fst := by
    intro k
    rw [h.evicted, List.mem_append, List.mem_append, List.mem_filter, decide_eq_true_eq,
      Option.mem_toList, or_assoc]
  constructor
  · intro k
    have hh := h.mem_iff k
    rw [he]
    constructor
    · rintro (heq | hm)
      · rcases hh.mpr (.inl heq) with hc | ha
        · exact .inr (.inr (.inr hc))
        · exact .inl ha
      · by_cases hg : k.snapshotGeneration = key.snapshotGeneration
        · by_cases hv : some k = victim
          · exact .inr (.inr (.inl hv.symm))
          · rcases hh.mpr (.inr ⟨hm, hg, hv⟩) with hc | ha
            · exact .inr (.inr (.inr hc))
            · exact .inl ha
        · exact .inr (.inl ⟨hm, hg⟩)
    · rintro (ha | ⟨hm, -⟩ | hv | hc)
      · exact (hh.mp (.inr ha)).imp_right And.left
      · exact .inr hm
      · obtain ⟨-, -, -, e, hin, -⟩ := h.victim k hv
        exact .inr (List.mem_map_of_mem hin)
      · exact (hh.mp (.inl hc)).imp_right And.left
  · intro k hk ha
    have hh := (h.mem_iff k).mp (.inr ha)
    rcases (he k).mp hk with ⟨-, hne⟩ | hv | hc
    · rcases hh with rfl | ⟨-, heq, -⟩
      · exact hne rfl
      · exact hne heq
    · obtain ⟨hn, -, -, e, hin, -⟩ := h.victim k hv
      rcases hh with rfl | ⟨-, -, hne⟩
      · exact hn (List.mem_map_of_mem hin)
      · exact hne hv.symm
    · exact (List.nodup_append.mp (h.nodup hva)).2.2 k hc k ha rfl

end

/-! ## Invariants -/

/-- The hash of an entry's value. -/
def valueHash (functions : Functions S R) (key : PprPrefetchCacheKey) (scores : S) :
    Option R → String
  | some result => functions.pprPrefetchPageRankResultHash key result
  | none => functions.pprPrefetchResultHash key scores

/-- What is known of the cache when `inserted` was inserted last under each key. -/
structure Inv (functions : Functions S R) (capacity : ℕ) (cache : Cache S R)
    (inserted : PprPrefetchCacheKey → Option (S × Option R)) : Prop where
  valid : cache.entries.Valid functions.hashing
  capacity_eq : cache.capacity = capacity
  len_le : cache.entries.len ≤ capacity
  generation : OneGeneration cache
  value : ∀ k e, (k, e) ∈ cache.entries.iter → inserted k = some (e.scores, e.result)
    ∧ e.resultHash = valueHash functions k e.scores e.result
    ∧ e.currentScores functions = e.scores

section

variable {capacity : ℕ} {inserted : PprPrefetchCacheKey → Option (S × Option R)}

/-- The empty cache satisfies the invariant. -/
theorem Inv.new (functions : Functions S R) (capacity : ℕ) :
    Inv functions capacity (.new capacity) fun _ => none where
  valid := CuckooTable.valid_of_iter_eq_nil (CuckooTable.iter_new _) rfl
  capacity_eq := rfl
  len_le := Nat.zero_le _
  generation := by
    intro k hk
    rw [Cache.keys, Table.keys, Cache.new, CuckooTable.iter_new] at hk
    cases hk
  value := by
    intro k e hm
    rw [Cache.new, CuckooTable.iter_new] at hm
    cases hm

/-- Access numbers do not matter. -/
theorem Inv.drawn (h : Inv functions capacity cache inserted) :
    Inv functions capacity cache.drawn inserted :=
  ⟨h.valid, h.capacity_eq, h.len_le, h.generation, h.value⟩

/-- A touched entry keeps its value. -/
theorem Inv.touch (h : Inv functions capacity cache inserted) (key : PprPrefetchCacheKey) :
    Inv functions capacity (cache.touch functions key) inserted := by
  obtain ⟨hv, hp, hke, -⟩ := h.valid.update key fun entry =>
    { entry with lastUsed := cache.nextAccessSequence }
  refine ⟨hv, h.capacity_eq, ?_, ?_, ?_⟩
  · have hl : (cache.touch functions key).entries.len = cache.entries.len := by
      rw [h.valid.len]
      exact hv.len.trans (hp.length_eq.trans (List.length_map _))
    rw [hl]
    exact h.len_le
  · intro k hk
    exact h.generation k (hke.mem_iff.mp hk)
  · intro k e hm
    obtain ⟨s, hs, heq⟩ := List.mem_map.mp (hp.mem_iff.mp hm)
    obtain ⟨hi, hh, hsc⟩ := h.value s.1 s.2 hs
    split at heq
    · cases heq
      exact ⟨hi, hh, hsc⟩
    · cases heq
      exact ⟨hi, hh, hsc⟩

/-- Invalidation keeps some entries. -/
theorem Inv.invalidate (h : Inv functions capacity cache inserted) (sg : ℕ) :
    Inv functions capacity (cache.invalidateGenerationsExcept functions sg).2
      inserted := by
  have hv : ({ cache with liveGeneration := some sg } :
      Cache S R).entries.Valid functions.hashing := h.valid
  obtain ⟨hke, hli⟩ := keeps_removeGenerationsExcept hv sg
  refine ⟨hke.valid, hke.capacity.trans h.capacity_eq, ?_, ?_, ?_⟩
  · have hl := hke.valid.len
    rw [hke.iter.length_eq] at hl
    have hf := List.length_filter_le
      (fun s => decide (s.1.snapshotGeneration = sg)) cache.entries.iter
    rw [← h.valid.len] at hf
    exact hl.le.trans (hf.trans h.len_le)
  · intro k hk
    have hg := of_decide_eq_true (hke.mem_keys.mp hk).2
    rw [hg]
    exact hli
  · intro k e hm
    exact h.value k e (List.mem_filter.mp (hke.iter.mem_iff.mp hm)).1

/-- What is inserted last after one more insertion. -/
def insertedAfter (inserted : PprPrefetchCacheKey → Option (S × Option R))
    (key : PprPrefetchCacheKey) (value : S × Option R) :
    PprPrefetchCacheKey → Option (S × Option R) :=
  fun k => if k = key then some value else inserted k

/-- **An insertion keeps the invariant.** -/
theorem Inv.insertEntry (h : Inv functions capacity cache inserted)
    (hh : entry.resultHash = valueHash functions key entry.scores entry.result)
    (hsc : entry.currentScores functions = entry.scores) :
    Inv functions capacity (cache.insertEntry functions key entry).2
      (insertedAfter inserted key (entry.scores, entry.result)) := by
  rcases Nat.eq_zero_or_pos capacity with hz | hpo
  · -- A cache without capacity is cleared.
    have hcl : (cache.insertEntry functions key entry).2.entries.iter = []
        ∧ (cache.insertEntry functions key entry).2.entries.len = 0
        ∧ (cache.insertEntry functions key entry).2.capacity = capacity := by
      obtain ⟨hst, -, -⟩ :=
        evictForGenerationInsert_spec h.valid h.generation key.snapshotGeneration
      have hc := hst.capacity.trans h.capacity_eq
      rw [Cache.insertEntry]
      dsimp only
      rw [if_pos (hc.trans hz)]
      exact ⟨CuckooTable.iter_clear _, rfl, hc⟩
    obtain ⟨hite, hl, hc⟩ := hcl
    refine ⟨CuckooTable.valid_of_iter_eq_nil hite hl, hc, hl.le.trans (Nat.zero_le _), ?_, ?_⟩
    · intro k hk
      rw [Cache.keys, Table.keys, hite] at hk
      cases hk
    · intro k e hm
      rw [hite] at hm
      cases hm
  · obtain ⟨victim, hi⟩ := insertEntry_spec h.valid h.generation
      (h.capacity_eq ▸ h.len_le) (h.capacity_eq ▸ hpo) key entry
    refine ⟨hi.valid, hi.capacity.trans h.capacity_eq, ?_, ?_, ?_⟩
    · exact hi.len_le.trans (hi.capacity.trans h.capacity_eq).le
    · intro k hk
      rw [hi.liveGeneration]
      rcases (hi.mem_iff k).mp (.inr hk) with rfl | ⟨-, hg, -⟩
      · rfl
      · rw [hg]
    · intro k e hm
      have hin := hi.iter.mem_iff.mp (List.mem_append_right _ hm)
      rw [insertedAfter]
      rcases List.mem_cons.mp hin with heq | ho
      · cases heq
        rw [if_pos rfl]
        exact ⟨rfl, hh, hsc⟩
      · obtain ⟨hs, hp⟩ := List.mem_filter.mp ho
        rw [if_neg (of_decide_eq_true hp).2.2]
        exact h.value k e hs

/-! ## Operations -/

/-- What an operation inserts. -/
def Operation.inserts (functions : Functions S R) :
    Operation S R → Option (PprPrefetchCacheKey × S × Option R)
  | .insert key scores => some (key, scores, none)
  | .insertResult key result => some (key, functions.resultScores result, some result)
  | _ => none

/-- The last value that operations insert under a key. -/
def lastInsert (functions : Functions S R) (operations : List (Operation S R))
    (key : PprPrefetchCacheKey) : Option (S × Option R) :=
  ((operations.reverse.filterMap (Operation.inserts functions)).find? (·.1 = key)).map Prod.snd

theorem lastInsert_concat (functions : Functions S R) (os : List (Operation S R))
    (o : Operation S R) :
    lastInsert functions (os ++ [o]) = match o.inserts functions with
        | none => lastInsert functions os
        | some (key, value) => insertedAfter (lastInsert functions os) key value := by
  funext k
  rw [lastInsert, List.reverse_append, List.reverse_singleton, List.singleton_append,
    List.filterMap_cons]
  cases hi : o.inserts functions with
  | none => rfl
  | some pair =>
    dsimp only
    rw [List.find?_cons, insertedAfter]
    by_cases heq : k = pair.1
    · rw [if_pos heq, decide_eq_true heq.symm]
      rfl
    · rw [if_neg heq, decide_eq_false (Ne.symm heq)]
      rfl

/-- A hit touches the entry, a miss changes nothing. -/
theorem get_cases (functions : Functions S R) (cache : Cache S R) (key : PprPrefetchCacheKey) :
    (cache.get functions key = (none, cache))
      ∨ (cache.get functions key).1.isSome
        ∧ (cache.get functions key).2 = cache.touch functions key := by
  rw [Cache.get]
  split
  · split
    · exact .inl rfl
    · exact .inr ⟨rfl, rfl⟩
  · exact .inl rfl

theorem getResult_cases (functions : Functions S R) (cache : Cache S R)
    (key : PprPrefetchCacheKey) : (cache.getResult functions key = (none, cache))
      ∨ (cache.getResult functions key).1.isSome
        ∧ (cache.getResult functions key).2 = cache.touch functions key := by
  rw [Cache.getResult]
  split
  · split
    · exact .inl rfl
    · split
      · exact .inl rfl
      · exact .inr ⟨rfl, rfl⟩
  · exact .inl rfl

/-- **Every operation keeps the invariant.** -/
theorem Inv.apply {os : List (Operation S R)} (o : Operation S R)
    (h : Inv functions capacity cache (lastInsert functions os)) :
    Inv functions capacity (cache.apply functions o) (lastInsert functions (os ++ [o])) := by
  rw [lastInsert_concat]
  cases o with
  | insert key ss => exact h.drawn.insertEntry rfl rfl
  | insertResult key r => exact h.drawn.insertEntry rfl rfl
  | get key =>
    show Inv functions capacity (cache.get functions key).2 (lastInsert functions os)
    rcases get_cases functions cache key with heq | ⟨-, heq⟩
    · rw [heq]
      exact h
    · rw [heq]
      exact h.touch key
  | getResult key =>
    show Inv functions capacity (cache.getResult functions key).2 (lastInsert functions os)
    rcases getResult_cases functions cache key with heq | ⟨-, heq⟩
    · rw [heq]
      exact h
    · rw [heq]
      exact h.touch key
  | invalidateGenerationsExcept sg => exact h.invalidate sg

theorem run_concat (functions : Functions S R) (capacity : ℕ) (os : List (Operation S R))
    (o : Operation S R) : run functions capacity (os ++ [o])
      = (run functions capacity os).apply functions o :=
  List.foldl_concat _ _ _ _

/-- **The invariant holds after every sequence of operations.** -/
theorem inv_run (functions : Functions S R) (capacity : ℕ) (os : List (Operation S R)) :
    Inv functions capacity (run functions capacity os) (lastInsert functions os) := by
  induction os using List.reverseRecOn with
  | nil => exact Inv.new functions capacity
  | append_singleton os o ih =>
    rw [run_concat]
    exact ih.apply o

/-- A hit has the scores that were inserted last. -/
theorem Inv.get_value (h : Inv functions capacity cache inserted) {hit : PprPrefetchCacheHit S}
    (hg : (cache.get functions key).1 = some hit) :
    ∃ value, inserted key = some value ∧ hit.scores = value.1
      ∧ hit.resultHash = valueHash functions key value.1 value.2 := by
  rw [Cache.get] at hg
  split at hg
  · split at hg
    · cases hg
    · rename_i entry he
      cases hg
      obtain ⟨hi, hh, hs⟩ := h.value key entry (h.valid.get_iff.mp he)
      exact ⟨_, hi, hs, hh⟩
  · cases hg

/-- A hit has the result that was inserted last. -/
theorem Inv.getResult_value (h : Inv functions capacity cache inserted)
    {hit : PprPrefetchCacheResultHit R} (hg : (cache.getResult functions key).1 = some hit) :
    ∃ ss, inserted key = some (ss, some hit.result)
      ∧ hit.resultHash = functions.pprPrefetchPageRankResultHash key hit.result := by
  rw [Cache.getResult] at hg
  split at hg
  · split at hg
    · cases hg
    · rename_i entry he
      obtain ⟨hi, hh, -⟩ := h.value key entry (h.valid.get_iff.mp he)
      split at hg
      · cases hg
      · rename_i r hr
        cases hg
        rw [hr] at hi hh
        exact ⟨_, hi, hh⟩
  · cases hg

/-- A stored key is a hit. -/
theorem Inv.get_isSome (h : Inv functions capacity cache inserted) (hm : key ∈ cache.keys) :
    (cache.get functions key).1.isSome := by
  obtain ⟨s, hs, rfl⟩ := List.mem_map.mp hm
  have he := h.valid.get_iff.mpr (show (s.1, s.2) ∈ cache.entries.iter from hs)
  have hh := (h.value s.1 s.2 hs).2.1
  have hv : cache.entryHashIsValid functions s.1 = true := by
    rw [Cache.entryHashIsValid, he]
    dsimp only
    rw [hh]
    cases s.2.result with
    | none => exact decide_eq_true rfl
    | some r => exact decide_eq_true rfl
  rw [Cache.get, if_pos hv, he]
  rfl

/-- An insertion conserves keys. -/
def Conserves (cache : Cache S R) (key : PprPrefetchCacheKey)
    (result : PprPrefetchCacheInsert × Cache S R) : Prop :=
  (∀ k, k = key ∨ k ∈ cache.keys ↔ k ∈ result.2.keys ∨ k ∈ result.1.evicted)
    ∧ ∀ k ∈ result.1.evicted, k ∉ result.2.keys

theorem Inv.conserves (h : Inv functions capacity cache inserted) (hp : 0 < capacity)
    (key : PprPrefetchCacheKey) (entry : PprPrefetchCacheEntry S R) :
    Conserves cache key (cache.drawn.insertEntry functions key entry) := by
  have hd := h.drawn
  obtain ⟨victim, hi⟩ := insertEntry_spec hd.valid hd.generation
    (hd.capacity_eq ▸ hd.len_le) (hd.capacity_eq ▸ hp) key entry
  have hk : cache.drawn.keys = cache.keys := rfl
  rw [Conserves, ← hk]
  exact hi.conserves hd.valid

/-- Without capacity nothing is stored and nothing is evicted. -/
theorem Inv.insertEntry_zero (h : Inv functions 0 cache inserted) (key : PprPrefetchCacheKey)
    (entry : PprPrefetchCacheEntry S R) :
    (cache.insertEntry functions key entry).1.evicted = []
      ∧ (cache.insertEntry functions key entry).2.keys = [] := by
  have he : cache.keys = [] := by
    have hl := h.valid.len
    have hz := Nat.le_zero.mp h.len_le
    rw [hz] at hl
    rw [Cache.keys, Table.keys, List.length_eq_zero_iff.mp hl.symm]
    rfl
  obtain ⟨hs, -, hk⟩ := evictForGenerationInsert_spec h.valid h.generation key.snapshotGeneration
  rw [Cache.insertEntry]
  dsimp only
  rw [if_pos (hs.capacity.trans h.capacity_eq)]
  refine ⟨?_, ?_⟩
  · show (cache.evictForGenerationInsert functions key.snapshotGeneration).1 = []
    rw [hk, he]
    rfl
  · show (Table.clear _).keys = []
    rw [Table.keys, CuckooTable.iter_clear]
    rfl

end

/-- **The prefetch cache is an exact bounded map**, for all hash functions, every capacity
and every sequence of operations.  Each stored key sits in one of its two buckets, keys are
distinct, the length is the number of occupied buckets and within the capacity, and all entries
belong to one generation.  Stored keys are hits, and hits have what was inserted last.  An
insertion at a positive capacity conserves keys; without capacity it stores nothing and reports
nothing. -/
theorem prefetch_cache_is_exact (functions : Functions S R) (capacity : ℕ)
    (operations : List (Operation S R)) :
    (∀ index k e, CuckooTable.slot (run functions capacity operations).entries.buckets index
        = some (k, e) →
      CuckooTable.IsHome functions.hashing
        (run functions capacity operations).entries.buckets.length index k)
    ∧ (run functions capacity operations).keys.Nodup
    ∧ (run functions capacity operations).entries.len
      = (run functions capacity operations).entries.buckets.countP Option.isSome
    ∧ (run functions capacity operations).entries.len ≤ capacity
    ∧ (∀ k ∈ (run functions capacity operations).keys,
      ∀ k' ∈ (run functions capacity operations).keys,
      k.snapshotGeneration = k'.snapshotGeneration)
    ∧ (∀ key ∈ (run functions capacity operations).keys,
      ((run functions capacity operations).get functions key).1.isSome)
    ∧ (∀ key hit, ((run functions capacity operations).get functions key).1 = some hit →
      ∃ value, lastInsert functions operations key = some value ∧ hit.scores = value.1
        ∧ hit.resultHash = valueHash functions key value.1 value.2)
    ∧ (∀ key hit, ((run functions capacity operations).getResult functions key).1 = some hit →
      ∃ scores, lastInsert functions operations key = some (scores, some hit.result)
        ∧ hit.resultHash = functions.pprPrefetchPageRankResultHash key hit.result)
    ∧ (∀ key scores, 0 < capacity → Conserves (run functions capacity operations) key
      ((run functions capacity operations).insert functions key scores))
    ∧ (∀ key result, 0 < capacity → Conserves (run functions capacity operations) key
      ((run functions capacity operations).insertResult functions key result))
    ∧ (capacity = 0 → ∀ key scores,
      ((run functions capacity operations).insert functions key scores).1.evicted = []
        ∧ ((run functions capacity operations).insert functions key scores).2.keys = [])
    ∧ (capacity = 0 → ∀ key result,
      ((run functions capacity operations).insertResult functions key result).1.evicted = []
        ∧ ((run functions capacity operations).insertResult functions key result).2.keys = []) := by
  have hi := inv_run functions capacity operations
  refine ⟨fun index k e hs => hi.valid.placed index _ hs, hi.valid.nodup, ?_,
    hi.len_le, ?_, fun key => hi.get_isSome, fun key hit => hi.get_value,
    fun key hit => hi.getResult_value,
    fun key scores hp => hi.conserves hp key _,
    fun key result hp => hi.conserves hp key _, ?_, ?_⟩
  · rw [hi.valid.len, Table.iter, CuckooTable.stored, List.length_filterMap_eq_countP]
    rfl
  · intro k hk k' hk'
    have hb := (hi.generation k hk).symm.trans (hi.generation k' hk')
    exact Option.some.inj hb
  · rintro rfl key scores
    exact hi.drawn.insertEntry_zero key _
  · rintro rfl key result
    exact hi.drawn.insertEntry_zero key _

/-- Hash functions under which all keys have the same two buckets, and score vectors that are
numbers. -/
def sampleFunctions : Functions ℕ ℕ :=
  { hashing := ⟨fun _ => 0, fun _ => 0⟩
    pprPrefetchResultHash := fun _ _ => "blake3:scores"
    pprPrefetchPageRankResultHash := fun _ _ => "blake3:result"
    resultScores := id }

/-- Without capacity the new key is neither stored nor reported. -/
theorem zero_capacity_reports_nothing :
    ¬ ∀ (functions : Functions ℕ ℕ) (capacity : ℕ) (operations : List (Operation ℕ ℕ))
      (key : PprPrefetchCacheKey) (scores : ℕ),
      Conserves (run functions capacity operations) key
        ((run functions capacity operations).insert functions key scores) := by
  intro h
  have hz := (h sampleFunctions 0 [] ⟨"seed", 1⟩ 7).1 ⟨"seed", 1⟩
  have hn : ⟨"seed", 1⟩ ∉
        ((run sampleFunctions 0 []).insert sampleFunctions ⟨"seed", 1⟩ 7).2.keys
      ∧ ⟨"seed", 1⟩ ∉
        ((run sampleFunctions 0 []).insert sampleFunctions ⟨"seed", 1⟩ 7).1.evicted := by
    decide +kernel
  rcases hz.mp (.inl rfl) with hin | hin
  · exact hn.1 hin
  · exact hn.2 hin

end PprPrefetchCache
