/-
# What the prefetch cache evicts

Access numbers count the uses: as long as the counter does not wrap, the number of an entry is the
place of its last use, and the entry with the smallest number is the one whose last use is longest
ago.  An insertion evicts that entry when the cache is full, and otherwise only the key that
displacements carry out.
-/
import EideticEngine.PrefetchCacheRuns

namespace PprPrefetchCache

open CuckooTable (Hashing Table)

variable {S R : Type*} {functions : Functions S R} {cache : Cache S R}
  {key : PprPrefetchCacheKey} {uses : List PprPrefetchCacheKey}

/-! ## Uses -/

/-- The key that an operation uses: the one that it inserts, or the one that it hits. -/
def Cache.used (functions : Functions S R) (cache : Cache S R) :
    Operation S R → List PprPrefetchCacheKey
  | .insert key _ => [key]
  | .insertResult key _ => [key]
  | .get key => if (cache.get functions key).1.isSome then [key] else []
  | .getResult key => if (cache.getResult functions key).1.isSome then [key] else []
  | .invalidateGenerationsExcept _ => []

/-- The keys that operations use, in their order. -/
def usesFrom (functions : Functions S R) :
    Cache S R → List (Operation S R) → List PprPrefetchCacheKey
  | _, [] => []
  | cache, operation :: operations =>
    cache.used functions operation
      ++ usesFrom functions (cache.apply functions operation) operations

theorem usesFrom_concat (functions : Functions S R) (cache : Cache S R)
    (os : List (Operation S R)) (o : Operation S R) :
    usesFrom functions cache (os ++ [o]) = usesFrom functions cache os
        ++ (os.foldl (Cache.apply functions) cache).used functions o := by
  induction os generalizing cache with
  | nil =>
    rw [List.nil_append, usesFrom, usesFrom, usesFrom, List.append_nil]
    rfl
  | cons first os ih =>
    rw [List.cons_append, usesFrom, ih, usesFrom, List.append_assoc]
    rfl

/-- The keys that are used in a run of the cache. -/
def usesOf (functions : Functions S R) (capacity : ℕ) (operations : List (Operation S R)) :
    List PprPrefetchCacheKey :=
  usesFrom functions (.new capacity) operations

/-! ## Access numbers -/

/-- The last use of the key is the one with this number. -/
def LastUse (uses : List PprPrefetchCacheKey) (key : PprPrefetchCacheKey) (number : ℕ) : Prop :=
  ∃ before after, uses = before ++ key :: after ∧ key ∉ after ∧ number = before.length + 1

theorem LastUse.concat_of_ne {k : PprPrefetchCacheKey} {number : ℕ} (h : LastUse uses k number)
    (hne : k ≠ key) : LastUse (uses ++ [key]) k number := by
  obtain ⟨b, after, rfl, hl, hn⟩ := h
  refine ⟨b, after ++ [key], by rw [List.append_assoc]; rfl, ?_, hn⟩
  intro hm
  rcases List.mem_append.mp hm with hm | hm
  · exact hl hm
  · exact hne (List.mem_singleton.mp hm)

theorem lastUse_concat (uses : List PprPrefetchCacheKey) (key : PprPrefetchCacheKey) :
    LastUse (uses ++ [key]) key (uses.length + 1) :=
  ⟨uses, [], rfl, List.not_mem_nil, rfl⟩

/-- The counter counts the uses, and entries have the numbers of their last uses. -/
structure Numbered (cache : Cache S R) (uses : List PprPrefetchCacheKey) : Prop where
  sequence : cache.accessSequence = uses.length
  lastUse : ∀ k e, (k, e) ∈ cache.entries.iter → LastUse uses k e.lastUsed

theorem Numbered.nextAccessSequence (h : Numbered cache uses) (hb : uses.length + 1 < 2 ^ 64) :
    cache.nextAccessSequence = uses.length + 1 := by
  rw [Cache.nextAccessSequence, h.sequence, u64Max]
  omega

theorem Numbered.drawn_sequence (h : Numbered cache uses) (hb : uses.length + 1 < 2 ^ 64) :
    cache.drawn.accessSequence = (uses ++ [key]).length := by
  rw [Cache.drawn, h.sequence, List.length_append, List.length_singleton]
  exact Nat.mod_eq_of_lt hb

/-- A hit. -/
theorem Numbered.touch (hv : cache.entries.Valid functions.hashing) (h : Numbered cache uses)
    (hb : uses.length + 1 < 2 ^ 64) (key : PprPrefetchCacheKey) :
    Numbered (cache.touch functions key) (uses ++ [key]) where
  sequence := h.drawn_sequence hb
  lastUse := by
    intro k e hm
    obtain ⟨-, hp, -, -⟩ := hv.update key fun en => { en with lastUsed := cache.nextAccessSequence }
    obtain ⟨s, hs, heq⟩ := List.mem_map.mp (hp.mem_iff.mp hm)
    split at heq
    · rename_i hk
      cases heq
      rw [← hk, h.nextAccessSequence hb]
      exact lastUse_concat uses s.1
    · rename_i hk
      cases heq
      exact (h.lastUse k e hs).concat_of_ne hk

/-- An insertion. -/
theorem Numbered.insertEntry {c : ℕ} {inserted : PprPrefetchCacheKey → Option (S × Option R)}
    {en : PprPrefetchCacheEntry S R} (hinv : Inv functions c cache inserted)
    (hpo : 0 < c) (h : Numbered cache uses) (hb : uses.length + 1 < 2 ^ 64)
    (he : en.lastUsed = cache.nextAccessSequence) :
    Numbered (cache.drawn.insertEntry functions key en).2 (uses ++ [key]) := by
  have hd := hinv.drawn
  obtain ⟨v, hi⟩ := insertEntry_spec hd.valid hd.generation
    (hd.capacity_eq ▸ hd.len_le) (hd.capacity_eq ▸ hpo) key en
  refine ⟨?_, ?_⟩
  · rw [hi.accessSequence]
    exact h.drawn_sequence hb
  · intro k e hm
    have hin := hi.iter.mem_iff.mp (List.mem_append_right _ hm)
    rcases List.mem_cons.mp hin with heq | ho
    · cases heq
      rw [he, h.nextAccessSequence hb]
      exact lastUse_concat uses _
    · obtain ⟨hs, hp⟩ := List.mem_filter.mp ho
      exact (h.lastUse k e hs).concat_of_ne (of_decide_eq_true hp).2.2

/-- **Every operation keeps the numbers.** -/
theorem Numbered.apply {c : ℕ} {inserted : PprPrefetchCacheKey → Option (S × Option R)}
    (hi : Inv functions c cache inserted) (hp : 0 < c) (h : Numbered cache uses)
    (o : Operation S R)
    (hb : (uses ++ cache.used functions o).length < 2 ^ 64) :
    Numbered (cache.apply functions o) (uses ++ cache.used functions o) := by
  have ho : ∀ k, (uses ++ [k]).length < 2 ^ 64 → uses.length + 1 < 2 ^ 64 := by
    intro k hk
    rw [List.length_append, List.length_singleton] at hk
    exact hk
  cases o with
  | insert key ss => exact h.insertEntry hi hp (ho key hb) rfl
  | insertResult key r => exact h.insertEntry hi hp (ho key hb) rfl
  | get key =>
    rw [Cache.used] at hb ⊢
    rw [Cache.apply]
    rcases get_cases functions cache key with heq | ⟨hs, heq⟩
    · rw [heq, Option.isSome_none, if_neg Bool.false_ne_true, List.append_nil]
      exact h
    · rw [if_pos hs] at hb ⊢
      rw [heq]
      exact h.touch hi.valid (ho key hb) key
  | getResult key =>
    rw [Cache.used] at hb ⊢
    rw [Cache.apply]
    rcases getResult_cases functions cache key with heq | ⟨hs, heq⟩
    · rw [heq, Option.isSome_none, if_neg Bool.false_ne_true, List.append_nil]
      exact h
    · rw [if_pos hs] at hb ⊢
      rw [heq]
      exact h.touch hi.valid (ho key hb) key
  | invalidateGenerationsExcept sg =>
    have hv : ({ cache with liveGeneration := some sg } :
        Cache S R).entries.Valid functions.hashing := hi.valid
    obtain ⟨hke, -⟩ := keeps_removeGenerationsExcept hv sg
    rw [Cache.used, List.append_nil]
    refine ⟨hke.accessSequence.trans h.sequence, fun k e hm => ?_⟩
    exact h.lastUse k e (List.mem_filter.mp (hke.iter.mem_iff.mp hm)).1

/-- **The numbers hold in every run** in which the counter does not wrap. -/
theorem numbered_run (functions : Functions S R) {c : ℕ} (hp : 0 < c) (os : List (Operation S R))
    (hb : (usesOf functions c os).length < 2 ^ 64) :
    Numbered (run functions c os) (usesOf functions c os) := by
  induction os using List.reverseRecOn with
  | nil =>
    refine ⟨rfl, fun k e hm => ?_⟩
    have hn : (run functions c []).entries.iter = [] := CuckooTable.iter_new _
    rw [hn] at hm
    cases hm
  | append_singleton os o ih =>
    have hc : usesOf functions c (os ++ [o]) = usesOf functions c os
          ++ (run functions c os).used functions o :=
      usesFrom_concat _ _ _ _
    rw [hc] at hb ⊢
    rw [run_concat]
    refine (ih ?_).apply (inv_run functions c os) hp o hb
    rw [List.length_append] at hb
    omega

/-! ## The least recently used entry -/

/-- All other stored keys were used after the last use of the key. -/
def LeastRecentlyUsed (cache : Cache S R) (uses : List PprPrefetchCacheKey)
    (key : PprPrefetchCacheKey) : Prop :=
  key ∈ cache.keys ∧ ∃ before after, uses = before ++ key :: after ∧ key ∉ after
    ∧ ∀ other ∈ cache.keys, other ≠ key → other ∈ after

/-- **The victim is the least recently used entry.** -/
theorem Numbered.leastRecentlyUsed (h : Numbered cache uses) (hv : IsVictim cache key) :
    LeastRecentlyUsed cache uses key := by
  obtain ⟨e, hm, hl⟩ := hv
  obtain ⟨b, after, hu, hla, hn⟩ := h.lastUse key e hm
  refine ⟨List.mem_map_of_mem hm, b, after, hu, hla, ?_⟩
  intro other ho hne
  obtain ⟨s, hs, rfl⟩ := List.mem_map.mp ho
  obtain ⟨b', a', hu', -, hn'⟩ := h.lastUse s.1 s.2 hs
  have hle : b.length ≤ b'.length := by
    have hc := hl s hs
    rw [victimCmp] at hc
    have hst : ¬ s.2.lastUsed < e.lastUsed := by
      intro hlt
      have hgt : compare e.lastUsed s.2.lastUsed = .gt := Nat.compare_eq_gt.mpr hlt
      rw [hgt] at hc
      exact hc rfl
    omega
  -- The other key stands in the uses at a later place.
  have hat : uses[b'.length]? = some s.1 := by
    rw [hu']
    simp
  rw [hu, List.getElem?_append_right hle] at hat
  cases hp : b'.length - b.length with
  | zero =>
    rw [hp, List.getElem?_cons_zero] at hat
    exact absurd (Option.some.inj hat).symm hne
  | succ place =>
    rw [hp, List.getElem?_cons_succ] at hat
    exact List.mem_of_getElem? hat

/-- What an insertion evicts when displacements carry `dropped` out: apart from it and from other
generations, only the least recently used entry of a full cache.  The key carried out is the
inserted one or was stored before; it is reported and no longer stored. -/
structure EvictsLeastRecentlyUsed (cache : Cache S R) (uses : List PprPrefetchCacheKey)
    (key : PprPrefetchCacheKey) (dropped : Option PprPrefetchCacheKey)
    (result : PprPrefetchCacheInsert × Cache S R) : Prop where
  stored : key ∈ result.2.keys ↔ dropped ≠ some key
  evicted : ∀ k ∈ result.1.evicted, k.snapshotGeneration = key.snapshotGeneration →
    dropped = some k ∨ cache.entries.len = cache.capacity ∧ LeastRecentlyUsed cache uses k
  carriedOut : ∀ k, dropped = some k →
    (k = key ∨ k ∈ cache.keys) ∧ k ∈ result.1.evicted ∧ k ∉ result.2.keys

theorem evictsLeastRecentlyUsed {c : ℕ} {inserted : PprPrefetchCacheKey → Option (S × Option R)}
    (hin : Inv functions c cache inserted) (hp : 0 < c) (h : Numbered cache uses)
    (key : PprPrefetchCacheKey) (en : PprPrefetchCacheEntry S R) :
    EvictsLeastRecentlyUsed cache uses key ((cache.drawn.displaced functions key en).map Prod.fst)
      (cache.drawn.insertEntry functions key en) := by
  have hd := hin.drawn
  obtain ⟨v, hi⟩ := insertEntry_spec hd.valid hd.generation
    (hd.capacity_eq ▸ hd.len_le) (hd.capacity_eq ▸ hp) key en
  have hc : ∀ k, k ∈ (cache.drawn.displaced functions key en).toList.map Prod.fst
      ↔ (cache.drawn.displaced functions key en).map Prod.fst = some k := by
    intro k
    cases cache.drawn.displaced functions key en with
    | none => exact ⟨nofun, nofun⟩
    | some s =>
      rw [Option.toList_some, List.map_singleton, List.mem_singleton, Option.map_some,
        Option.some_inj]
      exact eq_comm
  -- No key is both carried out and stored.
  have hgone : ∀ k, k ∈ (cache.drawn.displaced functions key en).toList.map Prod.fst →
      k ∉ (cache.drawn.insertEntry functions key en).2.keys := by
    intro k hdr ha
    exact (List.nodup_append.mp (hi.nodup hd.valid)).2.2 k hdr k ha rfl
  refine ⟨?_, fun k hk hg => ?_, fun k hk => ?_⟩
  · rw [Ne, ← hc]
    constructor
    · intro ha hdr
      exact hgone key hdr ha
    · intro hke
      exact ((hi.mem_iff key).mpr (.inl rfl)).resolve_left hke
  · rw [hi.evicted, List.mem_append, List.mem_append] at hk
    rcases hk with (hs | hv) | hdr
    · exact absurd hg (of_decide_eq_true (List.mem_filter.mp hs).2)
    · obtain ⟨-, hf, -, hl⟩ := hi.victim k (Option.mem_toList.mp hv)
      exact .inr ⟨hf, h.leastRecentlyUsed hl⟩
    · exact .inl ((hc k).mp hdr)
  · have hdr := (hc k).mpr hk
    refine ⟨((hi.mem_iff k).mp (.inl hdr)).imp_right fun ho => ho.1, ?_, hgone k hdr⟩
    rw [hi.evicted]
    exact List.mem_append_right _ hdr

/-- **The prefetch cache keeps what was just inserted and evicts the least recently used entry**,
apart from the key that displacements carry out: for every positive capacity, all hash functions
and every sequence of operations in which the access counter does not wrap. -/
theorem prefetch_cache_evicts_least_recently_used (functions : Functions S R) (capacity : ℕ)
    (hpos : 0 < capacity) (operations : List (Operation S R))
    (hbound : (usesOf functions capacity operations).length < 2 ^ 64)
    (key : PprPrefetchCacheKey) :
    (∀ scores, EvictsLeastRecentlyUsed (run functions capacity operations)
      (usesOf functions capacity operations) key
      (((run functions capacity operations).drawn.displaced functions key
        ((run functions capacity operations).scoresEntry functions key scores)).map Prod.fst)
      ((run functions capacity operations).insert functions key scores))
    ∧ ∀ result, EvictsLeastRecentlyUsed (run functions capacity operations)
      (usesOf functions capacity operations) key
      (((run functions capacity operations).drawn.displaced functions key
        ((run functions capacity operations).resultEntry functions key result)).map Prod.fst)
      ((run functions capacity operations).insertResult functions key result) := by
  have hi := inv_run functions capacity operations
  have hn := numbered_run functions hpos operations hbound
  refine ⟨fun scores => ?_, fun result => ?_⟩
  · exact evictsLeastRecentlyUsed hi hpos hn key _
  · exact evictsLeastRecentlyUsed hi hpos hn key _

/-- A full cache of two entries: the one that was not hit goes. -/
theorem prefetch_cache_evicts_least_recently_used_sample :
    ((run sampleFunctions 2 [.insert ⟨"a", 1⟩ 1, .insert ⟨"b", 1⟩ 2, .get ⟨"a", 1⟩]).insert
        sampleFunctions ⟨"c", 1⟩ 3).1.evicted = [⟨"b", 1⟩]
      ∧ LeastRecentlyUsed
        (run sampleFunctions 2 [.insert ⟨"a", 1⟩ 1, .insert ⟨"b", 1⟩ 2, .get ⟨"a", 1⟩])
        (usesOf sampleFunctions 2 [.insert ⟨"a", 1⟩ 1, .insert ⟨"b", 1⟩ 2, .get ⟨"a", 1⟩])
        ⟨"b", 1⟩ := by
  have hr : ((run sampleFunctions 2
        [.insert ⟨"a", 1⟩ 1, .insert ⟨"b", 1⟩ 2, .get ⟨"a", 1⟩]).insert
        sampleFunctions ⟨"c", 1⟩ 3).1.evicted = [⟨"b", 1⟩] := by
    decide +kernel
  have hn : (((run sampleFunctions 2
        [.insert ⟨"a", 1⟩ 1, .insert ⟨"b", 1⟩ 2, .get ⟨"a", 1⟩]).drawn.displaced sampleFunctions
        ⟨"c", 1⟩ ((run sampleFunctions 2
          [.insert ⟨"a", 1⟩ 1, .insert ⟨"b", 1⟩ 2, .get ⟨"a", 1⟩]).scoresEntry sampleFunctions
          ⟨"c", 1⟩ 3)).map Prod.fst) ≠ some ⟨"b", 1⟩ := by
    decide +kernel
  have hs := (prefetch_cache_evicts_least_recently_used sampleFunctions 2 (by decide)
    [.insert ⟨"a", 1⟩ 1, .insert ⟨"b", 1⟩ 2, .get ⟨"a", 1⟩] (by decide +kernel) ⟨"c", 1⟩).1 3
  refine ⟨hr, ((hs.evicted ⟨"b", 1⟩ ?_ rfl).resolve_left hn).2⟩
  rw [hr]
  exact List.mem_singleton.mpr rfl

/-- Three keys with the same two buckets: the third is carried out, although there is room. -/
theorem displacements_drop_the_inserted_key :
    ¬ ∀ (functions : Functions ℕ ℕ) (capacity : ℕ), 0 < capacity →
      ∀ (operations : List (Operation ℕ ℕ)) (key : PprPrefetchCacheKey) (scores : ℕ),
      key ∈ ((run functions capacity operations).insert functions key scores).2.keys
      ∧ ∀ k ∈ ((run functions capacity operations).insert functions key scores).1.evicted,
        k.snapshotGeneration = key.snapshotGeneration →
        (run functions capacity operations).entries.len = capacity
          ∧ LeastRecentlyUsed (run functions capacity operations)
            (usesOf functions capacity operations) k := by
  intro h
  have hs := (h sampleFunctions 3 (by decide)
    [.insert ⟨"a", 1⟩ 1, .insert ⟨"b", 1⟩ 2] ⟨"c", 1⟩ 3).1
  have hl : ⟨"c", 1⟩ ∉ ((run sampleFunctions 3
      [.insert ⟨"a", 1⟩ 1, .insert ⟨"b", 1⟩ 2]).insert sampleFunctions ⟨"c", 1⟩ 3).2.keys := by
    decide +kernel
  exact hl hs

end PprPrefetchCache
