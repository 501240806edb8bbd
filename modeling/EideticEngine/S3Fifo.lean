/-
# The S3-FIFO admission policy

`src/cache/mod.rs` keeps cached values in one map and their keys in two FIFO queues: new
keys enter the `small` queue, keys that were read again are promoted to `main`, and keys
evicted unread are remembered in the bounded `ghost` queue, from which they are admitted
straight to `main`.  Both eviction loops may put back what they pop.

* `S3FifoCache` : the three queues, the map and the statistics;
* `admitLoop`, `evictLoop` : the `while` loops of `put` and `enforce_capacity`;
* `Filed` : the queues hold exactly the cached keys, and keys still to be inserted.

The head of a list is the front of the queue, so `push_front` is `cons` and `pop_back`
takes the last element.
-/
import EideticEngine.BoundedLoop
import EideticEngine.MachineInt
import Mathlib.Data.List.AList
import Mathlib.Tactic

namespace S3Fifo

/-! ## The cache -/

/-- Counters of a policy; they saturate at the largest `u64`. -/
structure CacheStats where
  hits : ℕ := 0
  misses : ℕ := 0
  evictions : ℕ := 0
  promotions : ℕ := 0
  deriving DecidableEq, Repr

namespace CacheStats

def recordHit (stats : CacheStats) : CacheStats :=
  { stats with hits := satAdd64 stats.hits 1 }

def recordMiss (stats : CacheStats) : CacheStats :=
  { stats with misses := satAdd64 stats.misses 1 }

def recordEviction (stats : CacheStats) : CacheStats :=
  { stats with evictions := satAdd64 stats.evictions 1 }

def recordPromotion (stats : CacheStats) : CacheStats :=
  { stats with promotions := satAdd64 stats.promotions 1 }

end CacheStats

/-- A cached value and how often it was touched since it was admitted. -/
structure S3Entry (V : Type*) where
  value : V
  accessCount : ℕ
  deriving DecidableEq, Repr

namespace S3Entry

variable {V : Type*}

/-- `access_count.saturating_add(1).min(3)` on a `u8`. -/
def touch (entry : S3Entry V) : S3Entry V :=
  { entry with accessCount := min (min (entry.accessCount + 1) 255) 3 }

end S3Entry

/-- The cache of capacity `capacity`. -/
structure S3FifoCache (K V : Type*) where
  capacity : ℕ
  smallCapacity : ℕ
  ghostCapacity : ℕ
  small : List K
  main : List K
  ghost : List K
  entries : AList fun _ : K => S3Entry V
  stats : CacheStats

namespace S3FifoCache

variable {K V : Type*}

/-- An empty cache; a requested capacity of zero is raised to one. -/
def new (capacity : ℕ) : S3FifoCache K V :=
  { capacity := max capacity 1
    smallCapacity := max (max capacity 1 / 10) 1
    ghostCapacity := max capacity 1
    small := []
    main := []
    ghost := []
    entries := ∅
    stats := {} }

/-- The number of entries. -/
def len (c : S3FifoCache K V) : ℕ := c.entries.keys.length

/-- Remember an evicted key, forgetting the oldest one when the ghost queue is full. -/
def pushGhost (c : S3FifoCache K V) (key : K) : S3FifoCache K V :=
  { c with
    ghost := key :: if c.ghostCapacity ≤ c.ghost.length then c.ghost.dropLast else c.ghost }

variable [DecidableEq K]

/-- `VecDeque::remove` at the first position of `key`, if there is one. -/
def removeFirst (key : K) (queue : List K) : List K :=
  match queue.idxOf? key with
  | some index => queue.eraseIdx index
  | none => queue

def containsGhost (c : S3FifoCache K V) (key : K) : Bool :=
  c.ghost.any (· == key)

def removeGhost (c : S3FifoCache K V) (key : K) : S3FifoCache K V :=
  { c with ghost := removeFirst key c.ghost }

/-- What both loops do with a key popped from the small queue: an entry that was read is
promoted to the main queue as `kept`, an unread one is evicted to the ghost queue. -/
def retireSmall (kept : S3Entry V → S3Entry V) (c : S3FifoCache K V) (key : K) :
    S3FifoCache K V :=
  match c.entries.lookup key with
  | some entry =>
    if 0 < entry.accessCount then
      { c with
        main := key :: c.main
        entries := (c.entries.erase key).insert key (kept entry)
        stats := c.stats.recordPromotion }
    else
      { ({ c with entries := c.entries.erase key } : S3FifoCache K V).pushGhost key with
        stats := c.stats.recordEviction }
  | none => c

/-- What `enforce_capacity` does with a key popped from the main queue: an entry that was
read goes back to the front with one chance less, an unread one is evicted. -/
def retireMain (c : S3FifoCache K V) (key : K) : S3FifoCache K V :=
  match c.entries.lookup key with
  | some entry =>
    if 0 < entry.accessCount then
      { c with
        main := key :: c.main
        entries := (c.entries.erase key).insert key
          { entry with accessCount := entry.accessCount - 1 } }
    else
      { c with
        entries := c.entries.erase key
        stats := c.stats.recordEviction }
  | none => c

/-- One round of the loop of `enforce_capacity`. -/
def evictStep (c : S3FifoCache K V) : S3FifoCache K V ⊕ S3FifoCache K V :=
  if c.capacity < c.len then
    match c.small.getLast? with
    | some key =>
      .inl (retireSmall (fun entry => { entry with accessCount := 0 })
        { c with small := c.small.dropLast } key)
    | none =>
      match c.main.getLast? with
      | some key => .inl (retireMain { c with main := c.main.dropLast } key)
      | none => .inr c
  else .inr c

/-- One round of the loop of `put`, which makes room in the small queue. -/
def admitStep (c : S3FifoCache K V) : S3FifoCache K V ⊕ S3FifoCache K V :=
  if c.smallCapacity < c.small.length ∧ c.capacity ≤ c.len then
    match c.small.getLast? with
    | some evicted => .inl (retireSmall id { c with small := c.small.dropLast } evicted)
    | none => .inl c
  else .inr c

/-! ## Both loops end -/

/-- The chances that a key has left: the access count of its entry. -/
def credit (entries : AList fun _ : K => S3Entry V) (key : K) : ℕ :=
  (entries.lookup key).elim 0 S3Entry.accessCount

/-- The chances that the keys of a queue have left, one more for each key. -/
def chances (entries : AList fun _ : K => S3Entry V) (queue : List K) : ℕ :=
  (queue.map fun key => credit entries key + 1).sum

theorem credit_erase_le (entries : AList fun _ : K => S3Entry V) (key k : K) :
    credit (entries.erase key) k ≤ credit entries k := by
  unfold credit
  by_cases h : k = key
  · rw [h, AList.lookup_erase]
    exact Nat.zero_le _
  · rw [AList.lookup_erase_ne h]

theorem credit_insert_self (entries : AList fun _ : K => S3Entry V) (key : K)
    (en : S3Entry V) : credit (entries.insert key en) key = en.accessCount := by
  rw [credit, AList.lookup_insert]
  rfl

/-- Putting an entry back with no more chances than it had gives no key more chances. -/
theorem credit_reinsert_le {entries : AList fun _ : K => S3Entry V} {key : K}
    (en : S3Entry V) (hle : en.accessCount ≤ credit entries key) (k : K) :
    credit ((entries.erase key).insert key en) k ≤ credit entries k := by
  by_cases h : k = key
  · rw [h, credit_insert_self]
    exact hle
  · unfold credit
    rw [AList.lookup_insert_ne h, AList.lookup_erase_ne h]

theorem chances_mono {entries es' : AList fun _ : K => S3Entry V}
    (h : ∀ k, credit es' k ≤ credit entries k) (qu : List K) :
    chances es' qu ≤ chances entries qu := by
  apply List.sum_le_sum
  intro k _
  exact Nat.succ_le_succ (h k)

theorem chances_cons (entries : AList fun _ : K => S3Entry V) (key : K) (qu : List K) :
    chances entries (key :: qu) = credit entries key + 1 + chances entries qu := by
  rw [chances, List.map_cons, List.sum_cons]
  rfl

theorem chances_concat (entries : AList fun _ : K => S3Entry V) (key : K) (qu : List K) :
    chances entries (qu ++ [key]) = chances entries qu + (credit entries key + 1) := by
  simp [chances]

/-- The measure of the eviction loop: a round takes a key from the small queue, which may
reach the main queue without chances, or takes a chance or a key from the main queue. -/
def evictionMeasure (c : S3FifoCache K V) : ℕ :=
  2 * c.small.length + chances c.entries c.main

/-- A key that leaves the small queue does not come back to it. -/
theorem retireSmall_small (k : S3Entry V → S3Entry V) (c : S3FifoCache K V) (key : K) :
    (retireSmall k c key).small = c.small := by
  unfold retireSmall
  split
  · split <;> rfl
  · rfl

/-- A promotion without chances costs the main queue one unit of the measure. -/
theorem chances_retireSmall_le (c : S3FifoCache K V) (key : K) :
    chances (retireSmall (fun en => { en with accessCount := 0 }) c key).entries
      (retireSmall (fun en => { en with accessCount := 0 }) c key).main
      ≤ chances c.entries c.main + 1 := by
  unfold retireSmall
  split
  · rename_i en _
    split
    · have hm := chances_mono (credit_reinsert_le { en with accessCount := 0 }
        (Nat.zero_le (credit c.entries key))) c.main
      simp only [chances_cons, credit_insert_self]
      omega
    · have hm := chances_mono (credit_erase_le c.entries key) c.main
      exact Nat.le_succ_of_le hm
  · exact Nat.le_succ _

theorem retireMain_small (c : S3FifoCache K V) (key : K) :
    (retireMain c key).small = c.small := by
  unfold retireMain
  split
  · split <;> rfl
  · rfl

/-- A key popped from the main queue comes back with a chance less, or not at all. -/
theorem chances_retireMain_le (c : S3FifoCache K V) (key : K) :
    chances (retireMain c key).entries (retireMain c key).main
      ≤ chances c.entries c.main + credit c.entries key := by
  unfold retireMain
  split
  · rename_i en he
    have hc : credit c.entries key = en.accessCount := by rw [credit, he]; rfl
    split
    · rename_i hp
      have hm := chances_mono (credit_reinsert_le { en with accessCount := en.accessCount - 1 }
        (show en.accessCount - 1 ≤ credit c.entries key by omega)) c.main
      simp only [chances_cons, credit_insert_self]
      omega
    · have hm := chances_mono (credit_erase_le c.entries key) c.main
      exact Nat.le_add_right_of_le hm
  · exact Nat.le_add_right _ _

/-- Every round of `enforce_capacity` that continues decreases the measure. -/
theorem evictionMeasure_lt {c c' : S3FifoCache K V} (h : evictStep c = .inl c') :
    evictionMeasure c' < evictionMeasure c := by
  unfold evictStep at h
  split at h
  · split at h
    · rename_i key hk
      obtain rfl := Sum.inl.inj h
      have hl := congrArg List.length (List.dropLast_append_getLast? key hk)
      have hm := chances_retireSmall_le { c with small := c.small.dropLast } key
      rw [List.length_append, List.length_singleton] at hl
      rw [evictionMeasure, evictionMeasure, retireSmall_small]
      simp only at hm ⊢
      omega
    · split at h
      · rename_i key hk
        obtain rfl := Sum.inl.inj h
        have hp := List.dropLast_append_getLast? key hk
        have hm := chances_retireMain_le { c with main := c.main.dropLast } key
        have hc := chances_concat c.entries key c.main.dropLast
        rw [hp] at hc
        rw [evictionMeasure, evictionMeasure, retireMain_small]
        simp only at hm ⊢
        omega
      · exact absurd h Sum.inr_ne_inl
  · exact absurd h Sum.inr_ne_inl

/-- Every round of the loop of `put` that continues shortens the small queue. -/
theorem small_length_lt {c c' : S3FifoCache K V} (h : admitStep c = .inl c') :
    c'.small.length < c.small.length := by
  unfold admitStep at h
  split at h
  · rename_i hg
    split at h
    · rename_i key hk
      obtain rfl := Sum.inl.inj h
      have hl := congrArg List.length (List.dropLast_append_getLast? key hk)
      rw [List.length_append, List.length_singleton] at hl
      rw [retireSmall_small]
      simp only
      omega
    · rename_i hn
      -- The guard asks for a key in the small queue, so the last one can be popped.
      rw [List.getLast?_eq_none_iff] at hn
      rw [hn] at hg
      exact absurd hg.1 (Nat.not_lt_zero _)
  · exact absurd h Sum.inr_ne_inl

/-- The loop of `enforce_capacity`. -/
def evictLoop : Loop (S3FifoCache K V) (S3FifoCache K V) where
  step := evictStep
  Inv := fun _ => True
  measure := evictionMeasure
  inv_step := fun _ _ _ _ => trivial
  measure_step := fun _ _ _ h => evictionMeasure_lt h

/-- The loop of `put` that makes room in the small queue. -/
def admitLoop : Loop (S3FifoCache K V) (S3FifoCache K V) where
  step := admitStep
  Inv := fun _ => True
  measure := fun c => c.small.length
  inv_step := fun _ _ _ _ => trivial
  measure_step := fun _ _ _ h => small_length_lt h

/-- Evict until the entries fit the capacity. -/
def enforceCapacity (c : S3FifoCache K V) : S3FifoCache K V :=
  evictLoop.run c trivial

/-- Retire old keys of the small queue while it and the cache are full. -/
def makeRoom (c : S3FifoCache K V) : S3FifoCache K V :=
  admitLoop.run c trivial

/-! ## The operations -/

/-- The value of `key`, which is touched by the read. -/
def get (c : S3FifoCache K V) (key : K) : Option V × S3FifoCache K V :=
  match c.entries.lookup key with
  | some entry =>
    (some entry.value,
      { c with entries := c.entries.insert key entry.touch, stats := c.stats.recordHit })
  | none => (none, { c with stats := c.stats.recordMiss })

/-- Store `value` under `key`. -/
def put (c : S3FifoCache K V) (key : K) (value : V) : S3FifoCache K V :=
  match c.entries.lookup key with
  | some entry =>
    { c with entries := c.entries.insert key { entry.touch with value := value } }
  | none =>
    let admitted :=
      if c.containsGhost key then
        { c.removeGhost key with main := key :: c.main }
      else makeRoom { c with small := key :: c.small }
    enforceCapacity
      { admitted with entries := admitted.entries.insert key { value, accessCount := 0 } }

/-- Forget `key`; the ghost queue is left alone. -/
def remove (c : S3FifoCache K V) (key : K) : Option V × S3FifoCache K V :=
  ((c.entries.lookup key).map S3Entry.value,
    { c with
      small := removeFirst key c.small
      main := removeFirst key c.main
      entries := c.entries.erase key })

/-! ## The queues hold the cached keys -/

/-- **The invariant.**  The queues hold the cached keys, each once.  Between two assignments
of an operation a key may be on its way: the keys of `pending` are queued and not cached
yet, the keys of `held` are cached and popped from their queue.  The ghost queue holds
other keys, at most `cap` of them. -/
structure Filed (cap : ℕ) (pending held : List K) (c : S3FifoCache K V) : Prop where
  keys : (pending ++ c.entries.keys).Perm (held ++ (c.small ++ c.main))
  nodup : (held ++ (c.small ++ c.main)).Nodup
  ghost_nodup : c.ghost.Nodup
  ghost_fresh : ∀ k ∈ c.ghost, k ∉ held ++ (c.small ++ c.main)
  ghost_le : c.ghost.length ≤ cap
  ghost_capacity : c.ghostCapacity = cap
  capacity_eq : c.capacity = cap
  capacity_pos : 0 < cap
  small_pos : 0 < c.smallCapacity

variable {cap : ℕ} {pending held : List K} {c : S3FifoCache K V} {key : K}

omit [DecidableEq K] in
/-- Only the members of the queues matter, not their order or their owner. -/
theorem Filed.move {h' s' m' : List K} {es' : AList fun _ : K => S3Entry V}
    {ss' : CacheStats} (hc : Filed cap pending held c)
    (hke : es'.keys.Perm c.entries.keys)
    (hq : (h' ++ (s' ++ m')).Perm (held ++ (c.small ++ c.main))) :
    Filed cap pending h' { c with small := s', main := m', entries := es', stats := ss' } where
  keys := (hke.append_left pending).trans (hc.keys.trans hq.symm)
  nodup := hq.nodup_iff.mpr hc.nodup
  ghost_nodup := hc.ghost_nodup
  ghost_fresh := fun k hk hm => hc.ghost_fresh k hk (hq.mem_iff.mp hm)
  ghost_le := hc.ghost_le
  ghost_capacity := hc.ghost_capacity
  capacity_eq := hc.capacity_eq
  capacity_pos := hc.capacity_pos
  small_pos := hc.small_pos

omit [DecidableEq K] in
/-- `pop_back` takes one key out of a queue. -/
theorem perm_of_getLast? {qu : List K} (h : qu.getLast? = some key) :
    (key :: qu.dropLast).Perm qu := by
  have hp := List.dropLast_append_getLast? key h
  calc (key :: qu.dropLast).Perm (qu.dropLast ++ [key]) := (List.perm_append_singleton key _).symm
    _ = qu := hp

omit [DecidableEq K] in
theorem Filed.pop_small (hc : Filed cap pending [] c) (h : c.small.getLast? = some key) :
    Filed cap pending [key] { c with small := c.small.dropLast } :=
  hc.move (List.Perm.refl _) ((perm_of_getLast? h).append_right c.main)

omit [DecidableEq K] in
theorem Filed.pop_main (hc : Filed cap pending [] c) (h : c.main.getLast? = some key) :
    Filed cap pending [key] { c with main := c.main.dropLast } := by
  refine hc.move (List.Perm.refl _) ?_
  calc (key :: (c.small ++ c.main.dropLast)).Perm (c.small ++ key :: c.main.dropLast) :=
        List.perm_middle.symm
    (c.small ++ key :: c.main.dropLast).Perm (c.small ++ c.main) :=
        (perm_of_getLast? h).append_left c.small

omit [DecidableEq K] in
/-- A key that was popped is cached, unless it is still to be inserted. -/
theorem Filed.mem_entries (hc : Filed cap pending (key :: held) c) (hk : key ∉ pending) :
    key ∈ c.entries := by
  have hm : key ∈ pending ++ c.entries.keys := hc.keys.mem_iff.mpr (by simp)
  rcases List.mem_append.mp hm with h | h
  · exact absurd h hk
  · exact AList.mem_keys.mpr h

/-- Changing the entry of a cached key keeps the cached keys. -/
theorem keys_insert_perm {entries : AList fun _ : K => S3Entry V} (h : key ∈ entries)
    (en : S3Entry V) : (entries.insert key en).keys.Perm entries.keys := by
  rw [AList.keys_insert]
  exact (List.perm_cons_erase (AList.mem_keys.mp h)).symm

theorem keys_reinsert_perm {entries : AList fun _ : K => S3Entry V} (h : key ∈ entries)
    (en : S3Entry V) : ((entries.erase key).insert key en).keys.Perm entries.keys := by
  have hn := entries.keys_nodup
  rw [AList.keys_insert, AList.keys_erase, List.erase_of_not_mem (List.Nodup.not_mem_erase hn)]
  exact (List.perm_cons_erase (AList.mem_keys.mp h)).symm

/-- A popped key that goes back to the front of the main queue. -/
theorem Filed.requeue {en : S3Entry V} {ss' : CacheStats}
    (hc : Filed cap pending [key] c) (hm : key ∈ c.entries) :
    Filed cap pending [] { c with
        main := key :: c.main
        entries := (c.entries.erase key).insert key en
        stats := ss' } :=
  hc.move (keys_reinsert_perm hm en) List.perm_middle

/-- A popped key that is evicted. -/
theorem Filed.evict {ss' : CacheStats} (hc : Filed cap pending [key] c) (hm : key ∈ c.entries) :
    Filed cap pending [] { c with entries := c.entries.erase key, stats := ss' } where
  keys := by
    have hr : (key :: (pending ++ c.entries.keys.erase key)).Perm (key :: (c.small ++ c.main)) := by
      refine List.Perm.trans ?_ hc.keys
      refine List.perm_middle.symm.trans ?_
      exact (List.perm_cons_erase (AList.mem_keys.mp hm)).symm.append_left pending
    rw [AList.keys_erase]
    exact List.Perm.cons_inv hr
  nodup := (List.nodup_cons.mp hc.nodup).2
  ghost_nodup := hc.ghost_nodup
  ghost_fresh := fun k hk hq => hc.ghost_fresh k hk (List.mem_cons_of_mem key hq)
  ghost_le := hc.ghost_le
  ghost_capacity := hc.ghost_capacity
  capacity_eq := hc.capacity_eq
  capacity_pos := hc.capacity_pos
  small_pos := hc.small_pos

omit [DecidableEq K] in
/-- The ghost queue of a cache that is full drops its oldest key first. -/
theorem Filed.push_ghost (hc : Filed cap pending held c)
    (hq : key ∉ held ++ (c.small ++ c.main)) (hg : key ∉ c.ghost) :
    Filed cap pending held (c.pushGhost key) := by
  have hs : (if c.ghostCapacity ≤ c.ghost.length then c.ghost.dropLast else c.ghost).Sublist
      c.ghost := by
    split
    · exact List.dropLast_sublist _
    · exact List.Sublist.refl _
  refine { hc with ghost_nodup := ?_, ghost_fresh := ?_, ghost_le := ?_ }
  · exact List.nodup_cons.mpr ⟨fun h => hg (hs.mem h), hc.ghost_nodup.sublist hs⟩
  · intro k hk
    rcases List.mem_cons.mp hk with rfl | hk
    · exact hq
    · exact hc.ghost_fresh k (hs.mem hk)
  · have hp := hc.capacity_pos
    have hle := hc.ghost_le
    have hca := hc.ghost_capacity
    rw [pushGhost, List.length_cons]
    split
    · rw [List.length_dropLast]
      omega
    · omega

/-- Retiring a key of the small queue files it in another queue. -/
theorem Filed.retireSmall (k : S3Entry V → S3Entry V) (hc : Filed cap pending [key] c)
    (hk : key ∉ pending) : Filed cap pending [] (retireSmall k c key) := by
  have hm := hc.mem_entries hk
  unfold S3FifoCache.retireSmall
  split
  · split
    · exact hc.requeue hm
    · have hq : key ∉ c.small ++ c.main := (List.nodup_cons.mp hc.nodup).1
      have hg : key ∉ c.ghost := fun h => hc.ghost_fresh key h (by simp)
      have he : Filed cap pending []
          { c with entries := c.entries.erase key, stats := c.stats.recordEviction } :=
        hc.evict hm
      exact he.push_ghost hq hg
  · rename_i hn
    exact absurd hm (AList.lookup_eq_none.mp hn)

/-- Retiring a key of the main queue gives it a second chance or evicts it. -/
theorem Filed.retireMain (hc : Filed cap pending [key] c) (hk : key ∉ pending) :
    Filed cap pending [] (retireMain c key) := by
  have hm := hc.mem_entries hk
  unfold S3FifoCache.retireMain
  split
  · split
    · exact hc.requeue hm
    · exact hc.evict hm
  · rename_i hn
    exact absurd hm (AList.lookup_eq_none.mp hn)

/-- One round of `enforce_capacity`. -/
theorem Filed.evictStep {c' : S3FifoCache K V} (hc : Filed cap [] [] c)
    (h : evictStep c = .inl c') : Filed cap [] [] c' := by
  unfold S3FifoCache.evictStep at h
  split at h
  · split at h
    · rename_i key hk
      obtain rfl := Sum.inl.inj h
      exact (hc.pop_small hk).retireSmall _ List.not_mem_nil
    · split at h
      · rename_i key hk
        obtain rfl := Sum.inl.inj h
        exact (hc.pop_main hk).retireMain List.not_mem_nil
      · exact absurd h Sum.inr_ne_inl
  · exact absurd h Sum.inr_ne_inl

/-- `enforce_capacity` stops when the entries fit, or when no key is left to pop. -/
theorem Filed.len_le_of_evictStep {c' : S3FifoCache K V} (hc : Filed cap [] [] c)
    (h : S3FifoCache.evictStep c = .inr c') : c' = c ∧ c.len ≤ cap := by
  unfold S3FifoCache.evictStep at h
  split at h
  · split at h
    · exact absurd h Sum.inl_ne_inr
    · rename_i hs
      split at h
      · exact absurd h Sum.inl_ne_inr
      · rename_i hm
        have hl := hc.keys.length_eq
        rw [List.getLast?_eq_none_iff] at hs hm
        rw [hs, hm] at hl
        exact ⟨(Sum.inr.inj h).symm, by rw [len]; simp at hl; simp [hl]⟩
  · rename_i hf
    rw [hc.capacity_eq] at hf
    exact ⟨(Sum.inr.inj h).symm, Nat.le_of_not_lt hf⟩

/-- One round of the loop of `put`: the new key stays at the front of the small queue, so
it is never the one that is popped. -/
theorem Filed.admitStep {c' : S3FifoCache K V} (hc : Filed cap [key] [] c)
    (hh : c.small.head? = some key) (h : admitStep c = .inl c') :
    Filed cap [key] [] c' ∧ c'.small.head? = some key := by
  obtain ⟨r, hs⟩ : ∃ r, c.small = key :: r := List.head?_eq_some_iff.mp hh
  unfold S3FifoCache.admitStep at h
  split at h
  · rename_i hg
    have hp := hc.small_pos
    have hr : r ≠ [] := by
      rintro rfl
      rw [hs, List.length_singleton] at hg
      omega
    split at h
    · rename_i old ho
      obtain rfl := Sum.inl.inj h
      have hne : old ∉ [key] := by
        have hno : (key :: r).Nodup := by
          rw [← hs]
          exact List.Nodup.of_append_left hc.nodup
        have hl : old ∈ r := by
          rw [hs, List.getLast?_cons_of_ne_nil hr] at ho
          exact List.mem_of_getLast? ho
        rw [List.mem_singleton]
        rintro rfl
        exact (List.nodup_cons.mp hno).1 hl
      refine ⟨(hc.pop_small ho).retireSmall id hne, ?_⟩
      rw [retireSmall_small]
      simp only
      rw [hs, List.dropLast_cons_of_ne_nil hr]
      rfl
    · rename_i hn
      rw [hs] at hn
      simp at hn
  · exact absurd h Sum.inr_ne_inl

/-! ## The entries hold the values that were put last -/

/-- Every entry has the value that `latest` gives for its key. -/
def Serves (latest : K → Option V) (entries : AList fun _ : K => S3Entry V) : Prop :=
  ∀ k entry, entries.lookup k = some entry → latest k = some entry.value

variable {latest : K → Option V} {entries : AList fun _ : K => S3Entry V}

theorem Serves.erase (h : Serves latest entries) (key : K) : Serves latest (entries.erase key) := by
  intro k en hk
  by_cases hke : k = key
  · rw [hke, AList.lookup_erase] at hk
    exact absurd hk (Option.some_ne_none en).symm
  · rw [AList.lookup_erase_ne hke] at hk
    exact h k en hk

/-- Storing an entry with the latest value of its key. -/
theorem Serves.insert (h : Serves latest entries) {key : K} {en : S3Entry V}
    (he : latest key = some en.value) : Serves latest (entries.insert key en) := by
  intro k e' hk
  by_cases hke : k = key
  · rw [hke, AList.lookup_insert] at hk
    rw [hke, he, Option.some.inj hk]
  · rw [AList.lookup_insert_ne hke] at hk
    exact h k e' hk

/-- Storing an entry with a new value, which becomes the latest one. -/
theorem Serves.store (h : Serves latest entries) (key : K) (en : S3Entry V) :
    Serves (Function.update latest key (some en.value)) (entries.insert key en) := by
  intro k e' hk
  by_cases hke : k = key
  · rw [hke, AList.lookup_insert] at hk
    rw [hke, Function.update_self, Option.some.inj hk]
  · rw [AList.lookup_insert_ne hke] at hk
    rw [Function.update_of_ne hke]
    exact h k e' hk

theorem Serves.retireSmall {k : S3Entry V → S3Entry V}
    (hk : ∀ en, (k en).value = en.value) (h : Serves latest c.entries)
    (key : K) : Serves latest (retireSmall k c key).entries := by
  unfold S3FifoCache.retireSmall
  split
  · rename_i en he
    split
    · refine (h.erase key).insert ?_
      rw [hk]
      exact h key en he
    · exact h.erase key
  · exact h

theorem Serves.retireMain (h : Serves latest c.entries) (key : K) :
    Serves latest (retireMain c key).entries := by
  unfold S3FifoCache.retireMain
  split
  · rename_i en he
    split
    · exact (h.erase key).insert (h key en he)
    · exact h.erase key
  · exact h

/-- An eviction changes no value that stays. -/
theorem Serves.evictStep {c' : S3FifoCache K V} (h : Serves latest c.entries)
    (hs : evictStep c = .inl c') : Serves latest c'.entries := by
  unfold S3FifoCache.evictStep at hs
  split at hs
  · split at hs
    · obtain rfl := Sum.inl.inj hs
      apply Serves.retireSmall
      · intro _
        rfl
      · exact h
    · split at hs
      · obtain rfl := Sum.inl.inj hs
        apply Serves.retireMain
        exact h
      · exact absurd hs Sum.inr_ne_inl
  · exact absurd hs Sum.inr_ne_inl

/-- Admission changes no value that stays. -/
theorem Serves.admitStep {c' : S3FifoCache K V} (h : Serves latest c.entries)
    (hs : admitStep c = .inl c') : Serves latest c'.entries := by
  unfold S3FifoCache.admitStep at hs
  split at hs
  · split at hs
    · obtain rfl := Sum.inl.inj hs
      apply Serves.retireSmall
      · intro _
        rfl
      · exact h
    · obtain rfl := Sum.inl.inj hs
      exact h
  · exact absurd hs Sum.inr_ne_inl

theorem eq_of_admitStep {c' : S3FifoCache K V} (h : S3FifoCache.admitStep c = .inr c') :
    c' = c := by
  unfold S3FifoCache.admitStep at h
  split at h
  · split at h
    · exact absurd h Sum.inl_ne_inr
    · exact absurd h Sum.inl_ne_inr
  · exact (Sum.inr.inj h).symm

/-! ## What the operations keep -/

/-- **The specification of `enforce_capacity`.** -/
theorem enforceCapacity_spec (hc : Filed cap [] [] c) (hv : Serves latest c.entries) :
    Filed cap [] [] (enforceCapacity c) ∧ (enforceCapacity c).len ≤ cap ∧
      Serves latest (enforceCapacity c).entries := by
  refine evictLoop.run_induction (P := fun c => Filed cap [] [] c ∧ Serves latest c.entries)
    (Q := fun c => Filed cap [] [] c ∧ c.len ≤ cap ∧ Serves latest c.entries)
    ?_ ?_ c trivial ⟨hc, hv⟩
  · intro s s' _ hs hst
    exact ⟨hs.1.evictStep hst, hs.2.evictStep hst⟩
  · intro s r _ hs hst
    obtain ⟨rfl, hl⟩ := hs.1.len_le_of_evictStep hst
    exact ⟨hs.1, hl, hs.2⟩

/-- **The specification of the loop of `put`.** -/
theorem makeRoom_spec (hc : Filed cap [key] [] c) (hh : c.small.head? = some key)
    (hv : Serves latest c.entries) :
    Filed cap [key] [] (makeRoom c) ∧ Serves latest (makeRoom c).entries := by
  refine admitLoop.run_induction
    (P := fun c => (Filed cap [key] [] c ∧ c.small.head? = some key) ∧ Serves latest c.entries)
    (Q := fun c => Filed cap [key] [] c ∧ Serves latest c.entries)
    ?_ ?_ c trivial ⟨⟨hc, hh⟩, hv⟩
  · intro s s' _ hs hst
    exact ⟨hs.1.1.admitStep hs.1.2 hst, hs.2.admitStep hst⟩
  · intro s r _ hs hst
    obtain rfl := eq_of_admitStep hst
    exact ⟨hs.1.1, hs.2⟩

/-- Inserting the key that is pending. -/
theorem Filed.insert_pending (hc : Filed cap [key] [] c) (en : S3Entry V) :
    Filed cap [] [] { c with entries := c.entries.insert key en } := by
  have hf : key ∉ c.entries.keys := (List.nodup_cons.mp (hc.keys.nodup_iff.mpr hc.nodup)).1
  refine { hc with keys := ?_ }
  rw [AList.keys_insert, List.erase_of_not_mem hf]
  exact hc.keys

theorem removeFirst_eq_erase (key : K) (qu : List K) : removeFirst key qu = qu.erase key := by
  rw [removeFirst, List.erase_eq_eraseIdx]
  cases qu.idxOf? key <;> rfl

omit [DecidableEq K] in
/-- Queueing a key that is neither cached nor remembered. -/
theorem Filed.queue_new {s' m' g' : List K} (hc : Filed cap [] [] c)
    (hn : key ∉ c.entries) (hq : (s' ++ m').Perm (key :: (c.small ++ c.main)))
    (hg : g'.Sublist c.ghost) (hke : key ∉ g') :
    Filed cap [key] [] { c with small := s', main := m', ghost := g' } where
  keys := (hc.keys.cons key).trans hq.symm
  nodup := by
    have hf : key ∉ c.small ++ c.main := fun h => hn (AList.mem_keys.mpr (hc.keys.mem_iff.mpr h))
    exact hq.nodup_iff.mpr (List.nodup_cons.mpr ⟨hf, hc.nodup⟩)
  ghost_nodup := hc.ghost_nodup.sublist hg
  ghost_fresh := by
    intro k hk hm
    rcases List.mem_cons.mp (hq.mem_iff.mp hm) with rfl | h
    · exact hke hk
    · exact hc.ghost_fresh k (hg.mem hk) h
  ghost_le := hg.length_le.trans hc.ghost_le
  ghost_capacity := hc.ghost_capacity
  capacity_eq := hc.capacity_eq
  capacity_pos := hc.capacity_pos
  small_pos := hc.small_pos

/-- What holds between two operations on a cache of capacity `cap`. -/
structure Settled (cap : ℕ) (latest : K → Option V) (c : S3FifoCache K V) : Prop where
  filed : Filed cap [] [] c
  len_le : c.len ≤ cap
  serves : Serves latest c.entries

theorem settled_new (capacity : ℕ) :
    Settled (max capacity 1) (fun _ => none) (new capacity : S3FifoCache K V) where
  filed :=
    { keys := List.Perm.refl _
      nodup := List.nodup_nil
      ghost_nodup := List.nodup_nil
      ghost_fresh := fun _ hk => absurd hk List.not_mem_nil
      ghost_le := Nat.zero_le _
      ghost_capacity := rfl
      capacity_eq := rfl
      capacity_pos := Nat.lt_of_lt_of_le Nat.zero_lt_one (le_max_right capacity 1)
      small_pos := Nat.lt_of_lt_of_le Nat.zero_lt_one (le_max_right _ 1) }
  len_le := Nat.zero_le _
  serves := fun k entry hk => absurd hk (by simp [new])

/-- Changing the entry of a cached key. -/
theorem Settled.update {l' : K → Option V} {en : S3Entry V} {ss' : CacheStats}
    (hc : Settled cap latest c) (hm : key ∈ c.entries)
    (hs : Serves l' (c.entries.insert key en)) :
    Settled cap l' { c with entries := c.entries.insert key en, stats := ss' } where
  filed := hc.filed.move (keys_insert_perm hm en) (List.Perm.refl _)
  len_le := (keys_insert_perm hm en).length_eq.trans_le hc.len_le
  serves := hs

/-- A lookup keeps the cache settled. -/
theorem Settled.get (hc : Settled cap latest c) (key : K) : Settled cap latest (c.get key).2 := by
  unfold S3FifoCache.get
  split
  · rename_i en he
    have hm : key ∈ c.entries := AList.lookup_isSome.mp (by rw [he]; rfl)
    exact hc.update hm (hc.serves.insert (hc.serves key en he))
  · exact ⟨hc.filed.move (List.Perm.refl _) (List.Perm.refl _), hc.len_le, hc.serves⟩

/-- A key that is not cached is admitted to one of the queues before its entry is stored. -/
theorem admitted_spec (hc : Settled cap latest c) (hn : key ∉ c.entries) : Filed cap [key] []
        (if c.containsGhost key then { c.removeGhost key with main := key :: c.main }
          else makeRoom { c with small := key :: c.small }) ∧
      Serves latest (if c.containsGhost key then { c.removeGhost key with main := key :: c.main }
          else makeRoom { c with small := key :: c.small }).entries := by
  split
  · have hg : (c.removeGhost key).ghost = c.ghost.erase key := removeFirst_eq_erase key _
    refine ⟨hc.filed.queue_new hn List.perm_middle ?_ ?_, hc.serves⟩
    · rw [hg]
      exact List.erase_sublist
    · rw [hg]
      exact List.Nodup.not_mem_erase hc.filed.ghost_nodup
  · rename_i hg
    have hf : key ∉ c.ghost := by
      intro h
      exact hg (List.any_eq_true.mpr ⟨key, h, beq_self_eq_true key⟩)
    refine makeRoom_spec ?_ rfl hc.serves
    exact hc.filed.queue_new hn (List.Perm.refl _) (List.Sublist.refl _) hf

/-- A put keeps the cache settled. -/
theorem Settled.put (hc : Settled cap latest c) (key : K) (value : V) :
    Settled cap (Function.update latest key (some value)) (c.put key value) := by
  unfold S3FifoCache.put
  split
  · rename_i en he
    have hm : key ∈ c.entries := AList.lookup_isSome.mp (by rw [he]; rfl)
    exact hc.update hm (hc.serves.store key { en.touch with value := value })
  · rename_i hn
    obtain ⟨hf, hs⟩ := admitted_spec hc (AList.lookup_eq_none.mp hn)
    obtain ⟨hf', hl, hs'⟩ := enforceCapacity_spec (hf.insert_pending { value, accessCount := 0 })
      (hs.store key { value, accessCount := 0 })
    exact ⟨hf', hl, hs'⟩

/-- Erasing a key from both queues erases it from their concatenation, where it stands once. -/
theorem erase_append_perm {small m : List K} (h : (small ++ m).Nodup) (key : K) :
    (small.erase key ++ m.erase key).Perm ((small ++ m).erase key) := by
  rw [List.erase_append]
  split
  · rename_i hs
    have hm : key ∉ m := List.disjoint_of_nodup_append h hs
    rw [List.erase_of_not_mem hm]
  · rename_i hs
    rw [List.erase_of_not_mem hs]

/-- A removal keeps the cache settled. -/
theorem Settled.remove (hc : Settled cap latest c) (key : K) :
    Settled cap latest (c.remove key).2 := by
  have hn : (c.small ++ c.main).Nodup := hc.filed.nodup
  have hp := erase_append_perm hn key
  have hs : ((c.small ++ c.main).erase key).Sublist (c.small ++ c.main) := List.erase_sublist
  have hke : c.entries.keys.Perm (c.small ++ c.main) := hc.filed.keys
  unfold S3FifoCache.remove
  rw [removeFirst_eq_erase, removeFirst_eq_erase]
  refine ⟨{ hc.filed with keys := ?_, nodup := ?_, ghost_fresh := ?_ }, ?_, hc.serves.erase key⟩
  · change (c.entries.erase key).keys.Perm (c.small.erase key ++ c.main.erase key)
    rw [AList.keys_erase]
    exact (hke.erase key).trans hp.symm
  · exact hp.nodup_iff.mpr (hn.sublist hs)
  · intro k hk hm
    exact hc.filed.ghost_fresh k hk (hs.mem (hp.mem_iff.mp hm))
  · have hle : (c.entries.keys.erase key).length ≤ c.entries.keys.length :=
      List.erase_sublist.length_le
    rw [len, AList.keys_erase]
    exact hle.trans hc.len_le

/-! ## Runs -/

/-- The operations of the policy. -/
inductive Op (K V : Type*) where
  | get (key : K)
  | put (key : K) (value : V)
  | remove (key : K)

/-- The cache after one operation. -/
def apply (c : S3FifoCache K V) : Op K V → S3FifoCache K V
  | .get key => (c.get key).2
  | .put key value => c.put key value
  | .remove key => (c.remove key).2

/-- The cache after a sequence of operations on a new one. -/
def run (capacity : ℕ) (ops : List (Op K V)) : S3FifoCache K V :=
  ops.foldl apply (new capacity)

/-- The value of the most recent `put` of `key`. -/
def mostRecentPut (ops : List (Op K V)) (key : K) : Option V :=
  ops.reverse.findSome? fun
    | .put k value => if k = key then some value else none
    | _ => none

/-- One more operation changes the most recent `put` of at most its own key. -/
theorem mostRecentPut_concat (ops : List (Op K V)) (op : Op K V) :
    mostRecentPut (ops ++ [op]) =
      match op with
      | .put key value => Function.update (mostRecentPut ops) key (some value)
      | _ => mostRecentPut ops := by
  funext k
  unfold mostRecentPut
  rw [List.reverse_append, List.reverse_singleton, List.singleton_append, List.findSome?_cons]
  cases op with
  | get key => rfl
  | remove key => rfl
  | put key value =>
    by_cases h : key = k
    · subst h
      simp
    · have hne : k ≠ key := fun hk => h hk.symm
      simp [h, Function.update_of_ne hne]

/-- **Every run keeps the cache settled.** -/
theorem settled_run (ca : ℕ) (ops : List (Op K V)) :
    Settled (max ca 1) (mostRecentPut ops) (run ca ops) := by
  induction ops using List.reverseRecOn with
  | nil => exact settled_new ca
  | append_singleton ops op ih =>
    rw [run, List.foldl_append, mostRecentPut_concat]
    cases op with
    | get key => exact ih.get key
    | put key value => exact ih.put key value
    | remove key => exact ih.remove key

theorem value_of_get {v : V} (h : (c.get key).1 = some v) :
    ∃ en, c.entries.lookup key = some en ∧ en.value = v := by
  unfold S3FifoCache.get at h
  split at h
  · rename_i en he
    exact ⟨en, he, Option.some.inj h⟩
  · exact absurd h (Option.some_ne_none v).symm

/-- **S3-FIFO is consistent and bounded.**  After any sequence of operations on a cache of
any capacity: the small and the main queue are duplicate free and disjoint and hold exactly
the cached keys; the ghost queue is duplicate free, holds no cached key and at most
`capacity` keys; there are at most `capacity` entries; a hit returns the value of the most
recent `put` of its key.  From any cache, both loops are left after finitely many rounds. -/
theorem s3_fifo_consistent (capacity : ℕ) (ops : List (Op K V)) :
    let c := run capacity ops
    (c.small.Nodup ∧ c.main.Nodup ∧ List.Disjoint c.small c.main ∧
        ∀ k, k ∈ c.small ∨ k ∈ c.main ↔ k ∈ c.entries) ∧
      (c.ghost.Nodup ∧ (∀ k ∈ c.ghost, k ∉ c.entries) ∧ c.ghost.length ≤ c.capacity) ∧
      (c.capacity = max capacity 1 ∧ c.len ≤ c.capacity) ∧
      (∀ d : S3FifoCache K V, (∃ n, iterate admitStep n d = some (makeRoom d)) ∧
        ∃ n, iterate evictStep n d = some (enforceCapacity d)) ∧
      ∀ k v, (c.get k).1 = some v → mostRecentPut ops k = some v := by
  intro c
  have hc : Settled (max capacity 1) (mostRecentPut ops) c := settled_run capacity ops
  have hke : c.entries.keys.Perm (c.small ++ c.main) := hc.filed.keys
  have hn : (c.small ++ c.main).Nodup := hc.filed.nodup
  have hca := hc.filed.capacity_eq
  refine ⟨⟨hn.of_append_left, hn.of_append_right, ?_, ?_⟩, ⟨?_, ?_, ?_⟩, ⟨hca, ?_⟩, ?_, ?_⟩
  · exact List.disjoint_of_nodup_append hn
  · intro k
    rw [AList.mem_keys, hke.mem_iff, List.mem_append]
  · exact hc.filed.ghost_nodup
  · intro k hk hm
    exact hc.filed.ghost_fresh k hk (hke.mem_iff.mp (AList.mem_keys.mp hm))
  · rw [hca]
    exact hc.filed.ghost_le
  · rw [hca]
    exact hc.len_le
  · intro d
    exact ⟨⟨_, admitLoop.iterate_eq_run trivial⟩, ⟨_, evictLoop.iterate_eq_run trivial⟩⟩
  · intro k v hh
    obtain ⟨en, he, rfl⟩ := value_of_get hh
    exact hc.serves k en he

/-- A key evicted unread and put again is admitted straight to the main queue. -/
example :
    let c := run 1 [Op.put 1 'a', Op.put 2 'b', Op.put 1 'c']
    (c.small, c.main, c.ghost, (c.get 1).1) = ([], [1], [2], some 'c') := by
  decide +kernel

end S3FifoCache

end S3Fifo
