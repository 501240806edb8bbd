/-
# The prefetch cache of personalised PageRank (`src/graph/ppr_prefetch_cache.rs`)

Results are kept in a cuckoo table under their seed set and the generation of the snapshot.  An
insertion of another generation drops all entries, an insertion into a full cache drops the entry
that was used longest ago, and an insertion whose displacements are used up drops the key that is
carried.  Hits check the hash of the stored result and draw a new access number.
-/
import EideticEngine.CuckooTable
import EideticEngine.MinBy
import EideticEngine.TextOrder

namespace PprPrefetchCache

open CuckooTable (Hashing Table)
open RustText (strCmp)

def u64Max : ℕ := 2 ^ 64 - 1

structure PprPrefetchCacheKey where
  seedSetHash : String
  snapshotGeneration : ℕ
  deriving DecidableEq

/-- The derived order of keys. -/
def PprPrefetchCacheKey.cmp (a b : PprPrefetchCacheKey) : Ordering :=
  (strCmp a.seedSetHash b.seedSetHash).then (compare a.snapshotGeneration b.snapshotGeneration)

/-- Scores `S`, full results `R`, and the functions on them that the cache uses. -/
structure Functions (S R : Type*) where
  hashing : Hashing PprPrefetchCacheKey
  pprPrefetchResultHash : PprPrefetchCacheKey → S → String
  pprPrefetchPageRankResultHash : PprPrefetchCacheKey → R → String
  resultScores : R → S

structure PprPrefetchCacheEntry (S R : Type*) where
  scores : S
  result : Option R
  resultHash : String
  lastUsed : ℕ

structure PprPrefetchCacheHit (S : Type*) where
  scores : S
  resultHash : String

structure PprPrefetchCacheResultHit (R : Type*) where
  result : R
  resultHash : String

structure PprPrefetchCacheInsert where
  resultHash : String
  evicted : List PprPrefetchCacheKey

/-- The next power of two; one that does not fit is zero. -/
def nextPowerOfTwo (n : ℕ) : ℕ :=
  (if n ≤ 1 then 1 else 2 ^ (Nat.log2 (n - 1) + 1)) % 2 ^ 64

def cuckooBucketCount (entryCapacity : ℕ) : ℕ :=
  nextPowerOfTwo (max (min (entryCapacity * 4) u64Max) 2)

structure Cache (S R : Type*) where
  capacity : ℕ
  accessSequence : ℕ
  liveGeneration : Option ℕ
  entries : Table PprPrefetchCacheKey (PprPrefetchCacheEntry S R)

variable {S R : Type*}

/-- `PprPrefetchCache::new`. -/
def Cache.new (capacity : ℕ) : Cache S R :=
  ⟨capacity, 0, none, .new (cuckooBucketCount capacity)⟩

def Cache.keys (cache : Cache S R) : List PprPrefetchCacheKey := cache.entries.keys

/-- `next_access_sequence`: the number that is drawn. -/
def Cache.nextAccessSequence (cache : Cache S R) : ℕ := min (cache.accessSequence + 1) u64Max

/-- The cache after a number was drawn. -/
def Cache.drawn (cache : Cache S R) : Cache S R :=
  { cache with accessSequence := (cache.accessSequence + 1) % 2 ^ 64 }

/-- The order in which entries are given up. -/
def victimCmp (a b : PprPrefetchCacheKey × PprPrefetchCacheEntry S R) : Ordering :=
  (compare a.2.lastUsed b.2.lastUsed).then (PprPrefetchCacheKey.cmp a.1 b.1)

def Cache.lruVictimKey (cache : Cache S R) : Option PprPrefetchCacheKey :=
  (MinBy.minBy victimCmp cache.entries.iter).map Prod.fst

section

variable (functions : Functions S R)

def Cache.remove (cache : Cache S R) (key : PprPrefetchCacheKey) : Cache S R :=
  { cache with entries := cache.entries.remove functions.hashing key }

def Cache.removeGenerationsExcept (cache : Cache S R) (snapshotGeneration : ℕ) :
    List PprPrefetchCacheKey × Cache S R :=
  let stale := cache.keys.filter fun key => key.snapshotGeneration ≠ snapshotGeneration
  (stale, stale.foldl (Cache.remove functions) cache)

def Cache.invalidateGenerationsExcept (cache : Cache S R) (snapshotGeneration : ℕ) :
    List PprPrefetchCacheKey × Cache S R :=
  Cache.removeGenerationsExcept functions { cache with liveGeneration := some snapshotGeneration }
    snapshotGeneration

def Cache.evictForGenerationInsert (cache : Cache S R) (snapshotGeneration : ℕ) :
    List PprPrefetchCacheKey × Cache S R :=
  if cache.liveGeneration = some snapshotGeneration then ([], cache)
  else
    Cache.removeGenerationsExcept functions
      { cache with liveGeneration := some snapshotGeneration } snapshotGeneration

def Cache.evictBeforeNewKey (cache : Cache S R) (key : PprPrefetchCacheKey) :
    List PprPrefetchCacheKey × Cache S R :=
  if cache.entries.containsKey functions.hashing key ∨ cache.entries.len < cache.capacity then
    ([], cache)
  else
    match cache.lruVictimKey with
    | none => ([], cache)
    | some victim => ([victim], cache.remove functions victim)

/-- The loop of `evict_to_capacity`; each round removes an entry, so `fuel` is their number. -/
def Cache.evictToCapacity : ℕ → Cache S R → List PprPrefetchCacheKey × Cache S R
  | 0, cache => ([], cache)
  | fuel + 1, cache =>
    if cache.capacity < cache.entries.len then
      match cache.lruVictimKey with
      | none => ([], cache)
      | some victim =>
        let (evicted, cache) := Cache.evictToCapacity fuel (cache.remove functions victim)
        (victim :: evicted, cache)
    else ([], cache)

/-- What `insert` and `insert_result` have in common, after the access number is drawn. -/
def Cache.insertEntry (cache : Cache S R) (key : PprPrefetchCacheKey)
    (entry : PprPrefetchCacheEntry S R) : PprPrefetchCacheInsert × Cache S R :=
  let (stale, cache) := cache.evictForGenerationInsert functions key.snapshotGeneration
  if cache.capacity = 0 then
    (⟨entry.resultHash, stale⟩, { cache with entries := cache.entries.clear })
  else
    let (victims, cache) := cache.evictBeforeNewKey functions key
    let (carried, entries) := cache.entries.insert functions.hashing key entry
    let (excess, cache) := Cache.evictToCapacity functions entries.len { cache with entries }
    (⟨entry.resultHash, stale ++ victims ++ carried.toList.map Prod.fst ++ excess⟩, cache)

/-- The entry of scores. -/
def Cache.scoresEntry (cache : Cache S R) (key : PprPrefetchCacheKey) (scores : S) :
    PprPrefetchCacheEntry S R :=
  { scores := scores
    result := none
    resultHash := functions.pprPrefetchResultHash key scores
    lastUsed := cache.nextAccessSequence }

/-- The entry of a full result. -/
def Cache.resultEntry (cache : Cache S R) (key : PprPrefetchCacheKey) (result : R) :
    PprPrefetchCacheEntry S R :=
  { scores := functions.resultScores result
    result := some result
    resultHash := functions.pprPrefetchPageRankResultHash key result
    lastUsed := cache.nextAccessSequence }

def Cache.insert (cache : Cache S R) (key : PprPrefetchCacheKey) (scores : S) :
    PprPrefetchCacheInsert × Cache S R :=
  cache.drawn.insertEntry functions key (cache.scoresEntry functions key scores)

def Cache.insertResult (cache : Cache S R) (key : PprPrefetchCacheKey) (result : R) :
    PprPrefetchCacheInsert × Cache S R :=
  cache.drawn.insertEntry functions key (cache.resultEntry functions key result)

/-- The scores of an entry, of the full result when there is one. -/
def PprPrefetchCacheEntry.currentScores (entry : PprPrefetchCacheEntry S R) : S :=
  (entry.result.map functions.resultScores).getD entry.scores

def Cache.entryHashIsValid (cache : Cache S R) (key : PprPrefetchCacheKey) : Bool :=
  match cache.entries.get functions.hashing key with
  | none => false
  | some entry =>
    let actualHash :=
      match entry.result with
      | some result => functions.pprPrefetchPageRankResultHash key result
      | none => functions.pprPrefetchResultHash key entry.scores
    actualHash = entry.resultHash

/-- `touch` with the next access number. -/
def Cache.touch (cache : Cache S R) (key : PprPrefetchCacheKey) : Cache S R :=
  { cache.drawn with
    entries := cache.entries.update functions.hashing key fun entry =>
      { entry with lastUsed := cache.nextAccessSequence } }

def Cache.get (cache : Cache S R) (key : PprPrefetchCacheKey) :
    Option (PprPrefetchCacheHit S) × Cache S R :=
  if cache.entryHashIsValid functions key then
    match cache.entries.get functions.hashing key with
    | none => (none, cache)
    | some entry =>
      (some ⟨entry.currentScores functions, entry.resultHash⟩, cache.touch functions key)
  else (none, cache)

def Cache.getResult (cache : Cache S R) (key : PprPrefetchCacheKey) :
    Option (PprPrefetchCacheResultHit R) × Cache S R :=
  if cache.entryHashIsValid functions key then
    match cache.entries.get functions.hashing key with
    | none => (none, cache)
    | some entry =>
      match entry.result with
      | none => (none, cache)
      | some result => (some ⟨result, entry.resultHash⟩, cache.touch functions key)
  else (none, cache)

/-! ## Runs -/

/-- The operations of the cache. -/
inductive Operation (S R : Type*) where
  | insert (key : PprPrefetchCacheKey) (scores : S)
  | insertResult (key : PprPrefetchCacheKey) (result : R)
  | get (key : PprPrefetchCacheKey)
  | getResult (key : PprPrefetchCacheKey)
  | invalidateGenerationsExcept (snapshotGeneration : ℕ)

def Cache.apply (cache : Cache S R) : Operation S R → Cache S R
  | .insert key scores => (cache.insert functions key scores).2
  | .insertResult key result => (cache.insertResult functions key result).2
  | .get key => (cache.get functions key).2
  | .getResult key => (cache.getResult functions key).2
  | .invalidateGenerationsExcept snapshotGeneration =>
    (cache.invalidateGenerationsExcept functions snapshotGeneration).2

/-- The cache after operations. -/
def run (capacity : ℕ) (operations : List (Operation S R)) : Cache S R :=
  operations.foldl (Cache.apply functions) (.new capacity)

end

end PprPrefetchCache
