/-
# The external latest-row index

`LatestIndex` finds the last row of every job key in a journal that may not fit into memory.  Keys
and byte offsets are collected in chunks; a full chunk is sorted, reduced to the greatest offset of
each key and written to a temporary file, a run.  Runs are held in levels: a level that reaches the
merge fan-in is merged into one run of the next level.  At the end all runs are merged into one.

A temporary file is the bytes that were written to it.
-/
import EideticEngine.JobJournal
import EideticEngine.LatestEntries
import EideticEngine.LittleEndian
import EideticEngine.StableSort
import EideticEngine.TextOrder

namespace JournalIndex

open LatestEntries RustText
open StableSort (sortBy)

/-! ## Entries and runs -/

/-- `u64`. -/
abbrev Offset := Fin (2 ^ 64)

instance Offset.neZero : NeZero (2 ^ 64) := inferInstance

/-- `Entry`. -/
abbrev Entry := String × Offset

/-- `CHUNK_BYTES`. -/
def chunkBytes : ℕ := 4 * 1024 * 1024

/-- `FAN_IN`. -/
def fanIn : ℕ := 16

/-- `MAX_KEY_BYTES`. -/
def maxKeyBytes : ℕ := JobJournal.maxRowBytes

/-- `write_entry`, behind what was written before. -/
def writeEntry (out : List UInt8) (entry : Entry) : Except String (List UInt8) :=
  if entry.1.utf8ByteSize < 2 ^ 32 then
    .ok (out ++ (leBytes 4 entry.1.utf8ByteSize ++ asBytes entry.1 ++ leBytes 8 entry.2))
  else .error "oversized index key"

/-- `read_exact` of so many bytes, with what is left. -/
def readExact (n : ℕ) (bytes : List UInt8) : Except String (List UInt8 × List UInt8) :=
  if n ≤ bytes.length then .ok (bytes.take n, bytes.drop n)
  else .error "failed to fill whole buffer"

/-- `read_entry`, with what is left to read. -/
def readEntry (bytes : List UInt8) : Except String (Option Entry × List UInt8) :=
  match bytes with
  | [] => .ok (none, [])
  | first :: rest => do
    let (more, rest) ← readExact 3 rest
    let length := leValue (first :: more)
    if maxKeyBytes < length then .error "oversized daemon index key"
    else
      let (key, rest) ← readExact length rest
      match fromUtf8 key with
      | none => .error "invalid daemon index key"
      | some key =>
        let (offset, rest) ← readExact 8 rest
        .ok (some (key, Fin.ofNat (2 ^ 64) (leValue offset)), rest)

/-- The order of the pairs. -/
def compareEntries (left right : Entry) : Ordering :=
  (strCmp left.1 right.1).then (compare left.2 right.2)

/-- `dedup_by` with the entry that is kept so far. -/
def dedupInto : Entry → List Entry → List Entry
  | earlier, [] => [earlier]
  | earlier, later :: rest =>
    if later.1 = earlier.1 then dedupInto (earlier.1, max earlier.2 later.2) rest
    else earlier :: dedupInto later rest

/-- `collapse`. -/
def collapse (entries : List Entry) : List Entry :=
  match sortBy compareEntries entries with
  | [] => []
  | first :: rest => dedupInto first rest

/-! ## Merging runs -/

/-- An entry of the heap: the next entry of a reader. -/
structure HeapItem where
  entry : Entry
  source : ℕ

/-- The order of the triples, smallest first. -/
def compareItems (left right : HeapItem) : Ordering :=
  (compareEntries left.entry right.entry).then (compare left.source right.source)

/-- `BinaryHeap::push`; the heap is listed in the order in which it pops. -/
def pushItem (heap : List HeapItem) (item : HeapItem) : List HeapItem :=
  heap.orderedInsert (fun a b => compareItems a b ≠ .gt) item

/-- The heap with the next entry of a reader, if it has one. -/
def refill (heap : List HeapItem) (source : ℕ) (entry : Option Entry) : List HeapItem :=
  match entry with
  | some entry => pushItem heap ⟨entry, source⟩
  | none => heap

/-- The loop of `merge` that reads the first entry of every reader. -/
def fillHeap : ℕ → List (List UInt8) → List HeapItem →
    Except String (List HeapItem × List (List UInt8))
  | _, [], heap => .ok (heap, [])
  | source, reader :: readers, heap => do
    let (entry, reader) ← readEntry reader
    let (heap, readers) ← fillHeap (source + 1) readers (refill heap source entry)
    .ok (heap, reader :: readers)

/-- The state of `merge`: the heap, what the readers have left, the entry in hand and what was
written. -/
structure Merger where
  heap : List HeapItem
  readers : List (List UInt8)
  pending : Option Entry
  output : List UInt8

/-- The entry in hand and the output when an entry was popped. -/
def takePending (pending : Option Entry) (output : List UInt8) (entry : Entry) :
    Except String (Option Entry × List UInt8) :=
  match pending with
  | none => .ok (some entry, output)
  | some old =>
    if old.1 = entry.1 then .ok (some (old.1, max old.2 entry.2), output)
    else do
      let output ← writeEntry output old
      .ok (some entry, output)

/-- A round of `merge` for the entry that was popped. -/
def mergeStep (m : Merger) (item : HeapItem) (heap : List HeapItem) : Except String Merger := do
  let (pending, output) ← takePending m.pending m.output item.entry
  match m.readers[item.source]? with
  | none => .error "index out of bounds"
  | some reader =>
    let (entry, reader) ← readEntry reader
    .ok ⟨refill heap item.source entry, m.readers.set item.source reader, pending, output⟩

/-- The loop of `merge`. -/
def mergeLoop : ℕ → Merger → Except String Merger
  | 0, m => .ok m
  | fuel + 1, m =>
    match m.heap with
    | [] => .ok m
    | item :: heap => do
      let m ← mergeStep m item heap
      mergeLoop fuel m

/-- `merge`.  Every round takes an entry, and an entry is not empty. -/
def merge (runs : List (List UInt8)) : Except String (List UInt8) :=
  match runs with
  | [run] => .ok run
  | runs => do
    let (heap, readers) ← fillHeap 0 runs []
    let m ← mergeLoop (runs.flatten.length + 1) ⟨heap, readers, none, []⟩
    match m.pending with
    | some entry => writeEntry m.output entry
    | none => .ok m.output

/-! ## The index -/

/-- `LatestIndex`. -/
structure LatestIndex where
  entries : List Entry
  bytes : ℕ
  levels : List (List (List UInt8))

/-- `LatestIndex::default`. -/
def LatestIndex.default : LatestIndex := ⟨[], 0, []⟩

/-- The loop of `spill` that puts a run into its level, from the lowest level on. -/
def placeRun : List (List (List UInt8)) → List UInt8 → Except String (List (List (List UInt8)))
  | [], run => .ok [[run]]
  | level :: levels, run =>
    if (level ++ [run]).length < fanIn then .ok ((level ++ [run]) :: levels)
    else do
      let run ← merge (level ++ [run])
      let levels ← placeRun levels run
      .ok ([] :: levels)

/-- `spill`. -/
def LatestIndex.spill (index : LatestIndex) : Except String LatestIndex :=
  if index.entries = [] then .ok index
  else do
    let run ← (collapse index.entries).foldlM writeEntry []
    let levels ← placeRun index.levels run
    .ok ⟨[], 0, levels⟩

/-- `insert` of a key whose string has the given capacity; an entry takes `sizeOfEntry` bytes. -/
def LatestIndex.insert (sizeOfEntry : ℕ) (index : LatestIndex) (key : String) (capacity : ℕ)
    (offset : Offset) : Except String LatestIndex :=
  if maxKeyBytes < key.utf8ByteSize then .error "daemon job key exceeds the record limit"
  else
    let index :=
      { index with
        bytes := index.bytes + (capacity + sizeOfEntry)
        entries := index.entries ++ [(key, offset)] }
    if chunkBytes ≤ index.bytes then index.spill else .ok index

/-- A round of `finish`: batches of as many runs as the fan-in are merged. -/
def mergeBatches (runs : List (List UInt8)) : Except String (List (List UInt8)) :=
  if runs = [] then .ok []
  else do
    let run ← merge (runs.take fanIn)
    let next ← mergeBatches (runs.drop fanIn)
    .ok (run :: next)
termination_by runs.length
decreasing_by
  rename_i hne
  have hpos := List.length_pos_iff.mpr hne
  rw [List.length_drop, fanIn]
  omega

/-- The rounds of `finish`, each of which leaves fewer runs. -/
def mergeRounds : ℕ → List (List UInt8) → Except String (List (List UInt8))
  | 0, runs => .ok runs
  | fuel + 1, runs =>
    if 1 < runs.length then do
      let next ← mergeBatches runs
      mergeRounds fuel next
    else .ok runs

/-- `LatestKeys`. -/
inductive LatestKeys where
  | memory (entries : List Entry)
  | disk (reader : List UInt8)

/-- `finish`. -/
def LatestIndex.finish (index : LatestIndex) : Except String LatestKeys :=
  if index.levels = [] then .ok (.memory (collapse index.entries))
  else do
    let index ← index.spill
    let runs ← mergeRounds index.levels.flatten.length index.levels.flatten
    match runs.getLast? with
    | none => .error "empty daemon index merge"
    | some run => .ok (.disk run)

/-- `LatestKeys::next`. -/
def LatestKeys.next : LatestKeys → Option (Except String Entry) × LatestKeys
  | .memory [] => (none, .memory [])
  | .memory (entry :: entries) => (some (.ok entry), .memory entries)
  | .disk reader =>
    match readEntry reader with
    | .error e => (some (.error e), .disk reader)
    | .ok (entry, rest) => (entry.map .ok, .disk rest)

/-- The entries that `next` returns, up to the first error. -/
def LatestKeys.collectUpTo : ℕ → LatestKeys → Except String (List Entry)
  | 0, _ => .ok []
  | fuel + 1, keys =>
    match keys.next with
    | (none, _) => .ok []
    | (some (.error e), _) => .error e
    | (some (.ok entry), keys) => do
      let entries ← collectUpTo fuel keys
      .ok (entry :: entries)

/-- More calls of `next` than there are entries; an entry on disk is not empty. -/
def LatestKeys.bound : LatestKeys → ℕ
  | .memory entries => entries.length + 1
  | .disk reader => reader.length + 1

/-- All entries, `collect`. -/
def LatestKeys.collect (keys : LatestKeys) : Except String (List Entry) :=
  keys.collectUpTo keys.bound

/-! ## Written entries are read back -/

/-- A key within the limit of the index. -/
def Short (entry : Entry) : Prop := entry.1.utf8ByteSize ≤ maxKeyBytes

/-- The bytes of an entry. -/
def entryBytes (entry : Entry) : List UInt8 :=
  leBytes 4 entry.1.utf8ByteSize ++ asBytes entry.1 ++ leBytes 8 entry.2

/-- The bytes of a run. -/
def encodeRun (entries : List Entry) : List UInt8 := entries.flatMap entryBytes

theorem Short.lt {en : Entry} (h : Short en) : en.1.utf8ByteSize < 2 ^ 32 := by
  unfold Short maxKeyBytes JobJournal.maxRowBytes at h
  omega

theorem writeEntry_short {en : Entry} (h : Short en) (out : List UInt8) :
    writeEntry out en = .ok (out ++ entryBytes en) := by
  unfold writeEntry
  rw [if_pos h.lt]
  rfl

theorem foldlM_writeEntry {entries : List Entry} (h : ∀ e ∈ entries, Short e) (out : List UInt8) :
    entries.foldlM writeEntry out = .ok (out ++ encodeRun entries) := by
  induction entries generalizing out with
  | nil =>
    rw [encodeRun, List.flatMap_nil, List.append_nil]
    rfl
  | cons e entries ih =>
    rw [List.foldlM_cons, writeEntry_short (h e List.mem_cons_self), Except.ok_then,
      ih fun e he => h e (List.mem_cons_of_mem _ he), encodeRun, encodeRun, List.flatMap_cons,
      List.append_assoc]

theorem readExact_append {n : ℕ} {f : List UInt8} (h : f.length = n) (r : List UInt8) :
    readExact n (f ++ r) = .ok (f, r) := by
  unfold readExact
  rw [if_pos (by rw [List.length_append]; omega), ← h, List.take_left, List.drop_left]

/-- **An entry is read back** and what follows it is left. -/
theorem readEntry_entryBytes {en : Entry} (h : Short en) (r : List UInt8) :
    readEntry (entryBytes en ++ r) = .ok (some en, r) := by
  have hv : leValue (leBytes 4 en.1.utf8ByteSize) = en.1.utf8ByteSize := leValue_leBytes_of_lt h.lt
  have hl : (leBytes 4 en.1.utf8ByteSize).length = 4 := length_leBytes 4 _
  have ho : Fin.ofNat (2 ^ 64) (leValue (leBytes 8 en.2)) = en.2 := by
    rw [leValue_leBytes_of_lt (lt_of_lt_of_eq en.2.isLt (by norm_num))]
    exact Fin.ofNat_val_eq_self _
  unfold entryBytes
  rw [List.append_assoc, List.append_assoc]
  cases hb : leBytes 4 en.1.utf8ByteSize with
  | nil =>
    rw [hb] at hl
    cases hl
  | cons first mo =>
    rw [hb] at hv hl
    rw [List.cons_append]
    unfold readEntry
    simp only [readExact_append (show mo.length = 3 from by simpa using hl), Except.ok_then, hv]
    rw [if_neg (Nat.not_lt.mpr h)]
    simp only [readExact_append (length_asBytes en.1), Except.ok_then, fromUtf8_asBytes,
      readExact_append (length_leBytes 8 _), ho]

/-- Reading from a run gives its first entry and leaves the others. -/
theorem readEntry_encodeRun {entries : List Entry} (h : ∀ e ∈ entries, Short e) :
    readEntry (encodeRun entries) = .ok (entries.head?, encodeRun entries.tail) := by
  cases entries with
  | nil => rfl
  | cons e entries =>
    rw [encodeRun, List.flatMap_cons, readEntry_entryBytes (h e List.mem_cons_self)]
    rfl

theorem length_le_encodeRun (entries : List Entry) :
    entries.length ≤ (encodeRun entries).length := by
  induction entries with
  | nil => exact Nat.zero_le _
  | cons e entries ih =>
    rw [encodeRun, List.flatMap_cons, List.length_append, entryBytes, List.length_append,
      List.length_append, length_leBytes, List.length_cons]
    unfold encodeRun at ih
    omega

theorem flatten_encodeRun (queues : List (List Entry)) :
    encodeRun queues.flatten = (queues.map encodeRun).flatten := by
  induction queues with
  | nil => rfl
  | cons qu queues ih =>
    rw [List.flatten_cons, List.map_cons, List.flatten_cons, ← ih]
    exact List.flatMap_append

/-! ## Collapsing a chunk -/

instance : Std.TransCmp compareEntries :=
  have : Std.TransCmp fun l r : Entry => strCmp l.1 r.1 := ComparisonSort.transCmp_on Prod.fst
  have : Std.TransCmp fun l r : Entry => compare l.2 r.2 := ComparisonSort.transCmp_on Prod.snd
  inferInstanceAs (Std.TransCmp
    (compareLex (fun l r : Entry => strCmp l.1 r.1) fun l r => compare l.2 r.2))

/-- The order of the entries is the order of their keys first. -/
theorem strCmp_of_compareEntries {a b : Entry} (h : compareEntries a b ≠ .gt) :
    strCmp a.1 b.1 ≠ .gt := by
  intro hgt
  apply h
  rw [compareEntries, hgt]
  rfl

/-- Different keys, of which the second does not come before. -/
theorem strCmp_lt {a b : String} (hne : a ≠ b) (hle : strCmp a b ≠ .gt) : strCmp a b = .lt := by
  cases h : strCmp a b with
  | lt => rfl
  | eq => exact absurd (Std.LawfulEqCmp.eq_of_compare h) hne
  | gt => exact absurd h hle

/-- **`dedup_by` keeps the latest entries** of a chunk in the order of its keys. -/
theorem dedupInto_isLatest (r : List Entry) (ea : Entry) (out given : List Entry)
    (h : Absorbed strCmp out (some ea) given)
    (hs : (ea :: r).Pairwise fun a b => strCmp a.1 b.1 ≠ .gt) :
    IsLatest strCmp (out ++ dedupInto ea r) (given ++ r) := by
  induction r generalizing ea out given with
  | nil =>
    rw [List.append_nil]
    exact h.isLatest
  | cons l r ih =>
    obtain ⟨he, hr⟩ := List.pairwise_cons.mp hs
    rw [dedupInto, List.append_cons given l r]
    split
    · rename_i heq
      refine ih _ _ _ ?_ ?_
      · have hsa : Absorbed strCmp out (some (ea.1, max ea.2 l.2))
            (given ++ [(ea.1, l.2)]) := h.same
        rwa [← heq] at hsa ⊢
      · refine List.pairwise_cons.mpr ⟨?_, (List.pairwise_cons.mp hr).2⟩
        intro b hb
        exact he b (List.mem_cons_of_mem _ hb)
    · rename_i hne
      have hlt : strCmp ea.1 l.1 = .lt := strCmp_lt (Ne.symm hne) (he l List.mem_cons_self)
      have hn := h.next (e := l) (by rintro p ⟨⟩; exact hlt)
      have hih := ih _ _ _ hn hr
      rw [Option.toList_some, List.append_assoc] at hih
      exact hih

/-- **`collapse` gives the latest entries.** -/
theorem collapse_isLatest (entries : List Entry) : IsLatest strCmp (collapse entries) entries := by
  have hp : (sortBy compareEntries entries).Perm entries := List.perm_insertionSort _ entries
  have hs : (sortBy compareEntries entries).Pairwise fun a b => strCmp a.1 b.1 ≠ .gt :=
    (List.pairwise_insertionSort (fun a b => compareEntries a b ≠ .gt) entries).imp
      strCmp_of_compareEntries
  unfold collapse
  cases hso : sortBy compareEntries entries with
  | nil =>
    rw [hso] at hp
    rw [List.nil_perm.mp hp]
    exact isLatest_nil
  | cons first r =>
    rw [hso] at hp hs
    have hf : Absorbed strCmp [] (some first) [first] :=
      absorbed_nil.next (e := first) (by rintro p ⟨⟩)
    have hl := dedupInto_isLatest r first [] [first] hf hs
    exact hl.of_same (SameLatest.of_perm hp)

/-! ## The merge -/

instance : Std.TransCmp compareItems :=
  have : Std.TransCmp fun l r : HeapItem => compareEntries l.entry r.entry :=
    ComparisonSort.transCmp_on HeapItem.entry
  have : Std.TransCmp fun l r : HeapItem => compare l.source r.source :=
    ComparisonSort.transCmp_on HeapItem.source
  inferInstanceAs (Std.TransCmp (compareLex
    (fun l r : HeapItem => compareEntries l.entry r.entry) fun l r => compare l.source r.source))

/-- The order of the heap is the order of the keys first. -/
theorem strCmp_of_compareItems {a b : HeapItem} (h : compareItems a b ≠ .gt) :
    strCmp a.entry.1 b.entry.1 ≠ .gt := by
  apply strCmp_of_compareEntries
  intro hgt
  apply h
  rw [compareItems, hgt]
  rfl

/-- The keys that wait in the queue of a reader come after the entry that the heap has of it. -/
def Fronted (heap : List HeapItem) (queues : List (List Entry)) : Prop :=
  ∀ i queue, queues[i]? = some queue → ∀ e ∈ queue,
    ∃ item ∈ heap, item.source = i ∧ strCmp item.entry.1 e.1 = .lt

theorem mem_refill {heap : List HeapItem} {s : ℕ} {en : Option Entry} {item : HeapItem} :
    item ∈ refill heap s en ↔ item ∈ en.map (⟨·, s⟩) ∨ item ∈ heap := by
  cases en with
  | none => simp [refill]
  | some en =>
    rw [refill, pushItem, List.mem_orderedInsert]
    simp [eq_comm]

theorem refill_sorted {heap : List HeapItem} (h : heap.Pairwise fun a b => compareItems a b ≠ .gt)
    (s : ℕ) (en : Option Entry) :
    (refill heap s en).Pairwise fun a b => compareItems a b ≠ .gt := by
  cases en with
  | none => exact h
  | some en => exact h.orderedInsert _ _

theorem refill_perm (heap : List HeapItem) (s : ℕ) (en : Option Entry) :
    ((refill heap s en).map HeapItem.entry).Perm (en.toList ++ heap.map HeapItem.entry) := by
  cases en with
  | none => exact List.Perm.refl _
  | some en => exact (List.perm_orderedInsert _ _ heap).map HeapItem.entry

/-- Taking the first entry of a queue. -/
theorem flatten_set_tail {queues : List (List Entry)} {i : ℕ} {qu : List Entry}
    (h : queues[i]? = some qu) :
    queues.flatten.Perm (qu.head?.toList ++ (queues.set i qu.tail).flatten) := by
  induction queues generalizing i with
  | nil => cases h
  | cons q queues ih =>
    cases i with
    | zero =>
      rw [List.getElem?_cons_zero, Option.some.injEq] at h
      subst h
      rw [List.set_cons_zero, List.flatten_cons, List.flatten_cons, ← List.append_assoc]
      cases q <;> exact List.Perm.refl _
    | succ i =>
      rw [List.getElem?_cons_succ] at h
      rw [List.set_cons_succ, List.flatten_cons, List.flatten_cons]
      have hs : (q ++ (qu.head?.toList ++ (queues.set i qu.tail).flatten)).Perm
          (qu.head?.toList ++ (q ++ (queues.set i qu.tail).flatten)) := by
        rw [← List.append_assoc, ← List.append_assoc]
        exact List.perm_append_comm.append_right _
      exact ((ih h).append_left q).trans hs

/-- The invariant of the merge: what was popped is absorbed, the rest is in the heap and in the
queues of the readers. -/
structure Merging (all given out : List Entry) (queues : List (List Entry)) (m : Merger) :
    Prop where
  readers : m.readers = queues.map encodeRun
  output : m.output = encodeRun out
  absorbed : Absorbed strCmp out m.pending given
  short : ∀ e ∈ all, Short e
  shortPending : ∀ p ∈ m.pending, Short p
  sorted : m.heap.Pairwise fun a b => compareItems a b ≠ .gt
  ascending : ∀ queue ∈ queues, Ascending strCmp queue
  sources : ∀ item ∈ m.heap, item.source < queues.length
  fronted : Fronted m.heap queues
  behind : ∀ p ∈ m.pending, ∀ item ∈ m.heap, strCmp p.1 item.entry.1 ≠ .gt
  perm : (given ++ (m.heap.map HeapItem.entry ++ queues.flatten)).Perm all

section

variable {all given out : List Entry} {queues : List (List Entry)} {m : Merger} {item : HeapItem}
  {heap : List HeapItem}

/-- The heap's first entry comes before everything that is left. -/
theorem Merging.least (h : Merging all given out queues m) (hh : m.heap = item :: heap) :
    ∀ other ∈ item :: heap, strCmp item.entry.1 other.entry.1 ≠ .gt := by
  intro other ho
  rcases List.mem_cons.mp ho with rfl | ho
  · have hse : strCmp other.entry.1 other.entry.1 = .eq := Std.ReflCmp.compare_self
    rw [hse]
    decide
  · have hs := h.sorted
    rw [hh] at hs
    exact strCmp_of_compareItems (List.rel_of_pairwise_cons hs ho)

/-- **What is absorbed when an entry is popped.** -/
theorem Merging.takePending (h : Merging all given out queues m) (hh : m.heap = item :: heap) :
    ∃ o' v, JournalIndex.takePending m.pending m.output item.entry
        = .ok (some (item.entry.1, v), encodeRun o')
      ∧ Absorbed strCmp o' (some (item.entry.1, v)) (given ++ [item.entry]) := by
  have hm : item ∈ m.heap := hh ▸ List.mem_cons_self
  unfold JournalIndex.takePending
  cases hp : m.pending with
  | none =>
    have ha := h.absorbed
    rw [hp] at ha
    have hn := ha.next (e := item.entry) (by rintro p ⟨⟩)
    rw [Option.toList_none, List.append_nil] at hn
    exact ⟨out, item.entry.2, by rw [h.output], hn⟩
  | some old =>
    have ha := h.absorbed
    rw [hp] at ha
    dsimp only
    split
    · rename_i heq
      have hs : Absorbed strCmp out (some (old.1, max old.2 item.entry.2))
          (given ++ [(old.1, item.entry.2)]) := ha.same
      rw [heq] at hs ⊢
      exact ⟨out, _, by rw [h.output], hs⟩
    · rename_i hne
      have hlt : strCmp old.1 item.entry.1 = .lt := strCmp_lt hne (h.behind old hp item hm)
      have hn := ha.next (e := item.entry) (by rintro p ⟨⟩; exact hlt)
      refine ⟨out ++ [old], item.entry.2, ?_, hn⟩
      rw [writeEntry_short (h.shortPending old hp), Except.ok_then, h.output]
      unfold encodeRun
      rw [List.flatMap_append, List.flatMap_singleton]

/-- The readers are fronted again when the popped entry is replaced by the next of its reader. -/
theorem Merging.fronted_refill (h : Merging all given out queues m) (hh : m.heap = item :: heap)
    {qu : List Entry} (hq : queues[item.source]? = some qu) :
    Fronted (refill heap item.source qu.head?) (queues.set item.source qu.tail) := by
  intro i r hr e he
  rw [List.getElem?_set] at hr
  split at hr
  · rename_i heq
    subst heq
    rw [Option.ite_none_right_eq_some, Option.some.injEq] at hr
    obtain ⟨-, rfl⟩ := hr
    cases qu with
    | nil => cases he
    | cons first tail =>
      have ha := h.ascending _ (List.mem_of_getElem? hq)
      refine ⟨⟨first, item.source⟩, mem_refill.mpr (Or.inl rfl), rfl, ?_⟩
      exact List.rel_of_pairwise_cons ha he
  · rename_i hne
    obtain ⟨other, ho, rfl, hlt⟩ := h.fronted i r hr e he
    refine ⟨other, mem_refill.mpr (Or.inr ?_), rfl, hlt⟩
    rw [hh] at ho
    rcases List.mem_cons.mp ho with rfl | ho
    · exact absurd rfl hne
    · exact ho

/-- The next entry of the popped entry's reader does not come before it. -/
theorem Merging.le_head (h : Merging all given out queues m) (hh : m.heap = item :: heap)
    {qu : List Entry} (hq : queues[item.source]? = some qu) :
    ∀ other ∈ refill heap item.source qu.head?, strCmp item.entry.1 other.entry.1 ≠ .gt := by
  intro other ho
  rcases mem_refill.mp ho with hn | ho
  · cases qu with
    | nil => cases hn
    | cons first tail =>
      rw [List.head?_cons, Option.map_some, Option.mem_def, Option.some.injEq] at hn
      subst hn
      obtain ⟨f, hf, -, hlt⟩ := h.fronted _ _ hq first List.mem_cons_self
      rw [hh] at hf
      have hle := h.least hh f hf
      have h' : strCmp item.entry.1 first.1 = .lt :=
        Std.TransCmp.lt_of_isLE_of_lt (Ordering.isLE_iff_ne_gt.mpr hle) hlt
      rw [h']
      decide
  · exact h.least hh other (List.mem_cons_of_mem _ ho)

/-- **A round of the merge** absorbs the popped entry. -/
theorem Merging.step (h : Merging all given out queues m) (hh : m.heap = item :: heap) :
    ∃ m' o' qs', mergeStep m item heap = .ok m'
      ∧ Merging all (given ++ [item.entry]) o' qs' m' := by
  have hm : item ∈ m.heap := hh ▸ List.mem_cons_self
  have hlt : item.source < queues.length := h.sources item hm
  obtain ⟨qu, hq⟩ : ∃ qu, queues[item.source]? = some qu := ⟨_, List.getElem?_eq_getElem hlt⟩
  have hsh : ∀ e ∈ qu, Short e := by
    intro e he
    refine h.short e (h.perm.subset (List.mem_append_right _ (List.mem_append_right _ ?_)))
    exact List.mem_flatten.mpr ⟨qu, List.mem_of_getElem? hq, he⟩
  have hre : m.readers[item.source]? = some (encodeRun qu) := by
    rw [h.readers, List.getElem?_map, hq, Option.map_some]
  obtain ⟨o', v, ht, ha⟩ := h.takePending hh
  refine ⟨⟨refill heap item.source qu.head?,
    m.readers.set item.source (encodeRun qu.tail), some (item.entry.1, v), encodeRun o'⟩, o',
    queues.set item.source qu.tail, ?_, ?_⟩
  · unfold mergeStep
    rw [ht, Except.ok_then]
    simp only [hre, readEntry_encodeRun hsh, Except.ok_then]
  · constructor
    · rw [h.readers, List.map_set]
    · rfl
    · exact ha
    · exact h.short
    · rintro p ⟨⟩
      -- the key is that of an entry of the input
      refine h.short item.entry (h.perm.subset ?_)
      exact List.mem_append_right _ (List.mem_append_left _ (List.mem_map_of_mem hm))
    · have hs := h.sorted
      rw [hh] at hs
      exact refill_sorted (List.pairwise_cons.mp hs).2 _ _
    · intro r hr
      rcases List.mem_or_eq_of_mem_set hr with hr | rfl
      · exact h.ascending r hr
      · exact List.Pairwise.tail (h.ascending _ (List.mem_of_getElem? hq))
    · intro other ho
      rw [List.length_set]
      rcases mem_refill.mp ho with hn | ho
      · obtain ⟨e, -, rfl⟩ := Option.mem_map.mp hn
        exact hlt
      · exact h.sources other (hh ▸ List.mem_cons_of_mem _ ho)
    · exact h.fronted_refill hh hq
    · rintro p ⟨⟩ other ho
      exact h.le_head hh hq other ho
    · refine List.Perm.trans ?_ h.perm
      rw [hh, List.map_cons, List.append_assoc]
      refine List.Perm.append_left given (List.Perm.cons _ ?_)
      have hf := (refill_perm heap item.source qu.head?).append_right
        (queues.set item.source qu.tail).flatten
      have hse := (flatten_set_tail hq).append_left (heap.map HeapItem.entry)
      refine hf.trans (List.Perm.trans ?_ hse.symm)
      rw [← List.append_assoc]
      exact List.perm_append_comm.append_right _

/-- **The loop of the merge** absorbs everything. -/
theorem Merging.loop (f : ℕ) (h : Merging all given out queues m)
    (hf : all.length < given.length + f) :
    ∃ m' o', mergeLoop f m = .ok m' ∧ m'.output = encodeRun o'
      ∧ (∀ p ∈ m'.pending, Short p) ∧ IsLatest strCmp (o' ++ m'.pending.toList) all := by
  induction f generalizing given out queues m with
  | zero =>
    have hl := h.perm.length_eq
    rw [List.length_append] at hl
    omega
  | succ f ih =>
    rw [mergeLoop]
    cases hh : m.heap with
    | nil =>
      -- an empty heap has no reader in front of which it stands
      have hem : queues.flatten = [] := by
        rw [List.flatten_eq_nil_iff]
        intro qu hq
        obtain ⟨i, hi⟩ := List.mem_iff_getElem?.mp hq
        rw [List.eq_nil_iff_forall_not_mem]
        intro e he
        obtain ⟨item, hite, -⟩ := h.fronted i qu hi e he
        rw [hh] at hite
        cases hite
      have hp := h.perm
      rw [hh, hem, List.map_nil, List.append_nil, List.append_nil] at hp
      exact ⟨m, out, rfl, h.output, h.shortPending,
        h.absorbed.isLatest.of_same (SameLatest.of_perm hp)⟩
    | cons item heap =>
      obtain ⟨m', o', qs', hs, hm⟩ := h.step hh
      dsimp only
      rw [hs, Except.ok_then]
      refine ih hm ?_
      rw [List.length_append, List.length_singleton]
      omega

end

/-- What the first reading of all readers gives: the heap has the first entry of every queue and
what it had before. -/
theorem fillHeap_spec (queues : List (List Entry)) (s : ℕ) (heap : List HeapItem)
    (hs : ∀ e ∈ queues.flatten, Short e)
    (hso : heap.Pairwise fun a b => compareItems a b ≠ .gt) :
    ∃ h', fillHeap s (queues.map encodeRun) heap = .ok (h', (queues.map List.tail).map encodeRun)
      ∧ h'.Pairwise (fun a b => compareItems a b ≠ .gt)
      ∧ (∀ item ∈ h', item ∈ heap ∨ item.source < s + queues.length)
      ∧ heap ⊆ h'
      ∧ (∀ i qu, queues[i]? = some qu → ∀ e ∈ qu.head?, ⟨e, s + i⟩ ∈ h')
      ∧ (h'.map HeapItem.entry ++ (queues.map List.tail).flatten).Perm
          (heap.map HeapItem.entry ++ queues.flatten) := by
  induction queues generalizing s heap with
  | nil =>
    exact ⟨heap, rfl, hso, fun item hi => Or.inl hi, List.Subset.refl _,
      fun i qu hqu => by simp at hqu, List.Perm.refl _⟩
  | cons qu queues ih =>
    rw [List.flatten_cons] at hs
    have hr := readEntry_encodeRun fun e he => hs e (List.mem_append_left _ he)
    obtain ⟨h', hfi, hs', hsou, hsu, hh, hp⟩ := ih (s + 1) (refill heap s qu.head?)
        (fun e he => hs e (List.mem_append_right _ he)) (refill_sorted hso _ _)
    refine ⟨h', ?_, hs', ?_, ?_, ?_, ?_⟩
    · rw [List.map_cons, fillHeap, hr, Except.ok_then]
      simp only [hfi, Except.ok_then, List.map_cons]
    · intro item hi
      rw [List.length_cons]
      rcases hsou item hi with hi | hlt
      · rcases mem_refill.mp hi with hn | hi
        · obtain ⟨e, -, rfl⟩ := Option.mem_map.mp hn
          exact Or.inr (by dsimp only; omega)
        · exact Or.inl hi
      · exact Or.inr (by omega)
    · intro item hi
      exact hsu (mem_refill.mpr (Or.inr hi))
    · intro i q hq e he
      cases i with
      | zero =>
        rw [List.getElem?_cons_zero, Option.some.injEq] at hq
        subst hq
        exact hsu (mem_refill.mpr (Or.inl (Option.mem_map.mpr ⟨e, he, rfl⟩)))
      | succ i =>
        rw [List.getElem?_cons_succ] at hq
        have hm := hh i q hq e he
        rwa [Nat.add_assoc, Nat.add_comm 1 i] at hm
    · -- the first entry moves from the queue into the heap
      have hf : qu.head?.toList ++ qu.tail = qu := by cases qu <;> rfl
      have hmi : ((refill heap s qu.head?).map HeapItem.entry ++ qu.tail).Perm
          (heap.map HeapItem.entry ++ qu) := by
        refine ((refill_perm heap s qu.head?).append_right _).trans ?_
        rw [List.append_assoc]
        refine List.perm_append_comm_assoc _ _ _ |>.trans ?_
        rw [hf]
      rw [List.map_cons, List.flatten_cons, List.flatten_cons]
      calc List.Perm (h'.map HeapItem.entry ++ (qu.tail ++ (queues.map List.tail).flatten))
            (qu.tail ++ (h'.map HeapItem.entry ++ (queues.map List.tail).flatten)) :=
          List.perm_append_comm_assoc _ _ _
        List.Perm _ (qu.tail ++ ((refill heap s qu.head?).map HeapItem.entry
            ++ queues.flatten)) := hp.append_left _
        List.Perm _ ((refill heap s qu.head?).map HeapItem.entry ++ qu.tail ++ queues.flatten) := by
          rw [← List.append_assoc]
          exact List.perm_append_comm.append_right _
        List.Perm _ (heap.map HeapItem.entry ++ (qu ++ queues.flatten)) := by
          rw [← List.append_assoc]
          exact hmi.append_right _

/-- A run that was written: its keys ascend and are within the limit. -/
structure GoodRun (run : List Entry) : Prop where
  ascending : Ascending strCmp run
  short : ∀ e ∈ run, Short e

/-- The runs hold the latest entries of `l`. -/
def Stored (runs : List (List UInt8)) (l : List Entry) : Prop :=
  ∃ queues : List (List Entry), runs = queues.map encodeRun ∧ (∀ queue ∈ queues, GoodRun queue)
    ∧ SameLatest queues.flatten l

theorem goodRun_short {queues : List (List Entry)} (h : ∀ qu ∈ queues, GoodRun qu) :
    ∀ e ∈ queues.flatten, Short e := by
  intro e he
  obtain ⟨qu, hq, he⟩ := List.mem_flatten.mp he
  exact (h qu hq).short e he

/-- Entries with the same latest entries have the same keys. -/
theorem short_of_isLatest {run l : List Entry} (h : IsLatest strCmp run l)
    (hs : ∀ e ∈ l, Short e) : ∀ e ∈ run, Short e := by
  rintro ⟨key, o⟩ he
  exact hs _ (h.mem he).1

/-- The merge of two or more runs, or of none. -/
theorem merge_goodRuns {queues : List (List Entry)} (h : ∀ qu ∈ queues, GoodRun qu) :
    ∃ run, merge (queues.map encodeRun) = .ok (encodeRun run)
      ∧ IsLatest strCmp run queues.flatten := by
  by_cases ho : ∃ qu, queues = [qu]
  · obtain ⟨qu, rfl⟩ := ho
    refine ⟨qu, rfl, (h qu List.mem_cons_self).ascending, ?_⟩
    rw [List.flatten_cons, List.flatten_nil, List.append_nil]
    exact SameLatest.refl _
  · have hs := goodRun_short h
    obtain ⟨heap, hf, hso, hsou, -, hh, hper⟩ := fillHeap_spec queues 0 [] hs List.Pairwise.nil
    have hm : Merging queues.flatten [] [] (queues.map List.tail)
        ⟨heap, (queues.map List.tail).map encodeRun, none, []⟩ := by
      refine ⟨rfl, rfl, absorbed_nil, hs, ?_, hso, ?_, ?_, ?_, ?_, hper⟩
      · rintro p ⟨⟩
      · intro r hr
        obtain ⟨qu, hq, rfl⟩ := List.mem_map.mp hr
        exact List.Pairwise.tail (h qu hq).ascending
      · intro item hi
        rw [List.length_map]
        rcases hsou item hi with hi | hlt
        · cases hi
        · omega
      · intro i r hr e he
        rw [List.getElem?_map] at hr
        obtain ⟨qu, hq, rfl⟩ := Option.map_eq_some_iff.mp hr
        cases qu with
        | nil => cases he
        | cons first tail =>
          refine ⟨⟨first, i⟩, ?_, rfl, ?_⟩
          · have hme := hh i _ hq first rfl
            rwa [Nat.zero_add] at hme
          · exact List.rel_of_pairwise_cons (h _ (List.mem_of_getElem? hq)).ascending he
      · rintro p ⟨⟩
    have hfu : queues.flatten.length < ([] : List Entry).length
        + ((queues.map encodeRun).flatten.length + 1) := by
      have hle := length_le_encodeRun queues.flatten
      rw [← flatten_encodeRun, List.length_nil]
      omega
    obtain ⟨m, out, hlo, hou, hpe, hl⟩ := hm.loop _ hfu
    refine ⟨out ++ m.pending.toList, ?_, hl⟩
    unfold merge
    split
    · rename_i run hru
      obtain ⟨qu, hq, -⟩ := List.map_eq_singleton_iff.mp hru
      exact absurd ⟨qu, hq⟩ ho
    · rw [hf, Except.ok_then]
      simp only [hlo, Except.ok_then, hou]
      cases hp : m.pending with
      | none =>
        rw [Option.toList_none, List.append_nil]
      | some en =>
        dsimp only
        rw [writeEntry_short (hpe en hp), Option.toList_some]
        unfold encodeRun
        rw [List.flatMap_append, List.flatMap_singleton]

/-- **A merge stores the same latest entries in one run.** -/
theorem Stored.merge {r : List (List UInt8)} {l : List Entry} (h : Stored r l) :
    ∃ run, JournalIndex.merge r = .ok run ∧ Stored [run] l := by
  obtain ⟨queues, rfl, hg, hs⟩ := h
  obtain ⟨run, hm, hl⟩ := merge_goodRuns hg
  refine ⟨encodeRun run, hm, [run], rfl, ?_, ?_⟩
  · intro qu hq
    rw [List.mem_singleton] at hq
    subst hq
    exact ⟨hl.ascending, short_of_isLatest hl (goodRun_short hg)⟩
  · rw [List.flatten_cons, List.flatten_nil, List.append_nil]
    exact hl.same.trans hs

end JournalIndex
