/-
# Recent memories (`src/db/memory_temporal.rs`)

Rows are read in pages by id, and each row is judged by its instants, parsed from the stored
texts.  The newest rows that may be used are kept in an ordered set that never grows past the
limit; their bodies are loaded at the end, from the same snapshot.
-/
import EideticEngine.BoundedInsert
import EideticEngine.KeysetPages
import EideticEngine.TextOrder

namespace MemoryTemporal

open BoundedInsert (insertPop)
open RustText (strCmp)

inductive DbError where
  | malformedRow (message : String)
  deriving DecidableEq

def malformed (message : String) : DbError := .malformedRow message

/-! ## Rows -/

/-- A row of `memories`, with its body. -/
structure StoredMemory where
  id : String
  workspaceId : String
  content : String
  createdAt : String
  updatedAt : String
  validFrom : Option String
  validTo : Option String
  supersededAt : Option String
  tombstonedAt : Option String
  deriving DecidableEq

/-- A snapshot of the table; ids are its primary key. -/
structure Table where
  rows : List StoredMemory
  unique : (rows.map StoredMemory.id).Nodup

section

/- `DateTime::parse_from_rfc3339`: the instant that a text stands for, in nanoseconds. -/
variable (instant : String → Option ℤ)

def reference (raw : String) : Except DbError ℤ :=
  match instant raw with
  | some value => .ok value
  | none => .error (malformed "Memory reference time must be RFC3339")

def admitsBound (raw : Option String) (reference : ℤ) (predicate : ℤ → ℤ → Bool) : Bool :=
  match raw with
  | none => true
  | some raw => (instant raw).any fun value => predicate value reference

/-! ## Selection -/

/-- The creation instant and the id of a row. -/
abbrev Key := ℤ × String

/-- Newest first, then by id. -/
def keyCmp (left right : Key) : Ordering :=
  (compare right.1 left.1).then (strCmp left.2 right.2)

/-- The key of a row that may be used at a time. -/
def eligibleKey (at' : ℤ) (row : StoredMemory) : Option Key :=
  match instant row.createdAt, instant row.updatedAt with
  | some created, some updated =>
    if created > at' ∨ updated > at'
        ∨ !admitsBound instant row.validFrom at' (fun start at' => start ≤ at')
        ∨ !admitsBound instant row.validTo at' (fun «end» at' => «end» ≥ at')
        ∨ !admitsBound instant row.supersededAt at' (fun «end» at' => «end» > at') then none
    else some (created, row.id)
  | _, _ => none

/-- One page of the rows of a workspace that are not tombstoned, by id, after a cursor. -/
def queryPage (table : Table) (workspace : String) (cursor : Option String) (pageSize : ℕ) :
    List StoredMemory :=
  ((table.rows.filter fun row => row.workspaceId = workspace ∧ row.tombstonedAt = none
      ∧ cursor.all fun after => strCmp after row.id = .lt).insertionSort
    fun left right => strCmp left.id right.id ≠ .gt).take pageSize

/-- The rows of one page. -/
def selectRows (at' : ℤ) (limit : ℕ) :
    List StoredMemory → Option String → List Key → Except DbError (Option String × List Key)
  | [], cursor, selected => .ok (cursor, selected)
  | row :: rows, cursor, selected =>
    if cursor.any fun previous => strCmp row.id previous ≠ .gt then
      .error (malformed "Memory recency cursor did not advance")
    else
      match eligibleKey instant at' row with
      | none => selectRows at' limit rows (some row.id) selected
      | some key => selectRows at' limit rows (some row.id) (insertPop keyCmp limit selected key)

/-- Page after page, until one is not full; `fuel` bounds the number of pages. -/
def selectPages (table : Table) (workspace : String) (at' : ℤ) (limit pageSize : ℕ) :
    ℕ → Option String → List Key → Option (Except DbError (List Key))
  | 0, _, _ => none
  | fuel + 1, cursor, selected =>
    let rows := queryPage table workspace cursor pageSize
    match selectRows instant at' limit rows cursor selected with
    | .error error => some (.error error)
    | .ok (cursor, selected) =>
      if rows.length < pageSize then some (.ok selected)
      else selectPages table workspace at' limit pageSize fuel cursor selected

/-! ## Bodies -/

/-- `get_memories_batch`. -/
def getMemoriesBatch (table : Table) (ids : List String) : List StoredMemory :=
  table.rows.filter fun row => row.id ∈ ids

/-- Take the bodies of a page of ids out of what was loaded. -/
def takeLoaded (workspace : String) :
    List String → List StoredMemory → Except DbError (List StoredMemory)
  | [], _ => .ok []
  | id :: ids, loaded =>
    match loaded.find? (·.id = id) with
    | none => .error (malformed "Selected memory is missing from the read snapshot")
    | some memory =>
      if memory.id ≠ id ∨ memory.workspaceId ≠ workspace ∨ memory.tombstonedAt.isSome then
        .error (malformed "Selected memory does not belong to the read snapshot")
      else do
        let memories ← takeLoaded workspace ids (loaded.filter (·.id ≠ id))
        .ok (memory :: memories)

/-- Load the bodies in pages. -/
def loadPages (table : Table) (workspace : String) :
    List (List String) → Except DbError (List StoredMemory)
  | [] => .ok []
  | page :: pages => do
    let memories ← takeLoaded workspace page (getMemoriesBatch table page)
    let rest ← loadPages table workspace pages
    .ok (memories ++ rest)

/-- `recent_with_boundary` for a page size; a page that is not full ends the scan, so there are at
most as many pages as rows, and one. -/
def recent (table : Table) (workspace asOf : String) (limit pageSize : ℕ) :
    Option (Except DbError (List StoredMemory)) :=
  match reference instant asOf with
  | .error error => some (.error error)
  | .ok at' =>
    if limit = 0 then some (.ok [])
    else
      (selectPages instant table workspace at' limit pageSize (table.rows.length + 1) none []).map
        fun selected => selected.bind fun selected =>
          loadPages table workspace ((selected.map Prod.snd).toChunks pageSize)

def pageSize : ℕ := 128

/-! ## The rows that may be used -/

/-- A row may be used at a time: of the workspace, not tombstoned, written by then, and within its
bounds.  A bound that is no instant excludes the row. -/
def Eligible (workspace : String) (at' : ℤ) (row : StoredMemory) : Prop :=
  (row.workspaceId = workspace ∧ row.tombstonedAt = none)
    ∧ (instant row.createdAt).any (· ≤ at') ∧ (instant row.updatedAt).any (· ≤ at')
    ∧ row.validFrom.all (fun text => (instant text).any (· ≤ at'))
    ∧ row.validTo.all (fun text => (instant text).any (at' ≤ ·))
    ∧ row.supersededAt.all (fun text => (instant text).any (at' < ·))

instance (workspace : String) (at' : ℤ) (row : StoredMemory) :
    Decidable (Eligible instant workspace at' row) :=
  inferInstanceAs (Decidable (_ ∧ _ ∧ _ ∧ _ ∧ _ ∧ _))

/-- The creation instant of a row and its id. -/
def keyOf (row : StoredMemory) : Key := ((instant row.createdAt).getD 0, row.id)

/-- All rows that may be used, newest creation first and then by id. -/
def newest (table : Table) (workspace : String) (at' : ℤ) : List StoredMemory :=
  (table.rows.filter (Eligible instant workspace at' ·)).insertionSort
    fun left right => keyCmp (keyOf instant left) (keyOf instant right) ≠ .gt

/-- The rows of a workspace that are not tombstoned, by id. -/
def liveRows (table : Table) (workspace : String) : List StoredMemory :=
  (table.rows.filter fun row => row.workspaceId = workspace ∧ row.tombstonedAt = none).insertionSort
    fun left right => strCmp left.id right.id ≠ .gt

variable {instant} {table : Table} {workspace : String} {at' : ℤ} {limit size : ℕ}

theorem mem_liveRows {row : StoredMemory} : row ∈ liveRows table workspace
    ↔ row ∈ table.rows ∧ row.workspaceId = workspace ∧ row.tombstonedAt = none := by
  rw [liveRows, List.mem_insertionSort, List.mem_filter, decide_eq_true_eq]

theorem admitsBound_eq (raw : Option String) (p : ℤ → ℤ → Bool) : admitsBound instant raw at' p
      = raw.all fun text => (instant text).any fun value => p value at' := by
  cases raw with
  | none => rfl
  | some raw => rfl

/-- The key of a row of the workspace that may be used, and no other. -/
theorem eligibleKey_eq {row : StoredMemory} (h : row ∈ liveRows table workspace) :
    eligibleKey instant at' row
      = if Eligible instant workspace at' row then some (keyOf instant row) else none := by
  obtain ⟨-, hl⟩ := mem_liveRows.mp h
  unfold eligibleKey
  split
  · rename_i c u hcr hup
    have hk : keyOf instant row = (c, row.id) := by rw [keyOf, hcr]; rfl
    rw [hk]
    by_cases he : Eligible instant workspace at' row
    · rw [if_pos he, if_neg]
      obtain ⟨-, hc, hu, hf, ht, hs⟩ := he
      rw [hcr] at hc
      rw [hup] at hu
      simp only [admitsBound_eq, not_or]
      exact ⟨not_lt.mpr (of_decide_eq_true hc), not_lt.mpr (of_decide_eq_true hu),
        by simpa using hf, by simpa using ht, by simpa using hs⟩
    · rw [if_neg he, if_pos]
      by_contra hn
      simp only [admitsBound_eq, not_or] at hn
      obtain ⟨hc, hu, hf, ht, hs⟩ := hn
      refine he ⟨hl, ?_, ?_, by simpa using hf, by simpa using ht, by simpa using hs⟩
      · rw [hcr]
        exact decide_eq_true (not_lt.mp hc)
      · rw [hup]
        exact decide_eq_true (not_lt.mp hu)
  · rename_i hn
    rw [if_neg]
    rintro ⟨-, hc, hu, -⟩
    obtain ⟨c, hcr, -⟩ := (Option.any_eq_true _ _).mp hc
    obtain ⟨u, hup, -⟩ := (Option.any_eq_true _ _).mp hu
    exact hn c u hcr hup

/-! ## Pages -/

theorem nodup_filter_ids (p : StoredMemory → Bool) :
    ((table.rows.filter p).map StoredMemory.id).Nodup :=
  table.unique.sublist (List.filter_sublist.map _)

theorem sorted_liveRows : KeysetPages.Sorted strCmp StoredMemory.id (liveRows table workspace) :=
  KeysetPages.sorted_insertionSort (nodup_filter_ids _)

/-- A page is the beginning of the rows after the cursor. -/
theorem queryPage_eq (c : Option String) : queryPage table workspace c size
      = (KeysetPages.after strCmp StoredMemory.id c (liveRows table workspace)).take size := by
  have hf : (table.rows.filter fun row => decide (row.workspaceId = workspace
        ∧ row.tombstonedAt = none ∧ c.all fun after => strCmp after row.id = .lt))
      = (table.rows.filter fun row => row.workspaceId = workspace ∧ row.tombstonedAt = none).filter
          fun row => c.all fun after => strCmp after row.id = .lt := by
    rw [List.filter_filter]
    refine List.filter_congr fun row _ => ?_
    rw [Bool.eq_iff_iff, decide_eq_true_eq, Bool.and_eq_true, decide_eq_true_eq]
    tauto
  rw [queryPage, hf, KeysetPages.insertionSort_filter (nodup_filter_ids _)]
  rfl

/-- A page of rows in order, all after the cursor, is read to its end. -/
theorem selectRows_eq {r : List StoredMemory} {c : Option String} {s : List Key}
    (hs : KeysetPages.Sorted strCmp StoredMemory.id r)
    (hc : ∀ row ∈ r, ∀ ps ∈ c, strCmp ps row.id = .lt) :
    selectRows instant at' limit r c s = .ok ((r.getLast?.map StoredMemory.id).or c,
        (r.filterMap (eligibleKey instant at')).foldl (insertPop keyCmp limit) s) := by
  induction r generalizing c s with
  | nil => rfl
  | cons row r ih =>
    obtain ⟨hro, hr⟩ := List.pairwise_cons.mp hs
    have ha : (c.any fun ps => strCmp row.id ps ≠ .gt) = false := by
      rw [Option.any_eq_false]
      intro ps hp
      have hlt := hc row List.mem_cons_self ps hp
      rw [← Std.OrientedCmp.gt_iff_lt] at hlt
      simp [hlt]
    have hn : ∀ r' ∈ r, ∀ ps ∈ some row.id, strCmp ps r'.id = .lt := by
      intro r' hr' ps hp
      cases hp
      exact hro r' hr'
    have hl : ((row :: r).getLast?.map StoredMemory.id).or c
        = (r.getLast?.map StoredMemory.id).or (some row.id) := by
      cases r with
      | nil => rfl
      | cons r' r =>
        rw [List.getLast?_cons_cons]
        cases hg : (r' :: r).getLast? with
        | none => simp at hg
        | some l => rfl
    rw [selectRows, ha, hl, List.filterMap_cons]
    simp only [Bool.false_eq_true, if_false]
    cases hk : eligibleKey instant at' row with
    | none => exact ih hr hn
    | some key => exact ih hr hn

/-- **Page after page, every row is read once.** -/
theorem selectPages_eq (hsi : 0 < size) {f : ℕ} {c : Option String} {s : List Key}
    (hf : (KeysetPages.after strCmp StoredMemory.id c (liveRows table workspace)).length < f) :
    selectPages instant table workspace at' limit size f c s
      = some (.ok (((KeysetPages.after strCmp StoredMemory.id c
          (liveRows table workspace)).filterMap (eligibleKey instant at')).foldl
            (insertPop keyCmp limit) s)) := by
  induction f generalizing c s with
  | zero => exact absurd hf (Nat.not_lt_zero _)
  | succ f ih =>
    have hl : KeysetPages.Sorted strCmp StoredMemory.id (liveRows table workspace) :=
      sorted_liveRows
    have ha : ∀ row ∈ KeysetPages.after strCmp StoredMemory.id c
        (liveRows table workspace), ∀ ps ∈ c, strCmp ps row.id = .lt :=
      fun row hr => (KeysetPages.mem_after.mp hr).2
    have hs := hl.after c
    rw [selectPages, queryPage_eq]
    generalize hle : KeysetPages.after strCmp StoredMemory.id c (liveRows table workspace)
      = left at hf ha hs ⊢
    rw [selectRows_eq (hs.sublist (List.take_sublist _ _))
      (fun row hr => ha row (List.mem_of_mem_take hr))]
    dsimp only
    split
    · rename_i hsh
      rw [List.length_take] at hsh
      rw [List.take_of_length_le (by omega)]
    · -- The page is full: its last row is the cursor, and the rest is left.
      rename_i hfu
      rw [List.length_take] at hfu
      have hne : left.take size ≠ [] := by
        rw [ne_eq, List.take_eq_nil_iff]
        rintro (hz | rfl)
        · omega
        · simp at hfu
          omega
      have hp : left.take size = (left.take size).dropLast ++ [(left.take size).getLast hne] :=
        (List.dropLast_append_getLast hne).symm
      have hsp : left = (left.take size).dropLast ++ [(left.take size).getLast hne]
          ++ left.drop size := by
        rw [← hp, List.take_append_drop]
      have hre : KeysetPages.after strCmp StoredMemory.id
          (some ((left.take size).getLast hne).id) (liveRows table workspace) = left.drop size :=
        hl.after_page (hle.trans hsp)
      rw [List.getLast?_eq_getLast_of_ne_nil hne]
      have hn := @ih (some ((left.take size).getLast hne).id)
        ((List.filterMap (eligibleKey instant at') (left.take size)).foldl
          (insertPop keyCmp limit) s)
      rw [hre, List.length_drop] at hn
      refine (hn (by omega)).trans ?_
      rw [← List.foldl_append, ← List.filterMap_append, List.take_append_drop]

/-! ## The newest rows -/

instance : Std.TransCmp keyCmp := by
  have hfirst : Std.TransCmp fun left right : Key => compare right.1 left.1 :=
    @Std.TransCmp.opposite _ _ (@ComparisonSort.transCmp_on Key ℤ compare _ Prod.fst)
  have hsecond : Std.TransCmp fun left right : Key => strCmp left.2 right.2 :=
    ComparisonSort.transCmp_on Prod.snd
  exact inferInstanceAs (Std.TransCmp (compareLex _ _))

instance : Std.LawfulEqCmp keyCmp where
  compare_self := by
    intro key
    rw [keyCmp, Std.ReflOrd.compare_self, Ordering.then_eq_eq]
    exact ⟨rfl, Std.ReflCmp.compare_self⟩
  eq_of_compare := by
    intro left right h
    obtain ⟨hfirst, hsecond⟩ := Ordering.then_eq_eq.mp h
    exact Prod.ext (Std.LawfulEqOrd.eq_of_compare hfirst).symm
      (Std.LawfulEqCmp.eq_of_compare hsecond)

theorem mem_newest {row : StoredMemory} :
    row ∈ newest instant table workspace at'
      ↔ row ∈ table.rows ∧ Eligible instant workspace at' row := by
  rw [newest, List.mem_insertionSort, List.mem_filter, decide_eq_true_eq]

/-- Ids are unique, and so are keys. -/
theorem nodup_newest_ids : ((newest instant table workspace at').map StoredMemory.id).Nodup :=
  ((List.perm_insertionSort _ _).map _).nodup_iff.mpr (nodup_filter_ids _)

/-- The keys of the newest rows are the sorted keys of the rows that were read. -/
theorem map_keyOf_newest : (newest instant table workspace at').map (keyOf instant)
    = BoundedInsert.sortDedup keyCmp
        ((liveRows table workspace).filterMap (eligibleKey instant at')) := by
  obtain ⟨hs, hm⟩ := @BoundedInsert.sortDedup_spec _ keyCmp _ _
    ((liveRows table workspace).filterMap (eligibleKey instant at'))
  refine BoundedInsert.StrictlySorted.eq_of_mem_iff ?_ hs ?_
  · have hi := @nodup_filter_ids table (Eligible instant workspace at' ·)
    have hke : ((table.rows.filter (Eligible instant workspace at' ·)).map
        (keyOf instant)).Nodup := by
      refine List.Nodup.of_map Prod.snd ?_
      rw [List.map_map]
      exact hi
    rw [BoundedInsert.StrictlySorted, List.pairwise_map]
    exact KeysetPages.sorted_insertionSort hke
  · intro key
    rw [hm, List.mem_map, List.mem_filterMap]
    constructor
    · rintro ⟨row, hr, rfl⟩
      obtain ⟨hm, he⟩ := mem_newest.mp hr
      have hl := mem_liveRows.mpr ⟨hm, he.1⟩
      exact ⟨row, hl, (eligibleKey_eq hl).trans (if_pos he)⟩
    · rintro ⟨row, hr, hk⟩
      rw [eligibleKey_eq hr] at hk
      split at hk
      · rename_i he
        exact ⟨row, mem_newest.mpr ⟨(mem_liveRows.mp hr).1, he⟩, Option.some.inj hk⟩
      · cases hk

/-! ## Loading -/

/-- The bodies of rows that are loaded, whatever else is. -/
theorem takeLoaded_eq {r l : List StoredMemory}
    (hu : (l.map StoredMemory.id).Nodup) (hn : (r.map StoredMemory.id).Nodup)
    (hr : ∀ row ∈ r, row ∈ l ∧ row.workspaceId = workspace ∧ row.tombstonedAt = none) :
    takeLoaded workspace (r.map StoredMemory.id) l = .ok r := by
  induction r generalizing l with
  | nil => rfl
  | cons row r ih =>
    obtain ⟨hl, hw, hli⟩ := hr row List.mem_cons_self
    obtain ⟨hfr, hre⟩ := List.nodup_cons.mp hn
    have hfi : l.find? (·.id = row.id) = some row := by
      have hs : (l.find? (·.id = row.id)).isSome := by
        rw [List.find?_isSome]
        exact ⟨row, hl, decide_eq_true rfl⟩
      obtain ⟨f, hf⟩ := Option.isSome_iff_exists.mp hs
      have hid : f.id = row.id := by simpa using List.find?_some hf
      rw [hf, List.inj_on_of_nodup_map hu (List.mem_of_find?_eq_some hf) hl hid]
    have ht : takeLoaded workspace (r.map StoredMemory.id) (l.filter (·.id ≠ row.id)) = .ok r := by
      refine ih (hu.sublist (List.filter_sublist.map _)) hre fun other ho => ?_
      obtain ⟨hin, ho'⟩ := hr other (List.mem_cons_of_mem _ ho)
      refine ⟨List.mem_filter.mpr ⟨hin, decide_eq_true fun heq => hfr ?_⟩, ho'⟩
      exact heq ▸ List.mem_map_of_mem ho
    rw [List.map_cons, takeLoaded, hfi]
    dsimp only
    rw [if_neg (by simp [hw, hli]), ht]
    rfl

theorem loadPages_eq {ps : List (List String)} {r : List StoredMemory}
    (hp : ps.flatten = r.map StoredMemory.id)
    (hn : (r.map StoredMemory.id).Nodup)
    (hro : ∀ row ∈ r, row ∈ table.rows ∧ row.workspaceId = workspace ∧ row.tombstonedAt = none) :
    loadPages table workspace ps = .ok r := by
  induction ps generalizing r with
  | nil =>
    cases r with
    | nil => rfl
    | cons row r => cases hp
  | cons p ps ih =>
    rw [List.flatten_cons, eq_comm, List.map_eq_append_iff] at hp
    obtain ⟨f, b, rfl, hf, hb⟩ := hp
    rw [List.map_append, List.nodup_append] at hn
    have hpa : takeLoaded workspace p (getMemoriesBatch table p) = .ok f := by
      rw [← hf]
      refine takeLoaded_eq (nodup_filter_ids _) hn.1 fun row hr => ?_
      obtain ⟨hm, hl⟩ := hro row (List.mem_append_left _ hr)
      refine ⟨List.mem_filter.mpr ⟨hm, decide_eq_true ?_⟩, hl⟩
      exact List.mem_map_of_mem hr
    have hre : loadPages table workspace ps = .ok b :=
      ih hb.symm hn.2.1 fun row hr => hro row (List.mem_append_right _ hr)
    rw [loadPages, hpa, hre]
    rfl

/-- The chunks of a list, one after another, are the list. -/
theorem flatten_toChunks {α : Type*} (n : ℕ) (l : List α) : (l.toChunks n).flatten = l := by
  have hgo : ∀ (l : List α) (n : ℕ) (c : Array α) (cs : Array (List α)),
      (List.toChunks.go n l c cs).flatten = cs.toList.flatten ++ c.toList ++ l := by
    intro l
    induction l with
    | nil =>
      intro n c cs
      simp [List.toChunks.go]
    | cons x l ih =>
      intro n c cs
      rw [List.toChunks.go]
      split
      · rw [ih]
        simp
      · rw [ih]
        simp
  cases l with
  | nil => rfl
  | cons x l =>
    cases n with
    | zero => simp [List.toChunks]
    | succ n =>
      rw [List.toChunks, hgo]
      · rfl
      · exact nofun

/-- **Recent memories are exactly the newest ones**, for every table, every limit and every size of
a page: the rows that may be used, newest creation instant first and then by id, up to the limit. -/
theorem recent_memories_are_the_newest (instant : String → Option ℤ) (table : Table)
    (workspace asOf : String) (limit : ℕ) {size : ℕ} (hsize : 0 < size) :
    recent instant table workspace asOf limit size = some (match instant asOf with
        | some at' => .ok ((newest instant table workspace at').take limit)
        | none => .error (malformed "Memory reference time must be RFC3339")) := by
  unfold recent reference
  cases hat : instant asOf with
  | none => rfl
  | some at' =>
    dsimp only
    split
    · rename_i hz
      rw [hz, List.take_zero]
    · have hf : (KeysetPages.after strCmp StoredMemory.id none
          (liveRows table workspace)).length < table.rows.length + 1 := by
        rw [KeysetPages.after_none, liveRows, List.length_insertionSort]
        exact Nat.lt_succ_of_le (List.length_filter_le _ _)
      rw [selectPages_eq hsize hf, KeysetPages.after_none, BoundedInsert.foldl_insertPop,
        ← map_keyOf_newest, ← List.map_take, Option.map_some, Except.bind, List.map_map]
      refine congrArg some (loadPages_eq (flatten_toChunks _ _) ?_ ?_)
      · exact nodup_newest_ids.sublist ((List.take_sublist _ _).map _)
      · intro row hr
        obtain ⟨hm, he⟩ := mem_newest.mp (List.mem_of_mem_take hr)
        exact ⟨hm, he.1⟩

end

/-- Two days, and a text that is no instant. -/
def sampleInstant (text : String) : Option ℤ :=
  if text = "2026-01-01T00:00:00Z" then some 1767225600000000000
  else if text = "2026-01-02T00:00:00Z" ∨ text = "2026-01-02T01:00:00+01:00" then
    some 1767312000000000000
  else none

def sampleMemory (id createdAt : String) (validTo : Option String) : StoredMemory :=
  ⟨id, "ws", "", createdAt, createdAt, none, validTo, none, none⟩

def sampleTable : Table where
  rows :=
    [sampleMemory "m3" "2026-01-02T00:00:00Z" none, sampleMemory "m1" "2026-01-01T00:00:00Z" none,
      sampleMemory "m2" "2026-01-02T01:00:00+01:00" none,
      sampleMemory "m0" "2026-01-02T00:00:00Z" (some "2026-01-01T00:00:00Z")]
  unique := by decide

/-- One instant in two spellings, an expired row, and pages of two rows. -/
theorem recent_memories_are_the_newest_sample :
    recent sampleInstant sampleTable "ws" "2026-01-02T00:00:00Z" 2 2
      = some (.ok [sampleMemory "m2" "2026-01-02T01:00:00+01:00" none,
        sampleMemory "m3" "2026-01-02T00:00:00Z" none]) :=
  (recent_memories_are_the_newest sampleInstant sampleTable "ws" "2026-01-02T00:00:00Z" 2
    (by decide)).trans (by decide +kernel)

end MemoryTemporal
