/-
# Recovery of orphaned daemon jobs

When a daemon starts, jobs that an earlier daemon left pending or running are closed: for every job
key whose last row in the journal is open, a cancelled row is appended.  The last rows are found
through the external index, which is built by a scan of the whole journal before its tail is
repaired; the rows are read again at their offsets while new rows are appended behind them.

The row ids, the time of the recovery and the capacities of the strings are parameters.
-/
import EideticEngine.DetailBudget
import EideticEngine.JournalLevels
import EideticEngine.JournalLines

namespace OrphanRecovery

open DetailBudget Hex JobJournal JournalIndex LatestEntries RustText

/-! ## The recovery -/

/-- `is_open`. -/
def isOpen (row : DaemonJobRow) : Bool :=
  row.status = "pending" ∨ row.status = "running"

/-- `MAX_RECOVERY_DETAILS`. -/
def maxRecoveryDetails : ℕ := 256

/-- `DaemonRecoveryReport`. -/
structure DaemonRecoveryReport where
  workspace : String
  tablePath : String
  recoveredAt : String
  scannedRows : ℕ
  openJobsCancelled : ℕ
  recoveredRows : List DaemonJobRow
  recoveredRowsTruncated : Bool

/-- A call of the recovery: its arguments, the time it starts and the ids that `new_row_id` gives
one after another. -/
structure RecoveryCall where
  workspace : String
  path : String
  reason : String
  recoveredAt : String
  newRowId : ℕ → String

/-- The report before anything was done. -/
def RecoveryCall.report (call : RecoveryCall) : DaemonRecoveryReport where
  workspace := call.workspace
  tablePath := call.path
  recoveredAt := call.recoveredAt
  scannedRows := 0
  openJobsCancelled := 0
  recoveredRows := []
  recoveredRowsTruncated := false

/-- The row that closes an open one, as the given row of the recovery. -/
def RecoveryCall.recoveredRow (call : RecoveryCall) (n : ℕ) (row : DaemonJobRow) : DaemonJobRow :=
  { row with
    rowId := call.newRowId n
    status := "cancelled"
    outcome := some "cancelled"
    reason := "daemon restart recovery; prior execution outcome may be unknown"
    completedAt := some call.recoveredAt
    recordedAt := call.recoveredAt
    durationMs := none
    itemsProcessed := none
    error := some call.reason
    durableMutation := false
    recoveredFromOrphan := true
    recoveryReason := some call.reason }

/-- The state of the recovery loop. -/
structure RecoveryState where
  disk : Disk
  report : DaemonRecoveryReport
  detailBytes : ℕ

section

variable (serde : JobRowSerde) (hash : List UInt8 → Bytes32) (sizeOfEntry sizeOfRow : ℕ)
  (keyCapacity : DaemonJobRow → ℕ) (hold : DaemonJobRow → HeldRow)

/-- The visitor of `build_index`. -/
def indexRow (index : LatestIndex) (row : DaemonJobRow) (offset : ℕ) :
    Except String LatestIndex :=
  (index.insert sizeOfEntry row.daemonJobKey (keyCapacity row) (Fin.ofNat (2 ^ 64) offset)).mapError
    ("Index daemon journal: " ++ ·)

/-- `build_index`. -/
def buildIndex (path : String) (journal : List UInt8) : Except String (ℕ × LatestKeys) := do
  let (index, rows) ← scan serde path (fun index row offset _ =>
    indexRow sizeOfEntry keyCapacity index row offset) journal LatestIndex.default
  let keys ← index.finish.mapError ("Finish daemon journal index: " ++ ·)
  .ok (rows, keys)

/-- The report with one more row, which is listed while there is room for it. -/
def recordRow (s : RecoveryState) (disk : Disk) (row : DaemonJobRow) : RecoveryState :=
  let bytes := retainedBytes sizeOfRow (hold row)
  if s.report.recoveredRowsTruncated = false
      ∧ s.report.recoveredRows.length < maxRecoveryDetails
      ∧ bytes ≤ maxDetailBytes - s.detailBytes then
    { disk
      detailBytes := s.detailBytes + bytes
      report :=
        { s.report with
          openJobsCancelled := s.report.openJobsCancelled + 1
          recoveredRows := s.report.recoveredRows ++ [row] } }
  else
    { disk
      detailBytes := s.detailBytes
      report :=
        { s.report with
          openJobsCancelled := s.report.openJobsCancelled + 1
          recoveredRowsTruncated := true } }

/-- A round of the recovery loop: the last row of a key. -/
def recoverEntry (call : RecoveryCall) (s : RecoveryState) (entry : Entry) :
    Except String Unit × RecoveryState :=
  match rowAt serde call.path s.disk.journal entry.2 with
  | .error e => (.error e, s)
  | .ok row =>
    if isOpen row = false then (.ok (), s)
    else
      let row := call.recoveredRow s.report.openJobsCancelled row
      match writeRow serde s.disk row none with
      | (.error e, disk) => (.error e, { s with disk })
      | (.ok (), disk) => (.ok (), recordRow sizeOfRow hold s disk row)

/-- The recovery loop over the keys of the index. -/
def recoverKeys (call : RecoveryCall) :
    ℕ → RecoveryState → LatestKeys → Except String Unit × RecoveryState
  | 0, s, _ => (.ok (), s)
  | fuel + 1, s, keys =>
    match keys.next with
    | (none, _) => (.ok (), s)
    | (some (.error e), _) => (.error ("Read daemon recovery index: " ++ e), s)
    | (some (.ok entry), keys) =>
      match recoverEntry serde sizeOfRow hold call s entry with
      | (.error e, s) => (.error e, s)
      | (.ok (), s) => recoverKeys call fuel s keys

/-- The recovery of a journal that was opened and locked. -/
def recoverFile (call : RecoveryCall) (disk : Disk) :
    Except String DaemonRecoveryReport × Disk :=
  match buildIndex serde sizeOfEntry keyCapacity call.path disk.journal with
  | .error e => (.error e, disk)
  | .ok (rows, keys) =>
    match repairTail serde hash disk with
    | (.error e, disk) => (.error e, disk)
    | (.ok (), disk) =>
      match recoverKeys serde sizeOfRow hold call keys.bound
        ⟨disk, { call.report with scannedRows := rows }, 0⟩ keys with
      | (.error e, s) => (.error e, s.disk)
      | (.ok (), s) => (.ok s.report, s.disk)

/-- `recover_orphaned_daemon_jobs_inner`, for a journal that may be absent and a lease that may be
missing. -/
def recoverOrphanedDaemonJobs (call : RecoveryCall) (lease : Bool) (disk : Option Disk) :
    Except String DaemonRecoveryReport × Option Disk :=
  match disk with
  | none => (.ok call.report, none)
  | some disk =>
    if lease = false then
      (.error "Daemon journal appeared before recovery acquired its execution lease; retry",
        some disk)
    else
      match recoverFile serde hash sizeOfEntry sizeOfRow keyCapacity hold call disk with
      | (result, disk) => (result, some disk)

end

/-- The rows that a scan visits, in order. -/
def scannedRows (serde : JobRowSerde) (path : String) (journal : List UInt8) :
    Except String (List DaemonJobRow) :=
  (scan serde path (fun rows row _ _ => .ok (rows ++ [row])) journal []).map Prod.fst

/-- The last row of a job key. -/
def latestRow (rows : List DaemonJobRow) (key : String) : Option DaemonJobRow :=
  (rows.filter fun row => row.daemonJobKey = key).getLast?

/-- What the JSON library promises for a row: it prints an object without a raw newline and reads
the line back. -/
structure PrintsBack (serde : JobRowSerde) (row : DaemonJobRow) : Prop where
  noNewline : newline ∉ serde.print row
  opens : (serde.print row).head? = some 123
  roundTripLine : serde.fromSlice (serde.print row ++ [newline]) = .ok row

/-! ## The last rows of a journal -/

theorem latestRow_append (rows m : List DaemonJobRow) (key : String) :
    latestRow (rows ++ m) key = (latestRow m key).or (latestRow rows key) := by
  unfold latestRow
  rw [List.filter_append, List.getLast?_append]

theorem latestRow_isSome_iff {rows : List DaemonJobRow} {key : String} :
    (latestRow rows key).isSome = true ↔ ∃ row ∈ rows, row.daemonJobKey = key := by
  unfold latestRow
  rw [List.getLast?_isSome, ne_eq, List.filter_eq_nil_iff]
  simp

/-- The latest row of a key is a row of the key. -/
theorem mem_of_latestRow {rows : List DaemonJobRow} {key : String} {row : DaemonJobRow}
    (h : latestRow rows key = some row) : row ∈ rows ∧ row.daemonJobKey = key := by
  have hm := List.mem_filter.mp (List.mem_of_getLast? h)
  exact ⟨hm.1, of_decide_eq_true hm.2⟩

/-- Of rows in the order of their offsets, the one with the greatest offset is the last. -/
theorem latestRow_of_greatest {placed : List (DaemonJobRow × ℕ)}
    (hs : placed.Pairwise fun a b => a.2 < b.2) {row : DaemonJobRow} {o : ℕ}
    (hm : (row, o) ∈ placed)
    (hg : ∀ v ∈ placed, v.1.daemonJobKey = row.daemonJobKey → v.2 ≤ o) :
    latestRow (placed.map Prod.fst) row.daemonJobKey = some row := by
  obtain ⟨f, ba, rfl⟩ := List.append_of_mem hm
  have hb : latestRow (ba.map Prod.fst) row.daemonJobKey = none := by
    rw [← Option.not_isSome_iff_eq_none, latestRow_isSome_iff]
    rintro ⟨other, ho, hk⟩
    obtain ⟨v, hv, rfl⟩ := List.mem_map.mp ho
    have hlt : o < v.2 := List.rel_of_pairwise_cons (List.pairwise_append.mp hs).2.1 hv
    have hle := hg v (by simp [hv]) hk
    omega
  rw [List.map_append, latestRow_append, List.map_cons, ← List.singleton_append, latestRow_append,
    hb]
  simp [latestRow]

/-! ## The index of a journal -/

/-- The entry of a placed row. -/
def entryOf (v : DaemonJobRow × ℕ) : Entry := (v.1.daemonJobKey, Fin.ofNat (2 ^ 64) v.2)

section

variable {sizeOfEntry : ℕ} {keyCapacity : DaemonJobRow → ℕ} {placed : List (DaemonJobRow × ℕ)}

/-- Rows whose keys are within the limit are indexed. -/
theorem foldlM_indexRow (sizeOfEntry : ℕ) (keyCapacity : DaemonJobRow → ℕ) {index : LatestIndex}
    {l : List Entry} (h : Holds index l)
    (hs : ∀ v ∈ placed, v.1.daemonJobKey.utf8ByteSize ≤ maxKeyBytes) :
    ∃ i', placed.foldlM (fun s v => indexRow sizeOfEntry keyCapacity s v.1 v.2) index
        = .ok i' ∧ Holds i' (l ++ placed.map entryOf) := by
  induction placed generalizing index l with
  | nil =>
    refine ⟨index, rfl, ?_⟩
    rw [List.map_nil, List.append_nil]
    exact h
  | cons v placed ih =>
    obtain ⟨hv, hr⟩ := List.forall_mem_cons.mp hs
    obtain ⟨i', hi, hh⟩ := h.insert sizeOfEntry (keyCapacity v.1) (Fin.ofNat (2 ^ 64) v.2) hv
    obtain ⟨i'', hf, hh'⟩ := ih hh hr
    refine ⟨i'', ?_, ?_⟩
    · rw [List.foldlM_cons, indexRow, hi]
      exact hf
    · rw [List.map_cons, List.append_cons]
      exact hh'

/-- An index that was built has only keys within the limit. -/
theorem short_of_foldlM_indexRow {index i' : LatestIndex}
    (h : placed.foldlM (fun s v => indexRow sizeOfEntry keyCapacity s v.1 v.2) index
      = .ok i') : ∀ v ∈ placed, v.1.daemonJobKey.utf8ByteSize ≤ maxKeyBytes := by
  induction placed generalizing index with
  | nil => exact List.forall_mem_nil _
  | cons v placed ih =>
    rw [List.foldlM_cons] at h
    obtain ⟨i₁, hi, hr⟩ := Except.bind_eq_ok_iff.mp h
    refine List.forall_mem_cons.mpr ⟨?_, ih hr⟩
    by_contra hlong
    unfold indexRow LatestIndex.insert at hi
    rw [if_pos (Nat.lt_of_not_le hlong)] at hi
    cases hi

/-- The index of placed rows lists, in the order of the keys, where the last row of each key is. -/
structure Indexed (placed : List (DaemonJobRow × ℕ)) (entries : List Entry) : Prop where
  nodup : (entries.map Prod.fst).Nodup
  located : ∀ entry ∈ entries, ∃ row, (row, entry.2.val) ∈ placed
    ∧ latestRow (placed.map Prod.fst) entry.1 = some row
  complete : ∀ key row, latestRow (placed.map Prod.fst) key = some row →
    key ∈ entries.map Prod.fst

/-- **The index finds the last row of every key.** -/
theorem indexed_of_isLatest (hs : placed.Pairwise fun a b => a.2 < b.2)
    (hsi : ∀ v ∈ placed, v.2 < 2 ^ 64) {entries : List Entry}
    (h : IsLatest strCmp entries (placed.map entryOf)) : Indexed placed entries := by
  have hva : ∀ v ∈ placed, (entryOf v).2.val = v.2 := by
    intro v hv
    exact Nat.mod_eq_of_lt (hsi v hv)
  refine ⟨h.ascending.nodup_keys, ?_, ?_⟩
  · rintro ⟨key, o⟩ he
    obtain ⟨hm, hg⟩ := h.mem he
    obtain ⟨⟨row, place⟩, hpl, heq⟩ := List.mem_map.mp hm
    have hp := hva _ hpl
    rw [heq] at hp
    have hk : row.daemonJobKey = key := congrArg Prod.fst heq
    subst hk
    dsimp only at hp ⊢
    refine ⟨row, hp ▸ hpl, latestRow_of_greatest hs hpl ?_⟩
    intro v hv hk
    have hle := hg (entryOf v).2 (by
      rw [← hk]
      exact List.mem_map_of_mem hv)
    rw [Fin.le_iff_val_le_val, hva v hv, hp] at hle
    exact hle
  · intro key row hr
    obtain ⟨hm, hk⟩ := mem_of_latestRow hr
    obtain ⟨v, hv, rfl⟩ := List.mem_map.mp hm
    rw [h.mem_keys_iff, List.map_map, List.mem_map]
    exact ⟨v, hv, hk⟩

end

/-! ## The loop over the keys -/

section

variable {serde : JobRowSerde} {sizeOfRow : ℕ} {hold : DaemonJobRow → HeldRow}
  {call : RecoveryCall}

/-- The recovery loop over listed entries. -/
def recoverEntries (serde : JobRowSerde) (sizeOfRow : ℕ) (hold : DaemonJobRow → HeldRow)
    (call : RecoveryCall) : RecoveryState → List Entry → Except String Unit × RecoveryState
  | s, [] => (.ok (), s)
  | s, entry :: entries =>
    match recoverEntry serde sizeOfRow hold call s entry with
    | (.error e, s) => (.error e, s)
    | (.ok (), s) => recoverEntries serde sizeOfRow hold call s entries

/-- The loop over the keys is the loop over the entries that they give. -/
theorem recoverKeys_eq (f : ℕ) (s : RecoveryState) (keys : LatestKeys) {entries : List Entry}
    (h : keys.collectUpTo f = .ok entries) :
    recoverKeys serde sizeOfRow hold call f s keys
      = recoverEntries serde sizeOfRow hold call s entries := by
  induction f generalizing s keys entries with
  | zero =>
    cases h
    rfl
  | succ f ih =>
    rw [LatestKeys.collectUpTo] at h
    rw [recoverKeys]
    rcases hn : keys.next with ⟨_ | ⟨e | en⟩, k'⟩
    · rw [hn] at h
      cases h
      rfl
    · rw [hn] at h
      cases h
    · rw [hn] at h
      obtain ⟨r, hr, heq⟩ := Except.bind_eq_ok_iff.mp h
      cases heq
      dsimp only
      rw [recoverEntries]
      rcases recoverEntry serde sizeOfRow hold call s en with ⟨e | ⟨⟩, s'⟩
      · rfl
      · exact ih s' k' hr

/-- The open last rows of some keys. -/
def openRows (rows : List DaemonJobRow) (entries : List Entry) : List DaemonJobRow :=
  entries.filterMap fun entry => (latestRow rows entry.1).filter isOpen

/-- The row that closes another, of a size that the journal accepts. -/
def Closes (serde : JobRowSerde) (call : RecoveryCall) (row new : DaemonJobRow) : Prop :=
  ∃ n, new = call.recoveredRow n row ∧ (serde.print new).length < maxRowBytes

theorem recordRow_disk (s : RecoveryState) (d : Disk) (row : DaemonJobRow) :
    (recordRow sizeOfRow hold s d row).disk = d := by
  unfold recordRow
  dsimp only
  split
  · rfl
  · rfl

theorem recordRow_cancelled (s : RecoveryState) (d : Disk) (row : DaemonJobRow) :
    (recordRow sizeOfRow hold s d row).report.openJobsCancelled
      = s.report.openJobsCancelled + 1 := by
  unfold recordRow
  dsimp only
  split
  · rfl
  · rfl

/-- A row that was written is below the limit, and its line is at the end of the journal. -/
theorem writeRow_ok {d disk' : Disk} {row : DaemonJobRow}
    (h : writeRow serde d row none = (.ok (), disk')) :
    (serde.print row).length < maxRowBytes ∧ disk'.journal = d.journal ++ lineOf serde row := by
  unfold writeRow encodeRow at h
  by_cases hl : (serde.print row).length ≤ maxRowBytes - 1
  · rw [if_pos hl] at h
    cases h
    refine ⟨?_, rfl⟩
    have hp : 0 < maxRowBytes := by decide
    omega
  · rw [if_neg hl] at h
    cases h

variable {lines : List (List UInt8)} {entries : List Entry}

/-- **What the loop appends**: one row for each open last row, in the order of the keys. -/
theorem recoverEntries_appends (hli : ∀ l ∈ lines, GoodLine serde l)
    (s : RecoveryState) {s' : RecoveryState}
    (hl : ∀ en ∈ entries, ∃ row, (row, en.2.val) ∈ placedRows serde 0 lines
      ∧ latestRow ((placedRows serde 0 lines).map Prod.fst) en.1 = some row)
    (hj : lines.flatten <+: s.disk.journal)
    (h : recoverEntries serde sizeOfRow hold call s entries = (.ok (), s')) :
    ∃ added, s'.disk.journal = s.disk.journal ++ added.flatMap (lineOf serde)
      ∧ s'.report.openJobsCancelled = s.report.openJobsCancelled + added.length
      ∧ List.Forall₂ (Closes serde call)
        (openRows ((placedRows serde 0 lines).map Prod.fst) entries) added := by
  induction entries generalizing s with
  | nil =>
    cases h
    exact ⟨[], (List.append_nil _).symm, rfl, List.Forall₂.nil⟩
  | cons en entries ih =>
    obtain ⟨⟨row, hp, hla⟩, hr⟩ := List.forall_mem_cons.mp hl
    obtain ⟨m, hm⟩ := hj
    rw [recoverEntries, recoverEntry, ← hm, rowAt_placedRows hli hp] at h
    dsimp only at h
    rw [openRows, List.filterMap_cons, hla]
    cases ho : isOpen row with
    | false =>
      rw [ho, if_pos rfl] at h
      have hf : (some row).filter isOpen = none := by
        rw [Option.filter_some_eq_none, ho]
        decide
      rw [hf]
      exact ih s hr ⟨m, hm⟩ h
    | true =>
      rw [ho, if_neg (by decide)] at h
      have hf : (some row).filter isOpen = some row := by
        rw [Option.filter_some_eq_some]
        exact ho
      rw [hf]
      rcases hw : writeRow serde s.disk (call.recoveredRow s.report.openJobsCancelled row) none
        with ⟨e | ⟨⟩, disk⟩
      · rw [hw] at h
        cases h
      · rw [hw] at h
        obtain ⟨hb, hd⟩ := writeRow_ok hw
        obtain ⟨added, ha, hc, hcl⟩ := ih (recordRow sizeOfRow hold s disk _) hr (by
            rw [recordRow_disk, hd, ← hm, List.append_assoc]
            exact List.prefix_append _ _) h
        rw [recordRow_disk, hd] at ha
        rw [recordRow_cancelled] at hc
        refine ⟨_ :: added, ?_, ?_, List.Forall₂.cons ⟨_, rfl, hb⟩ hcl⟩
        · rw [ha, List.flatMap_cons, List.append_assoc]
        · rw [hc, List.length_cons]
          omega

/-- Where every last row is closed, the loop changes nothing. -/
theorem recoverEntries_closed (hli : ∀ l ∈ lines, GoodLine serde l) (s : RecoveryState)
    (hl : ∀ en ∈ entries, ∃ row, (row, en.2.val) ∈ placedRows serde 0 lines ∧ isOpen row = false)
    (hj : lines.flatten <+: s.disk.journal) :
    recoverEntries serde sizeOfRow hold call s entries = (.ok (), s) := by
  induction entries with
  | nil => rfl
  | cons en entries ih =>
    obtain ⟨⟨row, hp, hc⟩, hre⟩ := List.forall_mem_cons.mp hl
    have hro : rowAt serde call.path s.disk.journal en.2 = .ok row := by
      obtain ⟨m, hm⟩ := hj
      rw [← hm]
      exact rowAt_placedRows hli hp call.path m
    rw [recoverEntries, recoverEntry, hro]
    dsimp only
    rw [if_pos hc]
    exact ih hre

end

/-! ## What was appended -/

section

variable {serde : JobRowSerde} {call : RecoveryCall} {rows added : List DaemonJobRow}
  {entries : List Entry}

theorem mem_openRows {row : DaemonJobRow} : row ∈ openRows rows entries ↔
      row.daemonJobKey ∈ entries.map Prod.fst ∧ latestRow rows row.daemonJobKey = some row
        ∧ isOpen row = true := by
  unfold openRows
  rw [List.mem_filterMap]
  constructor
  · rintro ⟨en, he, hr⟩
    obtain ⟨hl, ho⟩ := Option.filter_eq_some_iff.mp hr
    have hk := (mem_of_latestRow hl).2
    rw [hk]
    exact ⟨List.mem_map_of_mem he, hl, ho⟩
  · rintro ⟨hk, hl, ho⟩
    obtain ⟨en, he, heq⟩ := List.mem_map.mp hk
    refine ⟨en, he, ?_⟩
    rw [heq]
    exact Option.filter_eq_some_iff.mpr ⟨hl, ho⟩

/-- The keys of the open last rows are different. -/
theorem nodup_openRows (h : (entries.map Prod.fst).Nodup) :
    ((openRows rows entries).map DaemonJobRow.daemonJobKey).Nodup := by
  refine List.Nodup.sublist ?_ h
  unfold openRows
  induction entries with
  | nil => exact List.Sublist.refl _
  | cons en entries ih =>
    have hr := ih (List.nodup_cons.mp h).2
    rw [List.filterMap_cons]
    cases hro : (latestRow rows en.1).filter isOpen with
    | none => exact hr.cons _
    | some row =>
      have hk := (mem_of_latestRow (Option.filter_eq_some_iff.mp hro).1).2
      rw [List.map_cons, List.map_cons, hk]
      exact hr.cons_cons _

/-- A closing row has the key of the row that it closes. -/
theorem map_key_closes {o : List DaemonJobRow} (h : List.Forall₂ (Closes serde call) o added) :
    added.map DaemonJobRow.daemonJobKey = o.map DaemonJobRow.daemonJobKey := by
  induction h with
  | nil => rfl
  | cons hh _ ih =>
    obtain ⟨n, rfl, -⟩ := hh
    rw [List.map_cons, List.map_cons, ih]
    rfl

theorem closes_of_mem {o : List DaemonJobRow}
    (h : List.Forall₂ (Closes serde call) o added) {new : DaemonJobRow} (hn : new ∈ added) :
    ∃ row ∈ o, Closes serde call row new := by
  induction h with
  | nil => cases hn
  | cons hh _ ih =>
    rcases List.mem_cons.mp hn with rfl | hn
    · exact ⟨_, List.mem_cons_self, hh⟩
    · obtain ⟨row, hr, hc⟩ := ih hn
      exact ⟨row, List.mem_cons_of_mem _ hr, hc⟩

/-- A closing row is closed. -/
theorem isOpen_recoveredRow (call : RecoveryCall) (n : ℕ) (row : DaemonJobRow) :
    isOpen (call.recoveredRow n row) = false := by
  have hs : (call.recoveredRow n row).status = "cancelled" := rfl
  unfold isOpen
  rw [hs]
  decide

end

/-! ## Whole recoveries -/

section

variable {serde : JobRowSerde} {hash : List UInt8 → Bytes32} {sizeOfEntry sizeOfRow : ℕ}
  {keyCapacity : DaemonJobRow → ℕ} {hold : DaemonJobRow → HeldRow} {call : RecoveryCall}

/-- The steps of a recovery that succeeds. -/
theorem recoverFile_ok {d disk' : Disk} {report : DaemonRecoveryReport}
    (h : recoverFile serde hash sizeOfEntry sizeOfRow keyCapacity hold call d
      = (.ok report, disk')) :
    ∃ index count keys repaired s, scan serde call.path (fun index row o _ =>
          indexRow sizeOfEntry keyCapacity index row o) d.journal LatestIndex.default
        = .ok (index, count)
      ∧ index.finish = .ok keys
      ∧ repairTail serde hash d = (.ok (), repaired)
      ∧ recoverKeys serde sizeOfRow hold call keys.bound
          ⟨repaired, { call.report with scannedRows := count }, 0⟩ keys = (.ok (), s)
      ∧ report = s.report ∧ disk' = s.disk := by
  unfold recoverFile at h
  cases hb : buildIndex serde sizeOfEntry keyCapacity call.path d.journal with
  | error e =>
    rw [hb] at h
    cases h
  | ok b =>
    obtain ⟨count, keys⟩ := b
    rw [hb] at h
    dsimp only at h
    obtain ⟨⟨index, c'⟩, hs, hf⟩ := Except.bind_eq_ok_iff.mp hb
    obtain ⟨k', hk, heq⟩ := Except.bind_eq_ok_iff.mp hf
    rw [Except.mapError_eq_ok_iff] at hk
    cases heq
    rcases hr : repairTail serde hash d with ⟨e | ⟨⟩, repaired⟩
    · rw [hr] at h
      cases h
    · rw [hr] at h
      dsimp only at h
      rcases hl : recoverKeys serde sizeOfRow hold call keys.bound
        ⟨repaired, { call.report with scannedRows := count }, 0⟩ keys with ⟨e | ⟨⟩, s⟩
      · rw [hl] at h
        cases h
      · rw [hl] at h
        cases h
        exact ⟨index, count, keys, repaired, s, hs, hk, rfl, hl, rfl, rfl⟩

/-- The index of a journal whose scan visits placed rows, and the entries that it gives. -/
theorem finish_indexRow (sizeOfEntry : ℕ) (keyCapacity : DaemonJobRow → ℕ)
    {placed : List (DaemonJobRow × ℕ)} (hs : placed.Pairwise fun a b => a.2 < b.2)
    (hsi : ∀ v ∈ placed, v.2 < 2 ^ 64)
    (hsh : ∀ v ∈ placed, v.1.daemonJobKey.utf8ByteSize ≤ maxKeyBytes) :
    ∃ index keys entries,
      placed.foldlM (fun s v => indexRow sizeOfEntry keyCapacity s v.1 v.2) LatestIndex.default
        = .ok index
      ∧ index.finish = .ok keys ∧ keys.collect = .ok entries ∧ Indexed placed entries := by
  obtain ⟨index, hfo, hh⟩ := foldlM_indexRow sizeOfEntry keyCapacity holds_default hsh
  obtain ⟨keys, entries, hf, hc, hl⟩ := hh.finish
  rw [List.nil_append] at hl
  exact ⟨index, keys, entries, hfo, hf, hc, indexed_of_isLatest hs hsi hl⟩

/-- The rows that a scan visits. -/
theorem scannedRows_eq {j : List UInt8} {placed : List (DaemonJobRow × ℕ)} {p : String}
    (h : ∀ (τ : Type) (p : String) (f : τ → DaemonJobRow → ℕ → Except String τ) (visit : τ),
      scan serde p (fun s row o _ => f s row o) j visit
        = (placed.foldlM (fun s v => f s v.1 v.2) visit).map fun s => (s, placed.length)) :
    scannedRows serde p j = .ok (placed.map Prod.fst) := by
  have hf : ∀ (placed : List (DaemonJobRow × ℕ)) (rows : List DaemonJobRow),
      placed.foldlM (fun rows v => (.ok (rows ++ [v.1]) : Except String (List DaemonJobRow))) rows
        = .ok (rows ++ placed.map Prod.fst) := by
    intro placed
    induction placed with
    | nil =>
      intro rows
      rw [List.map_nil, List.append_nil]
      rfl
    | cons v placed ih =>
      intro rows
      rw [List.foldlM_cons, Except.ok_then, ih, List.map_cons, List.append_assoc,
        List.singleton_append]
  unfold scannedRows
  rw [h (List DaemonJobRow) p (fun rows row _ => .ok (rows ++ [row])) [], hf]
  rfl

/-- The line of a row that is read back. -/
theorem PrintsBack.goodLine {row : DaemonJobRow} (h : PrintsBack serde row)
    (hb : (serde.print row).length < maxRowBytes) : GoodLine serde (lineOf serde row) := by
  refine ⟨⟨serde.print row, rfl, h.noNewline⟩, ?_, Or.inr ⟨row, h.roundTripLine⟩⟩
  rw [lineOf, List.length_append, List.length_singleton]
  omega

/-- The rows of printed lines. -/
theorem placedRows_printed (added : List DaemonJobRow) (start : ℕ)
    (h : ∀ row ∈ added, PrintsBack serde row) :
    (placedRows serde start (added.map (lineOf serde))).map Prod.fst = added := by
  induction added generalizing start with
  | nil => rfl
  | cons row added ih =>
    obtain ⟨hr, hre⟩ := List.forall_mem_cons.mp h
    have hb : (lineOf serde row).all isAsciiWhitespace = false := by
      apply not_blank_of_head
      rw [lineOf, List.head?_append, hr.opens]
      rfl
    rw [List.map_cons, placedRows, lineRow?_of_ok hb hr.roundTripLine, List.map_append, ih _ hre]
    rfl

/-- **A journal whose last rows are closed is left as it is.** -/
theorem recoverFile_closed (call : RecoveryCall) {d : Disk} {lines : List (List UInt8)}
    (hl : ∀ l ∈ lines, GoodLine serde l) (hj : d.journal = lines.flatten)
    (hsi : d.journal.length < 2 ^ 64)
    (hs : ∀ v ∈ placedRows serde 0 lines, v.1.daemonJobKey.utf8ByteSize ≤ maxKeyBytes)
    (hcl : ∀ key row,
      latestRow ((placedRows serde 0 lines).map Prod.fst) key = some row → isOpen row = false) :
    ∃ report, recoverFile serde hash sizeOfEntry sizeOfRow keyCapacity hold call d
      = (.ok report, d) ∧ report.openJobsCancelled = 0 := by
  have hpl : ∀ v ∈ placedRows serde 0 lines, v.2 < 2 ^ 64 := by
    intro v hv
    have hlt := (placedRows_lt hl hv).2
    rw [hj] at hsi
    omega
  obtain ⟨index, keys, entries, hfo, hf, hc, hi⟩ :=
    finish_indexRow sizeOfEntry keyCapacity (placedRows_pairwise hl 0) hpl hs
  have hb : buildIndex serde sizeOfEntry keyCapacity call.path d.journal
      = .ok ((placedRows serde 0 lines).length, keys) := by
    unfold buildIndex
    rw [hj, scan_goodLines hl, hfo]
    simp only [Except.map, Except.ok_then, hf]
    rfl
  have hlo : recoverKeys serde sizeOfRow hold call keys.bound
      ⟨d, { call.report with scannedRows := (placedRows serde 0 lines).length }, 0⟩ keys
        = (.ok (), ⟨d, { call.report with
            scannedRows := (placedRows serde 0 lines).length }, 0⟩) := by
    rw [recoverKeys_eq keys.bound _ keys hc]
    refine recoverEntries_closed hl _ ?_ ⟨[], by rw [List.append_nil, hj]⟩
    intro en he
    obtain ⟨row, hp, hla⟩ := hi.located en he
    exact ⟨row, hp, hcl en.1 row hla⟩
  refine ⟨{ call.report with scannedRows := (placedRows serde 0 lines).length }, ?_, rfl⟩
  unfold recoverFile
  rw [hb]
  dsimp only
  rw [repairTail_goodLines hl hj]
  dsimp only
  rw [hlo]

/-- The loop only appends. -/
theorem recoverKeys_prefix (serde : JobRowSerde) (sizeOfRow : ℕ) (hold : DaemonJobRow → HeldRow)
    (call : RecoveryCall) (f : ℕ) (s : RecoveryState) (keys : LatestKeys) :
    s.disk.journal <+: (recoverKeys serde sizeOfRow hold call f s keys).2.disk.journal := by
  have he : ∀ (s : RecoveryState) (en : Entry),
      s.disk.journal <+: (recoverEntry serde sizeOfRow hold call s en).2.disk.journal := by
    intro s en
    unfold recoverEntry
    split
    · exact List.prefix_rfl
    · split
      · exact List.prefix_rfl
      · dsimp only
        unfold writeRow
        cases encodeRow serde (call.recoveredRow s.report.openJobsCancelled _) with
        | error e => exact List.prefix_rfl
        | ok bytes =>
          dsimp only
          rw [recordRow_disk]
          exact List.prefix_append _ _
  induction f generalizing s keys with
  | zero => exact List.prefix_rfl
  | succ f ih =>
    rw [recoverKeys]
    rcases keys.next with ⟨_ | ⟨e | en⟩, k'⟩
    · exact List.prefix_rfl
    · exact List.prefix_rfl
    · have hs := he s en
      dsimp only
      rcases hr : recoverEntry serde sizeOfRow hold call s en with ⟨e | ⟨⟩, s'⟩
      · rw [hr] at hs
        exact hs
      · rw [hr] at hs
        exact hs.trans (ih s' k')

/-- What a recovery found and appended: the lines of the repaired journal, the index of their
rows, and a closing row for each open last row. -/
structure Recovered (serde : JobRowSerde) (call : RecoveryCall) (repaired disk' : Disk)
    (lines : List (List UInt8)) (entries : List Entry) (added : List DaemonJobRow) : Prop where
  good : ∀ line ∈ lines, GoodLine serde line
  journal : repaired.journal = lines.flatten
  short : ∀ v ∈ placedRows serde 0 lines, v.1.daemonJobKey.utf8ByteSize ≤ maxKeyBytes
  indexed : Indexed (placedRows serde 0 lines) entries
  appended : disk'.journal = repaired.journal ++ added.flatMap (lineOf serde)
  closes : List.Forall₂ (Closes serde call)
    (openRows ((placedRows serde 0 lines).map Prod.fst) entries) added

/-- The index that a recovery builds of a journal that can be repaired. -/
theorem exists_indexed (hsk : serde.SkipsNewline) {d repaired : Disk} {index : LatestIndex}
    {count : ℕ} {keys : LatestKeys} (hs : scan serde call.path (fun index row o _ =>
      indexRow sizeOfEntry keyCapacity index row o) d.journal LatestIndex.default
        = .ok (index, count))
    (hfi : index.finish = .ok keys) (hr : repairTail serde hash d = (.ok (), repaired))
    (hsi : repaired.journal.length < 2 ^ 64) :
    ∃ lines entries, (∀ l ∈ lines, GoodLine serde l) ∧ repaired.journal = lines.flatten
      ∧ (∀ v ∈ placedRows serde 0 lines, v.1.daemonJobKey.utf8ByteSize ≤ maxKeyBytes)
      ∧ Indexed (placedRows serde 0 lines) entries ∧ keys.collect = .ok entries
      ∧ scannedRows serde call.path d.journal = .ok ((placedRows serde 0 lines).map Prod.fst) := by
  obtain ⟨lines, hl, hj, hvi⟩ := scan_repairTail hsk hs hr
  rw [hvi] at hs
  obtain ⟨i', hf, heq⟩ := Except.map_eq_ok_iff.mp hs
  rw [Prod.mk.injEq] at heq
  obtain ⟨rfl, -⟩ := heq
  have hsh := short_of_foldlM_indexRow hf
  -- the offsets are those of a file
  have hp : ∀ v ∈ placedRows serde 0 lines, v.2 < 2 ^ 64 := by
    intro v hv
    have hlt := (placedRows_lt hl hv).2
    rw [hj] at hsi
    omega
  obtain ⟨i', k', entries, hfo', hf', hc, hi⟩ :=
    finish_indexRow sizeOfEntry keyCapacity (placedRows_pairwise hl 0) hp hsh
  rw [hf] at hfo'
  cases hfo'
  rw [hfi] at hf'
  cases hf'
  exact ⟨lines, entries, hl, hj, hsh, hi, hc, scannedRows_eq hvi⟩

/-- **A recovery that succeeds**, step by step. -/
theorem recoverFile_recovered (hsk : serde.SkipsNewline) {d disk' : Disk}
    {report : DaemonRecoveryReport} (hsi : disk'.journal.length < 2 ^ 64)
    (h : recoverFile serde hash sizeOfEntry sizeOfRow keyCapacity hold call d
      = (.ok report, disk')) :
    ∃ repaired lines entries added, repairTail serde hash d = (.ok (), repaired)
      ∧ Recovered serde call repaired disk' lines entries added
      ∧ scannedRows serde call.path d.journal = .ok ((placedRows serde 0 lines).map Prod.fst)
      ∧ report.openJobsCancelled = added.length := by
  obtain ⟨index, count, keys, repaired, s, hs, hfi, hr, hlo, rfl, rfl⟩ := recoverFile_ok h
  have hg : repaired.journal <+: s.disk.journal := by
    have hh := recoverKeys_prefix serde sizeOfRow hold call keys.bound
      ⟨repaired, { call.report with scannedRows := count }, 0⟩ keys
    rwa [hlo] at hh
  obtain ⟨lines, entries, hl, hj, hsh, hi, hc, hrows⟩ :=
    exists_indexed hsk hs hfi hr (hg.length_le.trans_lt hsi)
  rw [recoverKeys_eq keys.bound _ keys hc] at hlo
  obtain ⟨added, ha, hco, hcl⟩ := recoverEntries_appends hl _ hi.located
    (by dsimp only; rw [hj]) hlo
  refine ⟨repaired, lines, entries, added, hr, ⟨hl, hj, hsh, hi, ha, hcl⟩, hrows, ?_⟩
  rw [hco]
  exact Nat.zero_add _

section

variable {repaired disk' : Disk} {lines : List (List UInt8)} {entries : List Entry}
  {added : List DaemonJobRow}

/-- The rows that were appended close open last rows of their keys. -/
theorem Recovered.of_mem (h : Recovered serde call repaired disk' lines entries added)
    {new : DaemonJobRow} (hn : new ∈ added) :
    ∃ n row, latestRow ((placedRows serde 0 lines).map Prod.fst) new.daemonJobKey = some row
      ∧ isOpen row = true ∧ new = call.recoveredRow n row
      ∧ (serde.print new).length < maxRowBytes := by
  obtain ⟨row, hr, n, rfl, hb⟩ := closes_of_mem h.closes hn
  obtain ⟨-, hl, ho⟩ := mem_openRows.mp hr
  exact ⟨n, row, hl, ho, rfl, hb⟩

/-- The keys of the appended rows are the keys whose last row was open. -/
theorem Recovered.mem_keys_iff (h : Recovered serde call repaired disk' lines entries added)
    {key : String} : key ∈ added.map DaemonJobRow.daemonJobKey ↔
      (latestRow ((placedRows serde 0 lines).map Prod.fst) key).any isOpen = true := by
  rw [map_key_closes h.closes, List.mem_map]
  constructor
  · rintro ⟨row, hr, rfl⟩
    obtain ⟨-, hl, ho⟩ := mem_openRows.mp hr
    rw [hl]
    exact ho
  · intro ha
    obtain ⟨row, hl, ho⟩ := (Option.any_eq_true _ _).mp ha
    have hk := (mem_of_latestRow hl).2
    refine ⟨row, mem_openRows.mpr ⟨?_, ?_, ho⟩, hk⟩
    · rw [hk]
      exact h.indexed.complete key row hl
    · rw [hk]
      exact hl

/-- Exactly one row for a key whose last row was open, and none for another. -/
theorem Recovered.count (h : Recovered serde call repaired disk' lines entries added)
    (key : String) : (added.map DaemonJobRow.daemonJobKey).count key
      = if (latestRow ((placedRows serde 0 lines).map Prod.fst) key).any isOpen then 1 else 0 := by
  have hn : (added.map DaemonJobRow.daemonJobKey).Nodup := by
    rw [map_key_closes h.closes]
    exact nodup_openRows h.indexed.nodup
  split
  · rename_i ha
    exact List.count_eq_one_of_mem hn (h.mem_keys_iff.mpr ha)
  · rename_i ha
    exact List.count_eq_zero.mpr fun hm => ha (h.mem_keys_iff.mp hm)

/-- Afterwards every last row is closed. -/
theorem Recovered.closed (h : Recovered serde call repaired disk' lines entries added)
    {key : String} {row : DaemonJobRow}
    (hr : latestRow ((placedRows serde 0 lines).map Prod.fst ++ added) key = some row) :
    isOpen row = false := by
  rw [latestRow_append] at hr
  cases hn : latestRow added key with
  | some new =>
    rw [hn, Option.some_or, Option.some.injEq] at hr
    subst hr
    obtain ⟨n, old, -, -, rfl, -⟩ := h.of_mem (mem_of_latestRow hn).1
    exact isOpen_recoveredRow call n old
  | none =>
    -- no row was appended for the key, so its last row was closed before
    rw [hn, Option.none_or] at hr
    by_contra hopen
    rw [Bool.not_eq_false] at hopen
    have hm : key ∈ added.map DaemonJobRow.daemonJobKey := by
      rw [h.mem_keys_iff, hr]
      exact hopen
    obtain ⟨new, hne, hk⟩ := List.mem_map.mp hm
    have hs : (latestRow added key).isSome = true := latestRow_isSome_iff.mpr ⟨new, hne, hk⟩
    rw [hn] at hs
    cases hs

/-- The journal afterwards is again complete lines, with the appended rows behind the others. -/
theorem Recovered.goodLines (h : Recovered serde call repaired disk' lines entries added)
    (hp : ∀ row ∈ added, PrintsBack serde row) :
    (∀ l ∈ lines ++ added.map (lineOf serde), GoodLine serde l)
      ∧ disk'.journal = (lines ++ added.map (lineOf serde)).flatten
      ∧ (placedRows serde 0 (lines ++ added.map (lineOf serde))).map Prod.fst
        = (placedRows serde 0 lines).map Prod.fst ++ added := by
  refine ⟨?_, ?_, ?_⟩
  · intro l hl
    rcases List.mem_append.mp hl with hl | hl
    · exact h.good l hl
    · obtain ⟨new, hn, rfl⟩ := List.mem_map.mp hl
      obtain ⟨-, -, -, -, -, hb⟩ := h.of_mem hn
      exact (hp new hn).goodLine hb
  · rw [h.appended, h.journal, List.flatten_append, List.flatMap_def]
  · rw [placedRows_append, List.map_append, placedRows_printed added _ hp]

/-- The appended rows have keys that were accepted before. -/
theorem Recovered.short_all (h : Recovered serde call repaired disk' lines entries added)
    (hp : ∀ row ∈ added, PrintsBack serde row) :
    ∀ v ∈ placedRows serde 0 (lines ++ added.map (lineOf serde)),
      v.1.daemonJobKey.utf8ByteSize ≤ maxKeyBytes := by
  have hold : ∀ row ∈ (placedRows serde 0 lines).map Prod.fst,
      row.daemonJobKey.utf8ByteSize ≤ maxKeyBytes := by
    intro row hr
    obtain ⟨v, hv, rfl⟩ := List.mem_map.mp hr
    exact h.short v hv
  intro v hv
  have hm := List.mem_map_of_mem (f := Prod.fst) hv
  rw [(h.goodLines hp).2.2] at hm
  rcases List.mem_append.mp hm with hm | hm
  · exact hold v.1 hm
  · obtain ⟨-, row, hl, -⟩ := h.of_mem hm
    obtain ⟨hr, hk⟩ := mem_of_latestRow hl
    rw [← hk]
    exact hold row hr

end

/-- The recovery needs its lease. -/
theorem recoverOrphanedDaemonJobs_ok {l : Bool} {d disk' : Disk} {report : DaemonRecoveryReport}
    (h : recoverOrphanedDaemonJobs serde hash sizeOfEntry sizeOfRow keyCapacity hold call l
      (some d) = (.ok report, some disk')) :
    recoverFile serde hash sizeOfEntry sizeOfRow keyCapacity hold call d = (.ok report, disk') := by
  unfold recoverOrphanedDaemonJobs at h
  dsimp only at h
  split at h
  · cases h
  · rw [Prod.mk.injEq, Option.some.injEq] at h
    exact Prod.ext h.1 h.2

end

/-- **Recovery closes every job and is idempotent.**  When a recovery succeeds, the journal is the
repaired one with one closing row behind it for each key whose last row was open, and none for any
other key; then the last row of every key is closed, and every later recovery that has its lease
succeeds and changes nothing. -/
theorem recovery_closes_and_is_idempotent (serde : JobRowSerde) (hash : List UInt8 → Bytes32)
    (sizeOfEntry sizeOfRow : ℕ) (keyCapacity : DaemonJobRow → ℕ) (hold : DaemonJobRow → HeldRow)
    (call : RecoveryCall) (lease : Bool) (disk disk' : Disk) (report : DaemonRecoveryReport)
    (hskip : serde.SkipsNewline)
    (hprint : ∀ n bytes row, serde.fromSlice bytes = .ok row →
      PrintsBack serde (call.recoveredRow n row))
    (hsize : disk'.journal.length < 2 ^ 64)
    (h : recoverOrphanedDaemonJobs serde hash sizeOfEntry sizeOfRow keyCapacity hold call lease
      (some disk) = (.ok report, some disk')) :
    ∃ repaired rows added, repairTail serde hash disk = (.ok (), repaired)
      ∧ scannedRows serde call.path disk.journal = .ok rows
      ∧ scannedRows serde call.path repaired.journal = .ok rows
      ∧ disk'.journal = repaired.journal ++ added.flatMap (lineOf serde)
      ∧ scannedRows serde call.path disk'.journal = .ok (rows ++ added)
      ∧ report.openJobsCancelled = added.length
      ∧ (∀ key, (added.map DaemonJobRow.daemonJobKey).count key
        = if (latestRow rows key).any isOpen then 1 else 0)
      ∧ (∀ new ∈ added, ∃ n row, latestRow rows new.daemonJobKey = some row
        ∧ isOpen row = true ∧ new = call.recoveredRow n row)
      ∧ (∀ key row, latestRow (rows ++ added) key = some row → isOpen row = false)
      ∧ ∀ call' : RecoveryCall, ∃ report',
        recoverOrphanedDaemonJobs serde hash sizeOfEntry sizeOfRow keyCapacity hold call' true
            (some disk') = (.ok report', some disk')
          ∧ report'.openJobsCancelled = 0 := by
  obtain ⟨repaired, lines, entries, added, hre, hr, hs, hc⟩ :=
    recoverFile_recovered hskip hsize (recoverOrphanedDaemonJobs_ok h)
  have hb : ∀ row ∈ added, PrintsBack serde row := by
    intro new hn
    obtain ⟨n, row, hl, -, rfl, -⟩ := hr.of_mem hn
    obtain ⟨v, hv, hro⟩ := List.mem_map.mp (mem_of_latestRow hl).1
    obtain ⟨-, l, -, -, hli, -⟩ := exists_of_mem_placedRows hv
    rw [hro] at hli
    exact hprint n l row (fromSlice_of_lineRow? hli)
  obtain ⟨hg, hj, hrows⟩ := hr.goodLines hb
  refine ⟨repaired, (placedRows serde 0 lines).map Prod.fst, added, hre, hs, ?_,
    hr.appended, ?_, hc, hr.count, ?_, ?_, ?_⟩
  · rw [hr.journal]
    exact scannedRows_eq fun τ path f visit => scan_goodLines hr.good path f visit
  · rw [hj, ← hrows]
    exact scannedRows_eq fun τ path f visit => scan_goodLines hg path f visit
  · intro new hn
    obtain ⟨n, row, hl, ho, heq, -⟩ := hr.of_mem hn
    exact ⟨n, row, hl, ho, heq⟩
  · intro key row hro
    exact hr.closed hro
  · intro call'
    obtain ⟨report', ha, hz⟩ := recoverFile_closed call' hg hj hsize
      (hr.short_all hb) fun key row hro => hr.closed (by rwa [← hrows])
    refine ⟨report', ?_, hz⟩
    unfold recoverOrphanedDaemonJobs
    dsimp only
    rw [ha, if_neg (by decide)]

/-! ## A journal with a running job -/

/-- A recovery with one row id. -/
def sampleCall : RecoveryCall where
  workspace := "/ws"
  path := "/ws/.ee/daemon-jobs.jsonl"
  reason := "daemon restarted"
  recoveredAt := "2026-01-02T00:00:00+00:00"
  newRowId _ := "row_2"

/-- The JSON of the row that closes the planned job. -/
def closedText : List UInt8 :=
  asBytes ("\x7b\"schema\":\"ee.steward.daemon_job_row.v1\",\"rowId\":\"row_2\","
    ++ "\"runId\":\"run_1\",\"daemonJobKey\":\"run_1:1:health_check\","
    ++ "\"runnerJobId\":\"health_check\",\"tick\":1,\"jobType\":\"health_check\","
    ++ "\"status\":\"cancelled\",\"outcome\":\"cancelled\",\"workspace\":\"/ws\","
    ++ "\"writeOwnerId\":\"ee-daemon\","
    ++ "\"reason\":\"daemon restart recovery; prior execution outcome may be unknown\","
    ++ "\"startedAt\":null,\"completedAt\":\"2026-01-02T00:00:00+00:00\","
    ++ "\"recordedAt\":\"2026-01-02T00:00:00+00:00\",\"durationMs\":null,"
    ++ "\"itemsProcessed\":null,\"error\":\"daemon restarted\",\"dryRun\":false,"
    ++ "\"durableMutation\":false,\"recoveredFromOrphan\":true,"
    ++ "\"recoveryReason\":\"daemon restarted\"\x7d")

/-- The bytes without the newlines behind them. -/
def withoutNewlines (bytes : List UInt8) : List UInt8 := bytes.rdropWhile (· = newline)

theorem withoutNewlines_concat (bytes : List UInt8) :
    withoutNewlines (bytes ++ [newline]) = withoutNewlines bytes := by
  unfold withoutNewlines
  rw [List.rdropWhile_concat, if_pos (by decide)]

/-- `serde_json` on the planned job and the row that closes it. -/
def pairSerde : JobRowSerde where
  print row := if isOpen row then sampleText else closedText
  fromSlice bytes :=
    if withoutNewlines bytes = sampleText then .ok sampleRow
    else if withoutNewlines bytes = closedText then .ok (sampleCall.recoveredRow 0 sampleRow)
    else .error ⟨false, "expected value"⟩

theorem pairSerde_skipsNewline : pairSerde.SkipsNewline := by
  intro bytes row h
  unfold pairSerde at h ⊢
  dsimp only at h ⊢
  rw [withoutNewlines_concat]
  exact h

theorem closedText_reads : withoutNewlines (closedText ++ [newline]) = closedText := by
  decide +kernel

theorem pairSerde_printsBack (n : ℕ) (bytes : List UInt8) (row : DaemonJobRow)
    (h : pairSerde.fromSlice bytes = .ok row) :
    PrintsBack pairSerde (sampleCall.recoveredRow n row) := by
  have hr : sampleCall.recoveredRow n row = sampleCall.recoveredRow 0 sampleRow := by
    unfold pairSerde at h
    dsimp only at h
    split at h
    · cases h
      rfl
    · split at h
      · cases h
        rfl
      · cases h
  have hp : pairSerde.print (sampleCall.recoveredRow 0 sampleRow) = closedText := rfl
  rw [hr]
  constructor
  · rw [hp]
    decide +kernel
  · rw [hp]
    decide +kernel
  · rw [hp]
    unfold pairSerde
    dsimp only
    rw [closedText_reads, if_neg (by decide +kernel), if_pos rfl]

/-- The planned job, whose newline is missing. -/
def sampleDisk : Disk := ⟨sampleText, []⟩

theorem sample_recovers : ∃ report disk', disk'.journal.length < 2 ^ 64
      ∧ recoverOrphanedDaemonJobs pairSerde sampleHash 32 440 (fun _ => 20) tightRow sampleCall true
        (some sampleDisk) = (.ok report, some disk') := by
  have hc : (recoverOrphanedDaemonJobs pairSerde sampleHash 32 440 (fun _ => 20) tightRow
        sampleCall true (some sampleDisk)).1.isOk = true
      ∧ ∃ disk' ∈ (recoverOrphanedDaemonJobs pairSerde sampleHash 32 440 (fun _ => 20) tightRow
        sampleCall true (some sampleDisk)).2, disk'.journal.length < 2 ^ 64 := by decide +kernel
  obtain ⟨hok, disk', hd, hl⟩ := hc
  rcases heq : recoverOrphanedDaemonJobs pairSerde sampleHash 32 440 (fun _ => 20) tightRow
    sampleCall true (some sampleDisk) with ⟨e | report, d⟩
  · rw [heq] at hok
    cases hok
  · rw [heq] at hd
    exact ⟨report, disk', hl, by rw [← Option.mem_def.mp hd]⟩

/-- The recovery completes the line of the running job and appends a row that closes it. -/
theorem recovery_closes_and_is_idempotent_sample : ∃ report disk' repaired rows added,
      recoverOrphanedDaemonJobs pairSerde sampleHash 32 440 (fun _ => 20) tightRow sampleCall true
        (some sampleDisk) = (.ok report, some disk')
      ∧ repairTail pairSerde sampleHash sampleDisk = (.ok (), repaired)
      ∧ scannedRows pairSerde sampleCall.path sampleDisk.journal = .ok rows
      ∧ disk'.journal = repaired.journal ++ added.flatMap (lineOf pairSerde)
      ∧ (∀ key row, latestRow (rows ++ added) key = some row → isOpen row = false)
      ∧ ∀ call' : RecoveryCall, ∃ report',
        recoverOrphanedDaemonJobs pairSerde sampleHash 32 440 (fun _ => 20) tightRow call' true
            (some disk') = (.ok report', some disk')
          ∧ report'.openJobsCancelled = 0 := by
  obtain ⟨report, disk', hsi, hr⟩ := sample_recovers
  obtain ⟨repaired, rows, added, hre, hs, -, hj, -, -, -, -, hc, ha⟩ :=
    recovery_closes_and_is_idempotent pairSerde sampleHash 32 440 (fun _ => 20) tightRow sampleCall
      true sampleDisk disk' report pairSerde_skipsNewline pairSerde_printsBack hsi hr
  exact ⟨report, disk', repaired, rows, added, hr, hre, hs, hj, hc, ha⟩

end OrphanRecovery
