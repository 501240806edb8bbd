/-
# At most one open job

The journal holds rows: complete lines, and perhaps a last row that was cut off.  `Held` says which
rows these are, for every way in which an append or a recovery can fail; above it a recorder only
ever adds rows, and `OwnerKeeps` follows an owner from job to job.

Main result: `daemon_has_one_open_job`.
-/
import EideticEngine.DaemonExecution

namespace DaemonExecutions

open DetailBudget Hex JobJournal JournalIndex OrphanRecovery RustText

/-! ## What a journal holds -/

/-- The rows of a journal whose last row may have been cut off. -/
inductive Held (serde : JobRowSerde) : List UInt8 → List DaemonJobRow → Prop
  | lines {rows : List DaemonJobRow} (h : ∀ row ∈ rows, Printable serde row) :
      Held serde (rows.flatMap (lineOf serde)) rows
  | complete {rows : List DaemonJobRow} {row : DaemonJobRow}
      (h : ∀ row ∈ rows, Printable serde row) (hrow : Printable serde row) :
      Held serde (rows.flatMap (lineOf serde) ++ serde.print row) (rows ++ [row])
  | torn {rows : List DaemonJobRow} {row : DaemonJobRow} {n : ℕ}
      (h : ∀ row ∈ rows, Printable serde row) (hrow : Printable serde row) (hpos : 0 < n)
      (hlt : n < (serde.print row).length) :
      Held serde (rows.flatMap (lineOf serde) ++ (serde.print row).take n) rows

section

variable {serde : JobRowSerde} {journal : List UInt8}
  {rows : List DaemonJobRow}

/-- A journal of one of the held forms scans. -/
theorem Held.scans (h : Held serde journal rows) : Scans serde journal rows := by
  cases h with
  | lines h => exact scans_lines h
  | complete h hr => exact scans_complete h hr
  | torn h hr hp hlt => exact scans_torn h hr hp hlt

theorem forall_printable_concat {row : DaemonJobRow} (h : ∀ row ∈ rows, Printable serde row)
    (hr : Printable serde row) : ∀ r ∈ rows ++ [row], Printable serde r := by
  rw [List.forall_mem_append, List.forall_mem_singleton]
  exact ⟨h, hr⟩

theorem Held.printable (h : Held serde journal rows) : ∀ row ∈ rows, Printable serde row := by
  cases h with
  | lines h => exact h
  | complete h hr => exact forall_printable_concat h hr
  | torn h hr hp hlt => exact h

theorem lines_concat (serde : JobRowSerde) (rows : List DaemonJobRow) (row : DaemonJobRow) :
    (rows ++ [row]).flatMap (lineOf serde) = rows.flatMap (lineOf serde) ++ lineOf serde row := by
  rw [List.flatMap_append, List.flatMap_singleton]

/-- A repair leaves the lines of the rows, or it fails and leaves the journal. -/
theorem Held.repairTail {disk : Disk} (h : Held serde disk.journal rows)
    (ha : List UInt8 → Bytes32) :
    (∃ after, repairTail serde ha disk = (.ok (), after)
        ∧ after.journal = rows.flatMap (lineOf serde)
        ∧ after.journal.length ≤ disk.journal.length + 1) ∨
      ∃ e after, repairTail serde ha disk = (.error e, after) ∧ after.journal = disk.journal := by
  generalize hj : disk.journal = journal at h
  cases h with
  | lines h => exact Or.inl ⟨disk, repairTail_lines hj, hj, hj ▸ Nat.le_succ _⟩
  | complete h hr =>
    refine Or.inl ⟨_, repairTail_complete hr hj, ?_, ?_⟩
    · show disk.journal ++ [newline] = _
      rw [hj, lines_concat, List.append_assoc]
      rfl
    · show (disk.journal ++ [newline]).length ≤ _
      rw [hj, List.length_append, List.length_singleton]
  | @torn _ row n h hr hpo hlt =>
    rw [repairTail_torn_eq hr hpo hlt hj]
    have hk := journal_preserveTail ha disk ((serde.print row).take n)
    rcases hp : preserveTail ha disk ((serde.print row).take n) with ⟨e | ⟨⟩, after⟩
    · rw [hp] at hk
      exact Or.inr ⟨e, after, rfl, hk.trans hj⟩
    · refine Or.inl ⟨_, rfl, rfl, ?_⟩
      show (rows.flatMap (lineOf serde)).length ≤ _
      rw [List.length_append]
      omega

/-- What a repair leaves is held too. -/
theorem Held.repaired {disk : Disk} (h : Held serde disk.journal rows) (ha : List UInt8 → Bytes32) :
    Held serde (JobJournal.repairTail serde ha disk).2.journal rows := by
  rcases h.repairTail ha with ⟨after, heq, hj, -⟩ | ⟨e, after, heq, hj⟩
  · rw [heq, hj]
    exact .lines h.printable
  · rw [heq, hj]
    exact h

/-- Any beginning of a line behind the lines. -/
theorem held_cut {row : DaemonJobRow} (h : ∀ row ∈ rows, Printable serde row)
    (hr : Printable serde row) (n : ℕ) :
    ∃ r', Held serde (rows.flatMap (lineOf serde) ++ (lineOf serde row).take n) r'
      ∧ (r' = rows ∨ r' = rows ++ [row]) := by
  rcases Nat.lt_trichotomy n (serde.print row).length with hlt | rfl | hgt
  · refine ⟨rows, ?_, Or.inl rfl⟩
    rw [lineOf, List.take_append_of_le_length hlt.le]
    rcases Nat.eq_zero_or_pos n with rfl | hp
    · rw [List.take_zero, List.append_nil]
      exact .lines h
    · exact .torn h hr hp hlt
  · refine ⟨rows ++ [row], ?_, Or.inr rfl⟩
    rw [lineOf, List.take_left]
    exact .complete h hr
  · refine ⟨rows ++ [row], ?_, Or.inr rfl⟩
    have hle : (lineOf serde row).length ≤ n := by
      rw [lineOf, List.length_append, List.length_singleton]
      omega
    rw [List.take_of_length_le hle, ← lines_concat]
    exact .lines (forall_printable_concat h hr)

end

/-! ## Open jobs -/

/-- The last row of the key is open. -/
def OpenKey (rows : List DaemonJobRow) (key : String) : Prop :=
  ∃ row, latestRow rows key = some row ∧ isOpen row = true

/-- At most one key is open. -/
def AtMostOneOpen (rows : List DaemonJobRow) : Prop :=
  ∀ key key', OpenKey rows key → OpenKey rows key' → key = key'

theorem latestRow_concat (rows : List DaemonJobRow) (row : DaemonJobRow) (key : String) :
    latestRow (rows ++ [row]) key
      = if row.daemonJobKey = key then some row else latestRow rows key := by
  rw [latestRow_append]
  by_cases hk : row.daemonJobKey = key
  · rw [if_pos hk, latestRow, List.filter_cons_of_pos (by simpa using hk)]
    rfl
  · rw [if_neg hk, latestRow, List.filter_cons_of_neg (by simpa using hk)]
    rfl

/-- A row opens or closes its own key and leaves the others. -/
theorem openKey_concat {rows : List DaemonJobRow} {row : DaemonJobRow} {key : String} :
    OpenKey (rows ++ [row]) key ↔
      (row.daemonJobKey = key ∧ isOpen row = true)
        ∨ (row.daemonJobKey ≠ key ∧ OpenKey rows key) := by
  unfold OpenKey
  rw [latestRow_concat]
  by_cases hk : row.daemonJobKey = key
  · simp [hk]
  · simp [hk]

/-- No key is open. -/
def NoneOpen (rows : List DaemonJobRow) : Prop := ∀ key, ¬ OpenKey rows key

/-- No other key is open. -/
def OnlyOpen (rows : List DaemonJobRow) (key : String) : Prop := ∀ k, OpenKey rows k → k = key

theorem OnlyOpen.atMostOne {rows : List DaemonJobRow} {key : String} (h : OnlyOpen rows key) :
    AtMostOneOpen rows := fun k k' hk hk' => (h k hk).trans (h k' hk').symm

theorem NoneOpen.onlyOpen {rows : List DaemonJobRow} (h : NoneOpen rows) (key : String) :
    OnlyOpen rows key := fun k hk => absurd hk (h k)

/-- A row of the open key, whatever it does. -/
theorem OnlyOpen.concat {rows : List DaemonJobRow} {key : String} (h : OnlyOpen rows key)
    {row : DaemonJobRow} (hke : row.daemonJobKey = key) : OnlyOpen (rows ++ [row]) key := by
  intro k hk
  rcases openKey_concat.mp hk with ⟨rfl, -⟩ | ⟨-, hk⟩
  · exact hke
  · exact h k hk

/-- A row that closes the open key. -/
theorem OnlyOpen.close {rows : List DaemonJobRow} {key : String} (h : OnlyOpen rows key)
    {row : DaemonJobRow} (hke : row.daemonJobKey = key) (hc : isOpen row = false) :
    NoneOpen (rows ++ [row]) := by
  intro k hk
  rcases openKey_concat.mp hk with ⟨-, ho⟩ | ⟨hne, hk⟩
  · rw [hc] at ho
    cases ho
  · exact hne (hke.trans (h k hk).symm)

/-! ## Appends -/

section

variable {env : Setting} {disk : Disk} {rows : List DaemonJobRow} {row : DaemonJobRow}

/-- An append that succeeds adds its row; one that fails adds it or does not. -/
theorem appendDisk_spec (h : Held env.serde disk.journal rows)
    (hl : env.serde.LawfulOn [row]) (f : Option Fault) :
    (∃ after, appendDisk env disk row f = (.ok (), after)
        ∧ Held env.serde after.journal (rows ++ [row])) ∨
      ∃ e after r', appendDisk env disk row f = (.error e, after)
        ∧ Held env.serde after.journal r' ∧ (r' = rows ∨ r' = rows ++ [row]) := by
  unfold appendDisk appendRows
  cases he : encodeRow env.serde row with
  | error e =>
    refine Or.inr ⟨e, disk, rows, ?_, h, Or.inl rfl⟩
    cases f with
    | none => simp only [List.cons_ne_nil, if_false, List.mapM_cons, he]; rfl
    | some f => rfl
  | ok bytes =>
    have hby : bytes = env.serde.print row ∧ (env.serde.print row).length < maxRowBytes := by
      unfold encodeRow at he
      have hp : 0 < maxRowBytes := by decide
      split at he
      · cases he
        exact ⟨rfl, by omega⟩
      · cases he
    obtain ⟨rfl, hb⟩ := hby
    have hro : Printable env.serde row := ⟨hl, hb⟩
    have hm : [row].mapM (encodeRow env.serde) = .ok [env.serde.print row] := by
      rw [List.mapM_cons, he]
      rfl
    have hr := h.repairTail env.hash
    cases f with
    | none =>
      simp only [List.cons_ne_nil, if_false, hm]
      rcases hr with ⟨after, heq, hj, -⟩ | ⟨e, after, heq, hj⟩
      · left
        refine ⟨{ after with journal := after.journal ++ lineOf env.serde row }, ?_, ?_⟩
        · simp only [heq, writeRows, writeRow, he]
          rfl
        · show Held env.serde (after.journal ++ lineOf env.serde row) _
          rw [hj, ← lines_concat]
          exact .lines (forall_printable_concat h.printable hro)
      · right
        refine ⟨e, after, rows, ?_, hj ▸ h, Or.inl rfl⟩
        simp only [heq]
    | some f =>
      right
      cases f with
      | unopened e => exact ⟨_, disk, rows, rfl, h, Or.inl rfl⟩
      | preserved e => exact ⟨_, _, rows, rfl, h, Or.inl rfl⟩
      | repaired e => exact ⟨_, _, rows, rfl, h.repaired env.hash, Or.inl rfl⟩
      | cut n e =>
        rcases hr with ⟨after, heq, hj, -⟩ | ⟨e, after, heq, hj⟩
        · obtain ⟨r', hh, hrows⟩ := held_cut h.printable hro n
          refine ⟨"Append daemon job row: " ++ e, (writeRow env.serde after row (some n)).2, r',
            ?_, ?_, hrows⟩
          · simp only [heq]
          · simp only [writeRow, he, hj]
            exact hh
        · refine ⟨e, after, rows, ?_, hj ▸ h, Or.inl rfl⟩
          simp only [heq]

end

/-! ## Recoveries -/

theorem scannedRows_of_scans {serde : JobRowSerde} {journal : List UInt8}
    {rows : List DaemonJobRow} (h : Scans serde journal rows) (p : String) :
    scannedRows serde p journal = .ok rows := by
  obtain ⟨vs, rfl, hs⟩ := h
  have hp : scannedRows serde p journal = .ok ((vs.map fun v => (v.1, v.2.1)).map Prod.fst) := by
    refine scannedRows_eq ?_
    intro τ p f vi
    rw [hs τ p _ vi, List.foldlM_map, List.length_map]
  rw [hp, List.map_map]
  rfl

section

variable {serde : JobRowSerde} {sizeOfRow : ℕ} {hold : DaemonJobRow → HeldRow}
  {call : RecoveryCall}

/-- The loop over two lists of entries. -/
theorem recoverEntries_append (s : RecoveryState) (entries es' : List Entry) :
    recoverEntries serde sizeOfRow hold call s (entries ++ es') =
      match recoverEntries serde sizeOfRow hold call s entries with
      | (.error e, s) => (.error e, s)
      | (.ok (), s) => recoverEntries serde sizeOfRow hold call s es' := by
  induction entries generalizing s with
  | nil => rfl
  | cons en entries ih =>
    rw [List.cons_append, recoverEntries, recoverEntries]
    rcases recoverEntry serde sizeOfRow hold call s en with ⟨e | ⟨⟩, s'⟩
    · rfl
    · exact ih s'

variable (sizeOfRow hold call) in
/-- Where one last row is open, the loop appends the row that closes it, if it fits. -/
theorem recoverEntries_one {ls : List (List UInt8)} {entries : List Entry} {key : String}
    {row : DaemonJobRow} (hli : ∀ l ∈ ls, GoodLine serde l)
    (hi : Indexed (placedRows serde 0 ls) entries)
    (hon : AtMostOneOpen ((placedRows serde 0 ls).map Prod.fst))
    (hl : latestRow ((placedRows serde 0 ls).map Prod.fst) key = some row)
    (ho : isOpen row = true) (s : RecoveryState) (hj : s.disk.journal = ls.flatten) :
    (∃ e, recoverEntries serde sizeOfRow hold call s entries = (.error e, s)) ∨
      ∃ s', recoverEntries serde sizeOfRow hold call s entries = (.ok (), s')
        ∧ s'.disk.journal = s.disk.journal
          ++ lineOf serde (call.recoveredRow s.report.openJobsCancelled row)
        ∧ (serde.print (call.recoveredRow s.report.openJobsCancelled row)).length
          < maxRowBytes := by
  obtain ⟨⟨k', place⟩, hm, hk⟩ := List.mem_map.mp (hi.complete key row hl)
  obtain rfl : key = k' := hk.symm
  obtain ⟨b, behind, rfl⟩ := List.append_of_mem hm
  obtain ⟨r', hp, hl'⟩ := hi.located (key, place) hm
  obtain rfl : r' = row := Option.some.inj (hl'.symm.trans hl)
  -- the entries of the other keys are closed
  have hc : ∀ en ∈ b ++ (key, place) :: behind, en.1 ≠ key →
      ∃ r, (r, en.2.val) ∈ placedRows serde 0 ls ∧ isOpen r = false := by
    intro en hen hne
    obtain ⟨r, hr, hlr⟩ := hi.located en hen
    refine ⟨r, hr, ?_⟩
    by_contra hopenr
    rw [Bool.not_eq_false] at hopenr
    exact hne (hon _ _ ⟨r, hlr, hopenr⟩ ⟨r', hl, ho⟩)
  have hn := hi.nodup
  rw [List.map_append, List.map_cons, List.nodup_append, List.nodup_cons] at hn
  obtain ⟨-, ⟨hbe, -⟩, hb⟩ := hn
  have hf : recoverEntries serde sizeOfRow hold call s b = (.ok (), s) := by
    refine recoverEntries_closed hli s (fun en hen => hc en (List.mem_append_left _ hen) ?_)
      ⟨[], by rw [List.append_nil, hj]⟩
    rintro rfl
    exact hb _ (List.mem_map_of_mem hen) _ List.mem_cons_self rfl
  rw [recoverEntries_append, hf]
  dsimp only
  rw [recoverEntries, recoverEntry]
  have hro : rowAt serde call.path s.disk.journal place = .ok r' := by
    rw [hj, ← List.append_nil ls.flatten]
    exact rowAt_placedRows hli hp call.path []
  rw [hro]
  dsimp only
  rw [ho, if_neg (by decide)]
  rcases hw : writeRow serde s.disk (call.recoveredRow s.report.openJobsCancelled r') none
    with ⟨e | ⟨⟩, disk⟩
  · have hd : disk = s.disk := by
      unfold writeRow at hw
      split at hw
      · cases hw
        rfl
      · cases hw
    exact Or.inl ⟨e, by rw [hd]⟩
  · obtain ⟨hbel, hjo⟩ := writeRow_ok hw
    right
    refine ⟨recordRow sizeOfRow hold s disk (call.recoveredRow s.report.openJobsCancelled r'), ?_,
      ?_, hbel⟩
    · dsimp only
      refine recoverEntries_closed hli _ (fun en hen => hc en
        (List.mem_append_right _ (List.mem_cons_of_mem _ hen)) ?_) ?_
      · rintro rfl
        exact hbe (List.mem_map.mpr ⟨en, hen, rfl⟩)
      · rw [recordRow_disk, hjo, hj]
        exact List.prefix_append _ _
    · rw [recordRow_disk, hjo]

end

section

variable {env : Setting} {disk : Disk} {rows : List DaemonJobRow} {call : RecoveryCall}

theorem mem_openLast {rows : List DaemonJobRow} {row : DaemonJobRow} {key : String}
    (hl : latestRow rows key = some row) (ho : isOpen row = true) : row ∈ openLast rows := by
  obtain ⟨hm, hk⟩ := mem_of_latestRow hl
  refine List.mem_filterMap.mpr ⟨key, ?_, ?_⟩
  · rw [← hk]
    exact List.mem_map_of_mem hm
  · rw [hl, Option.filter_some_eq_some]
    exact ho

/-- **What a recovery appends** where at most one job is open: the closing row of the open job, if
it fits, and otherwise nothing. -/
theorem recoverFile_spec (call : RecoveryCall) (hsk : env.serde.SkipsNewline)
    (h : Held env.serde disk.journal rows) (hon : AtMostOneOpen rows) {ind : ℕ × LatestKeys}
    (hb : buildIndex env.serde env.sizeOfEntry env.keyCapacity call.path disk.journal
      = .ok ind) {re : Disk}
    (hr : repairTail env.serde env.hash disk = (.ok (), re))
    (hsi : re.journal.length < 2 ^ 64) :
    ∃ res after, recoverFile env.serde env.hash env.sizeOfEntry env.sizeOfRow env.keyCapacity
          env.hold call disk = (res, after)
        ∧ ((after.journal = re.journal ∧ (res.isOk = true → NoneOpen rows)) ∨
          ∃ key row, latestRow rows key = some row ∧ isOpen row = true
            ∧ (env.serde.print (call.recoveredRow 0 row)).length < maxRowBytes
            ∧ after.journal = re.journal ++ lineOf env.serde (call.recoveredRow 0 row)) := by
  obtain ⟨count, keys⟩ := ind
  obtain ⟨⟨index, c'⟩, hsc, hfi⟩ := Except.bind_eq_ok_iff.mp hb
  obtain ⟨k', hk, heq⟩ := Except.bind_eq_ok_iff.mp hfi
  rw [Except.mapError_eq_ok_iff] at hk
  cases heq
  obtain ⟨ls, entries, hl, hf, -, hi, hc, hs⟩ := exists_indexed hsk hsc hk hr hsi
  have hrows : (placedRows env.serde 0 ls).map Prod.fst = rows := by
    rw [scannedRows_of_scans h.scans] at hs
    exact (Except.ok.inj hs).symm
  unfold recoverFile
  rw [hb]
  dsimp only
  rw [hr]
  dsimp only
  rw [recoverKeys_eq keys.bound _ keys hc]
  by_cases ho : ∃ key, OpenKey rows key
  · obtain ⟨key, row, hla, hro⟩ := ho
    rw [← hrows] at hon
    rcases recoverEntries_one env.sizeOfRow env.hold call hl hi hon (hrows ▸ hla) hro
        ⟨re, { call.report with scannedRows := count }, 0⟩ hf
      with ⟨e, he⟩ | ⟨s', he, hjournal, hbelow⟩
    · exact ⟨_, _, by rw [he], Or.inl ⟨rfl, fun h => by cases h⟩⟩
    · exact ⟨_, _, by rw [he], Or.inr ⟨key, row, hla, hro, hbelow, hjournal⟩⟩
  · have hcl : ∀ en ∈ entries, ∃ row, (row, en.2.val) ∈ placedRows env.serde 0 ls
        ∧ isOpen row = false := by
      intro en hen
      obtain ⟨row, hp, hla⟩ := hi.located en hen
      refine ⟨row, hp, ?_⟩
      by_contra hro
      rw [Bool.not_eq_false] at hro
      exact ho ⟨en.1, row, hrows ▸ hla, hro⟩
    rw [recoverEntries_closed hl _ hcl ⟨[], by rw [List.append_nil, ← hf]⟩]
    exact ⟨_, _, rfl, Or.inl ⟨rfl, fun _ key hke => ho ⟨key, hke⟩⟩⟩

/-- The journal behind a recovery holds the rows that it held, and perhaps a row more; at most one
job is open, and none when the recovery succeeded. -/
def Recovers (env : Setting) (rows : List DaemonJobRow)
    (outcome : Except String DaemonRecoveryReport × Disk) : Prop :=
  ∃ rows', Held env.serde outcome.2.journal rows' ∧ rows <+: rows' ∧ AtMostOneOpen rows'
    ∧ (outcome.1.isOk = true → NoneOpen rows')

theorem NoneOpen.recovers {r' : List DaemonJobRow} (h : NoneOpen r')
    {outcome : Except String DaemonRecoveryReport × Disk}
    (hh : Held env.serde outcome.2.journal r') (hp : rows <+: r') :
    Recovers env rows outcome :=
  ⟨r', hh, hp, (h.onlyOpen "").atMostOne, fun _ => h⟩

theorem recovers_error (ho : AtMostOneOpen rows) {e : String} {after : Disk}
    (hh : Held env.serde after.journal rows) : Recovers env rows (.error e, after) :=
  ⟨rows, hh, List.prefix_rfl, ho, fun hok => by cases hok⟩

theorem recoverDisk_recovers (call : RecoveryCall) (hskip : env.serde.SkipsNewline)
    (h : Held env.serde disk.journal rows) (hone : AtMostOneOpen rows)
    (hsize : disk.journal.length < 2 ^ 63)
    (hlawful : ∀ row ∈ closers env call disk.journal, env.serde.LawfulOn [row])
    (fault : Option Fault) : Recovers env rows (recoverDisk env call disk fault) := by
  -- the closing row can be read back, and it closes the only open job
  have hclosers : ∀ key row, latestRow rows key = some row → isOpen row = true →
      env.serde.LawfulOn [call.recoveredRow 0 row]
        ∧ NoneOpen (rows ++ [call.recoveredRow 0 row]) := by
    intro key row hlatest hopen
    refine ⟨hlawful _ ?_, ?_⟩
    · rw [closers, scannedRows_of_scans h.scans]
      exact List.mem_map_of_mem (mem_openLast hlatest hopen)
    · have honly : OnlyOpen rows key := fun k hk => hone k key hk ⟨row, hlatest, hopen⟩
      exact honly.close (mem_of_latestRow hlatest).2 (isOpen_recoveredRow call 0 row)
  cases hb : buildIndex env.serde env.sizeOfEntry env.keyCapacity call.path disk.journal with
  | error e =>
    rcases fault with _ | (e | e | e | ⟨n, e⟩)
    · rw [recoverDisk, recoverFile, hb]
      exact recovers_error hone h
    · exact recovers_error hone h
    all_goals
      rw [recoverDisk, hb]
      exact recovers_error hone h
  | ok indexed =>
    rcases fault with _ | (e | e | e | ⟨n, e⟩)
    · rcases h.repairTail env.hash with ⟨repaired, hr, hj, hle⟩ | ⟨e, after, hr, hj⟩
      · obtain ⟨result, after, hrec, hcases⟩ := recoverFile_spec call hskip h hone hb hr (by omega)
        rw [recoverDisk, hrec]
        rcases hcases with ⟨hsame, hnone⟩ | ⟨key, row, hlatest, hopen, hbelow, happended⟩
        · refine ⟨rows, ?_, List.prefix_rfl, hone, hnone⟩
          rw [hsame, hj]
          exact .lines h.printable
        · obtain ⟨hrow, hnone⟩ := hclosers key row hlatest hopen
          refine hnone.recovers ?_ (List.prefix_append _ _)
          rw [happended, hj, ← lines_concat]
          exact .lines (forall_printable_concat h.printable ⟨hrow, hbelow⟩)
      · rw [recoverDisk, recoverFile, hb]
        dsimp only
        rw [hr]
        exact recovers_error hone (hj ▸ h)
    · exact recovers_error hone h
    · rw [recoverDisk, hb]
      exact recovers_error hone h
    · rw [recoverDisk, hb]
      exact recovers_error hone (h.repaired env.hash)
    · rw [recoverDisk, hb]
      dsimp only
      rcases h.repairTail env.hash with ⟨repaired, hr, hj, hle⟩ | ⟨e', after, hr, hj⟩
      · -- the written bytes end in a beginning of the closing row, if there is one
        obtain ⟨result, after, hrec, hcases⟩ := recoverFile_spec call hskip h hone hb hr (by omega)
        rw [hr, hrec]
        rcases hcases with ⟨hsame, -⟩ | ⟨key, row, hlatest, hopen, hbelow, happended⟩
        · refine recovers_error hone ?_
          dsimp only
          rw [hsame, List.take_of_length_le (Nat.le_add_right _ _), hj]
          exact .lines h.printable
        · obtain ⟨hrow, hnone⟩ := hclosers key row hlatest hopen
          obtain ⟨rows', hheld, hrows⟩ := held_cut h.printable ⟨hrow, hbelow⟩ n
          rw [← hj, ← List.take_length_add_append, ← happended] at hheld
          rcases hrows with rfl | rfl
          · exact recovers_error hone hheld
          · exact hnone.recovers hheld (List.prefix_append _ _)
      · rw [hr]
        exact recovers_error hone (hj ▸ h)

end

/-! ## The recorder -/

/-- The rows of the journal of a recorder. -/
def Recorder.Holds (env : Setting) (r : Recorder) (rows : List DaemonJobRow) : Prop :=
  match r.disk with
  | none => rows = []
  | some disk => Held env.serde disk.journal rows

/-- Every row whose append succeeded is in the journal. -/
def NotesKept (notes : List Note) (rows : List DaemonJobRow) : Prop :=
  ∀ key opens, .appended key opens true ∈ notes →
    ∃ row ∈ rows, row.daemonJobKey = key ∧ isOpen row = opens

theorem NotesKept.mono {ns : List Note} {rows r' : List DaemonJobRow}
    (h : NotesKept ns rows) (hp : rows <+: r') : NotesKept ns r' := by
  intro key opens hn
  obtain ⟨row, hr, heq⟩ := h key opens hn
  exact ⟨row, hp.subset hr, heq⟩

/-- Notes of other things than appends that succeeded. -/
theorem NotesKept.append {ns m : List Note} {rows : List DaemonJobRow}
    (h : NotesKept ns rows) (hm : ∀ key opens, Note.appended key opens true ∉ m) :
    NotesKept (ns ++ m) rows := by
  intro key opens hn
  rcases List.mem_append.mp hn with hn | hn
  · exact h key opens hn
  · exact absurd hn (hm key opens)

/-- The note of an append that succeeded. -/
theorem NotesKept.appended {ns : List Note} {rows : List DaemonJobRow}
    (h : NotesKept ns rows) (row : DaemonJobRow) :
    NotesKept (ns ++ [Note.appended row.daemonJobKey (isOpen row) true]) (rows ++ [row]) := by
  intro key opens hn
  rcases List.mem_append.mp hn with hn | hn
  · exact h.mono (List.prefix_append _ _) key opens hn
  · cases List.mem_singleton.mp hn
    exact ⟨row, List.mem_append_right _ List.mem_cons_self, rfl, rfl⟩

section

variable {env : Setting} {r : Recorder} {rows : List DaemonJobRow} {row : DaemonJobRow}

theorem Recorder.Holds.disk (h : r.Holds env rows) :
    Held env.serde (r.disk.getD ⟨[], []⟩).journal rows := by
  unfold Recorder.Holds at h
  cases hd : r.disk with
  | none =>
    rw [hd] at h
    obtain rfl : rows = [] := h
    exact .lines (List.forall_mem_nil _)
  | some disk =>
    rw [hd] at h
    exact h

theorem mem_attempted_appendRow {f : Option Fault} {re : Except String Unit} {r' : Recorder}
    (ha : appendRow env r row f = (re, r')) : row ∈ r'.attempted := by
  unfold appendRow at ha
  cases ha
  exact List.mem_append_right _ List.mem_cons_self

/-- What an append that succeeds does to the recorder. -/
theorem appendRow_ok (h : r.Holds env rows) {f : Option Fault} {r' : Recorder}
    (ha : appendRow env r row f = (.ok (), r'))
    (hl : ∀ row ∈ r'.attempted, env.serde.LawfulOn [row]) :
    r'.Holds env (rows ++ [row])
      ∧ r'.notes = r.notes ++ [Note.appended row.daemonJobKey (isOpen row) true] := by
  have hr := hl row (mem_attempted_appendRow ha)
  unfold appendRow at ha
  rcases appendDisk_spec h.disk hr f with ⟨after, heq, hh⟩ | ⟨e, after, ro', heq, -⟩
  · rw [heq] at ha
    cases ha
    exact ⟨hh, rfl⟩
  · rw [heq] at ha
    cases ha

/-- What an append that fails does to the recorder. -/
theorem appendRow_error (h : r.Holds env rows) {f : Option Fault} {e : String} {r' : Recorder}
    (ha : appendRow env r row f = (.error e, r'))
    (hl : ∀ row ∈ r'.attempted, env.serde.LawfulOn [row]) :
    (r'.Holds env rows ∨ r'.Holds env (rows ++ [row]))
      ∧ r'.notes = r.notes ++ [Note.appended row.daemonJobKey (isOpen row) false] := by
  have hr := hl row (mem_attempted_appendRow ha)
  unfold appendRow at ha
  rcases appendDisk_spec h.disk hr f with
    ⟨after, heq, -⟩ | ⟨e, after, ro', heq, hh, rfl | rfl⟩
  · rw [heq] at ha
    cases ha
  · rw [heq] at ha
    cases ha
    exact ⟨Or.inl hh, rfl⟩
  · rw [heq] at ha
    cases ha
    exact ⟨Or.inr hh, rfl⟩

end

/-! ## Owners -/

/-- The invocations of an owner, in order: tick by tick, and job by job in a tick. -/
def DaemonExecution.turn (e : DaemonExecution) (k : ℕ) : DaemonJobInvocation :=
  e.invocation (k / e.jobTypes.length + 1) (k % e.jobTypes.length)

/-- The notes of a job up to the permission to run it. -/
def startNotes (e : DaemonExecution) (k : ℕ) : List Note :=
  [Note.appended (e.turn k).daemonJobKey true true, .permitted (e.turn k)]

/-- The notes of some jobs that were started and finished. -/
def doneNotes (e : DaemonExecution) (n : ℕ) : List Note :=
  (List.range n).flatMap fun k =>
    startNotes e k ++ [Note.appended (e.turn k).daemonJobKey false true]

/-- How the notes of an owner go on behind the finished jobs: not at all; with the next job, whose
start row failed, which runs, or whose finish row failed; with a stop, of no job or of the one that
runs. -/
inductive LastNotes (e : DaemonExecution) (n : ℕ) : List Note → Prop
  | idle : LastNotes e n []
  | startFailed : LastNotes e n [Note.appended (e.turn n).daemonJobKey true false]
  | running : LastNotes e n (startNotes e n)
  | finishFailed :
      LastNotes e n (startNotes e n ++ [Note.appended (e.turn n).daemonJobKey false false])
  | stopped : LastNotes e n [Note.stopped]
  | stoppedRunning (ok : Bool) :
      LastNotes e n (startNotes e n ++ [Note.stopped, .appended (e.turn n).daemonJobKey false ok])

/-- The number of jobs that an owner has in its ticks. -/
def DaemonExecution.jobCount (e : DaemonExecution) : ℕ := e.tickLimit * e.jobTypes.length

/-- **The order of an owner.**  Jobs are started in their order, each is finished before the next is
started, permission is given behind the start row, a finish row is that of the job that runs, and
nothing follows a failed append or a stop but the row that cancels the running job. -/
def Term.Orderly (t : Term) : Prop :=
  ∃ n last, t.notes = doneNotes t.execution n ++ last ∧ LastNotes t.execution n last
    ∧ n ≤ t.execution.jobCount ∧ t.execution.tickLimit ≤ maxDaemonForegroundTickLimit

/-- The active row is that of an invocation. -/
structure ActiveOf (e : DaemonExecution) (k : ℕ) (active : DaemonJobRow) : Prop where
  key : active.daemonJobKey = (e.turn k).daemonJobKey
  tick : active.tick = (e.turn k).tick
  runner : active.runnerJobId = (e.turn k).runnerJobId

/-- The cursor stands before an invocation. -/
structure CursorAt (e : DaemonExecution) (k : ℕ) : Prop where
  nonempty : e.jobTypes ≠ []
  tick : e.nextTick = k / e.jobTypes.length + 1
  job : e.nextJob = k % e.jobTypes.length
  limit : e.tickLimit ≤ maxDaemonForegroundTickLimit

/-- **The invariant of an owner** between its calls. -/
inductive OwnerKeeps : DaemonExecution → List Note → List DaemonJobRow → Prop
  | idle {e : DaemonExecution} {n : ℕ} {rows : List DaemonJobRow} (hcursor : CursorAt e n)
      (hle : n ≤ e.jobCount) (hactive : e.active = none) (hstopped : e.stopped = false)
      (hnone : NoneOpen rows) :
      OwnerKeeps e (doneNotes e n) rows
  | running {e : DaemonExecution} {n : ℕ} {rows : List DaemonJobRow} {active : DaemonJobRow}
      (hcursor : CursorAt e n) (hlt : n < e.jobCount) (hactive : e.active = some active)
      (hstopped : e.stopped = false) (hof : ActiveOf e n active)
      (honly : OnlyOpen rows (e.turn n).daemonJobKey) :
      OwnerKeeps e (doneNotes e n ++ startNotes e n) rows
  | ended {e : DaemonExecution} {n : ℕ} {rows : List DaemonJobRow} {last : List Note}
      (hle : n ≤ e.jobCount) (hlimit : e.tickLimit ≤ maxDaemonForegroundTickLimit)
      (hstopped : e.stopped = true) (hlast : LastNotes e n last) (hone : AtMostOneOpen rows) :
      OwnerKeeps e (doneNotes e n ++ last) rows

theorem OwnerKeeps.atMostOne {e : DaemonExecution} {ns : List Note} {rows : List DaemonJobRow}
    (h : OwnerKeeps e ns rows) : AtMostOneOpen rows := by
  cases h with
  | idle hc hle ha hs hn => exact (hn.onlyOpen "").atMostOne
  | running hc hlt ha hs hof ho => exact ho.atMostOne
  | ended hle hl hs hla hon => exact hon

theorem OwnerKeeps.orderly {e : DaemonExecution} {ns : List Note} {rows : List DaemonJobRow}
    (h : OwnerKeeps e ns rows) : Term.Orderly ⟨e, ns⟩ := by
  cases h with
  | idle hc hle ha hs hn =>
    exact ⟨_, [], (List.append_nil _).symm, .idle, hle, hc.limit⟩
  | running hc hlt ha hs hof ho =>
    exact ⟨_, _, rfl, .running, hlt.le, hc.limit⟩
  | ended hle hl hs hla hon => exact ⟨_, _, rfl, hla, hle, hl⟩

/-- What a call of an owner leaves. -/
def Moves (env : Setting) (r : Recorder) (rows : List DaemonJobRow) (e' : DaemonExecution)
    (r' : Recorder) : Prop :=
  ∃ rows', r'.Holds env rows' ∧ OwnerKeeps e' r'.notes rows' ∧ rows <+: rows'
    ∧ (NotesKept r.notes rows → NotesKept r'.notes rows')

section

variable {env : Setting} {e : DaemonExecution} {r : Recorder} {rows : List DaemonJobRow}

theorem Moves.unchanged (h : r.Holds env rows) (hk : OwnerKeeps e r.notes rows) :
    Moves env r rows e r :=
  ⟨rows, h, hk, List.prefix_rfl, fun hke => hke⟩

/-- A failed append ends the owner. -/
theorem Moves.failed {row : DaemonJobRow} {e' : DaemonExecution} {r' : Recorder}
    (hh : r'.Holds env rows ∨ r'.Holds env (rows ++ [row]))
    (hn : r'.notes = r.notes ++ [Note.appended row.daemonJobKey (isOpen row) false])
    (ho : AtMostOneOpen rows) (ho' : AtMostOneOpen (rows ++ [row]))
    (he : ∀ ro', AtMostOneOpen ro' → OwnerKeeps e' r'.notes ro') :
    Moves env r rows e' r' := by
  have hk : NotesKept r.notes rows → NotesKept r'.notes rows := by
    intro hk
    rw [hn]
    exact hk.append (by simp)
  rcases hh with hh | hh
  · exact ⟨rows, hh, he _ ho, List.prefix_rfl, hk⟩
  · exact ⟨rows ++ [row], hh, he _ ho', List.prefix_append _ _,
      fun h => (hk h).mono (List.prefix_append _ _)⟩

/-- An append that succeeded. -/
theorem Moves.appended {row : DaemonJobRow} {e' : DaemonExecution} {r' : Recorder}
    (hh : r'.Holds env (rows ++ [row])) (m : List Note)
    (hn : r'.notes = r.notes ++ [Note.appended row.daemonJobKey (isOpen row) true] ++ m)
    (hm : ∀ key opens, Note.appended key opens true ∉ m)
    (hk : OwnerKeeps e' r'.notes (rows ++ [row])) : Moves env r rows e' r' := by
  refine ⟨rows ++ [row], hh, hk, List.prefix_append _ _, fun hke => ?_⟩
  rw [hn]
  exact (hke.appended row).append hm

/-! ### Starting a job -/

theorem CursorAt.invocation_eq {n : ℕ} (h : CursorAt e n) :
    e.invocation e.nextTick e.nextJob = e.turn n := by
  rw [DaemonExecution.turn, h.tick, h.job]

theorem isOpen_startRow (e : DaemonExecution) (invocation : DaemonJobInvocation) (ss : Stamps) :
    isOpen (e.startRow invocation ss) = true := by
  simp [isOpen, DaemonExecution.startRow]

/-- A tick within the limit is one of the jobs. -/
theorem CursorAt.lt_jobCount {n : ℕ} (h : CursorAt e n) (hl : e.nextTick ≤ e.tickLimit) :
    n < e.jobCount := by
  rw [h.tick] at hl
  exact (Nat.div_lt_iff_lt_mul (List.length_pos_of_ne_nil h.nonempty)).mp hl

theorem beginNextJob_moves (h : r.Holds env rows) (hk : OwnerKeeps e r.notes rows)
    (ss : Stamps) (f : Option Fault)
    (hl : ∀ row ∈ (beginNextJob env e r ss f).2.2.attempted, env.serde.LawfulOn [row]) :
    Moves env r rows (beginNextJob env e r ss f).2.1 (beginNextJob env e r ss f).2.2 := by
  have hsa := Moves.unchanged h hk
  generalize hn : r.notes = ns at hk
  cases hk with
  | running hc hlt ha hs hof ho =>
    simpa [beginNextJob, ha, hs] using hsa
  | ended hle hli hs hla hon => simpa [beginNextJob, hs] using hsa
  | @idle n _ hc hle ha hs hno =>
    by_cases ht : e.tickLimit < e.nextTick
    · simpa [beginNextJob, ha, hs, ht] using hsa
    simp only [beginNextJob, ha, hs, ht, Option.isSome_none, Bool.false_eq_true,
      if_false, hc.invocation_eq] at hl ⊢
    have hlt : n < e.jobCount := hc.lt_jobCount (not_lt.mp ht)
    -- the start row opens the key of the turn, and no other is open
    have ho : OnlyOpen (rows ++ [e.startRow (e.turn n) ss]) (e.turn n).daemonJobKey :=
      (hno.onlyOpen _).concat rfl
    have hop := isOpen_startRow e (e.turn n) ss
    rcases hap : appendRow env r (e.startRow (e.turn n) ss) f with ⟨error | ⟨⟩, r'⟩
    · simp only [hap] at hl ⊢
      obtain ⟨hh, hn'⟩ := appendRow_error h hap hl
      refine Moves.failed hh hn' (hno.onlyOpen "").atMostOne ho.atMostOne ?_
      intro ro' hon
      rw [hn', hn, hop]
      exact OwnerKeeps.ended hle hc.limit rfl .startFailed hon
    · simp only [hap] at hl ⊢
      obtain ⟨hh, hn'⟩ := appendRow_ok h hap hl
      refine Moves.appended hh [.permitted (e.turn n)] ?_ (by simp) ?_
      · rw [Recorder.note, hn']
      · rw [Recorder.note, hn', hn, hop, List.append_assoc]
        exact OwnerKeeps.running
          ⟨hc.nonempty, hc.tick, hc.job, hc.limit⟩ hlt rfl rfl ⟨rfl, rfl, rfl⟩
          ho

/-! ### Finishing a job -/

theorem isOpen_rowFromResult (wo ri : String) (t : UInt32) (sa : String)
    (ss : Stamps) (re : JobRunResult) :
    isOpen (rowFromResult wo ri t sa ss re) = false := by
  have hs : re.outcome.asStr ≠ "pending" ∧ re.outcome.asStr ≠ "running" := by
    cases re.outcome <;> decide
  simp [isOpen, rowFromResult, hs]

theorem doneNotes_succ (e : DaemonExecution) (n : ℕ) :
    doneNotes e (n + 1) = doneNotes e n ++ startNotes e n
      ++ [Note.appended (e.turn n).daemonJobKey false true] := by
  rw [doneNotes, List.range_succ, List.flatMap_append, List.flatMap_singleton, List.append_assoc]
  rfl

/-- The cursor behind a finished job stands before the next. -/
theorem CursorAt.advance {n : ℕ} (h : CursorAt e n) : CursorAt e.advance (n + 1) := by
  have hp : 0 < e.jobTypes.length := List.length_pos_of_ne_nil h.nonempty
  have hn := Nat.div_add_mod n e.jobTypes.length
  have hj := h.job
  unfold DaemonExecution.advance
  by_cases hl : e.nextJob + 1 = e.jobTypes.length
  · -- the last job of its tick
    have hs : n + 1 = e.jobTypes.length * (n / e.jobTypes.length + 1) := by
      rw [Nat.mul_succ]
      omega
    rw [if_pos hl]
    refine ⟨h.nonempty, ?_, ?_, h.limit⟩
    · show e.nextTick + 1 = (n + 1) / e.jobTypes.length + 1
      rw [hs, Nat.mul_div_cancel_left _ hp, h.tick]
    · show 0 = (n + 1) % e.jobTypes.length
      rw [hs, Nat.mul_mod_right]
  · have hs : n + 1 = e.jobTypes.length * (n / e.jobTypes.length)
        + (n % e.jobTypes.length + 1) := by omega
    have hlt : n % e.jobTypes.length + 1 < e.jobTypes.length := by
      have := Nat.mod_lt n hp
      omega
    rw [if_neg hl]
    refine ⟨h.nonempty, ?_, ?_, h.limit⟩
    · show e.nextTick = (n + 1) / e.jobTypes.length + 1
      rw [hs, Nat.mul_add_div hp, Nat.div_eq_of_lt hlt, Nat.add_zero, h.tick]
    · show e.nextJob + 1 = (n + 1) % e.jobTypes.length
      rw [hs, Nat.mul_add_mod, Nat.mod_eq_of_lt hlt, hj]

/-- An advanced cursor has the same turns. -/
theorem advance_eq (e : DaemonExecution) :
    doneNotes e.advance = doneNotes e ∧ e.advance.jobCount = e.jobCount
      ∧ e.advance.active = none ∧ e.advance.stopped = e.stopped := by
  unfold DaemonExecution.advance
  split <;> exact ⟨rfl, rfl, rfl, rfl⟩

theorem finishJob_moves (h : r.Holds env rows) (hk : OwnerKeeps e r.notes rows)
    (invocation : DaemonJobInvocation) (re : JobRunResult) (ss : Stamps)
    (f : Option Fault)
    (hl : ∀ row ∈ (finishJob env e r invocation re ss f).2.2.attempted, env.serde.LawfulOn [row]) :
    Moves env r rows (finishJob env e r invocation re ss f).2.1
      (finishJob env e r invocation re ss f).2.2 := by
  have hsa := Moves.unchanged h hk
  generalize hn : r.notes = ns at hk
  cases hk with
  | idle hcu hle ha hs hno =>
    simpa [finishJob, ha, hs] using hsa
  | ended hle hli hs hla hon => simpa [finishJob, hs] using hsa
  | @running n _ a hcu hlt ha hs hof ho =>
    by_cases hm : MatchesActive a invocation re
    swap
    · simpa [finishJob, ha, hs, hm] using hsa
    simp only [finishJob, ha, hs, hm, Bool.false_eq_true, if_false, not_true_eq_false] at hl ⊢
    generalize hr : rowFromResult e.workspace e.runId a.tick
      (a.startedAt.getD a.recordedAt) ss re = row at hl ⊢
    -- the finish row closes the key of the turn
    have hke : row.daemonJobKey = (e.turn n).daemonJobKey := by
      obtain ⟨-, -, -, -, hj, -⟩ := hm
      rw [← hr]
      show jobKey e.runId a.tick re.jobId = _
      rw [hj, hof.tick, hof.runner]
      rfl
    have hc : isOpen row = false := hr ▸ isOpen_rowFromResult _ _ _ _ _ _
    rcases hap : appendRow env r row f with ⟨error | ⟨⟩, r'⟩
    · simp only [hap] at hl ⊢
      obtain ⟨hh, hn'⟩ := appendRow_error h hap hl
      refine Moves.failed hh hn' ho.atMostOne (ho.concat hke).atMostOne ?_
      intro ro' hon
      rw [hn', hn, hc, hke, List.append_assoc]
      exact OwnerKeeps.ended hlt.le hcu.limit rfl .finishFailed hon
    · simp only [hap] at hl ⊢
      obtain ⟨hh, hn'⟩ := appendRow_ok h hap hl
      obtain ⟨hd, hco, hi, hg⟩ := advance_eq e
      refine Moves.appended hh [] ?_ (fun _ _ => List.not_mem_nil) ?_
      · rw [hn', List.append_nil]
      · rw [hn', hn, hc, hke, ← doneNotes_succ, ← hd]
        exact .idle hcu.advance (hco ▸ hlt) hi (hg.trans hs) (ho.close hke hc)

/-! ### A stop -/

theorem isOpen_cancelledRow (a : DaemonJobRow) (reason : String) (ss : Stamps) :
    isOpen (cancelledRow a reason ss) = false := by
  simp [isOpen, cancelledRow]

/-- A call behind a note. -/
theorem Moves.noted (n : Note) {e' : DaemonExecution} {r' : Recorder}
    (h : Moves env (r.note n) rows e' r') (hn : ∀ key opens, n ≠ .appended key opens true) :
    Moves env r rows e' r' := by
  obtain ⟨ro', hh, hk, hp, hke⟩ := h
  refine ⟨ro', hh, hk, hp, fun h => hke (h.append ?_)⟩
  intro key opens hm
  exact hn key opens (List.mem_singleton.mp hm).symm

theorem stop_moves (h : r.Holds env rows) (hk : OwnerKeeps e r.notes rows) (reason : String)
    (ss : Stamps) (f : Option Fault)
    (hl : ∀ row ∈ (stop env e r reason ss f).2.2.attempted, env.serde.LawfulOn [row]) :
    Moves env r rows (stop env e r reason ss f).2.1 (stop env e r reason ss f).2.2 := by
  have hsa := Moves.unchanged h hk
  generalize hn : r.notes = ns at hk
  cases hk with
  | ended hle hli hs hla hon => simpa [stop, hs] using hsa
  | @idle n _ hc hle ha hs hno =>
    simp only [stop, ha, hs, Bool.false_eq_true, if_false]
    refine Moves.noted .stopped ⟨rows, h, ?_, List.prefix_rfl, fun h => h⟩ (fun _ _ => by simp)
    rw [Recorder.note, hn]
    exact OwnerKeeps.ended hle hc.limit rfl .stopped (hno.onlyOpen "").atMostOne
  | @running n _ a hc hlt ha hs hof ho =>
    simp only [stop, ha, hs, Bool.false_eq_true, if_false] at hl ⊢
    have hke : (cancelledRow a reason ss).daemonJobKey = (e.turn n).daemonJobKey := hof.key
    have hcl := isOpen_cancelledRow a reason ss
    refine Moves.noted .stopped ?_ (fun _ _ => by simp)
    have hst : (r.note .stopped).notes = doneNotes e n ++ (startNotes e n ++ [Note.stopped]) := by
      rw [Recorder.note, hn, List.append_assoc]
    rcases hap : appendRow env (r.note .stopped) (cancelledRow a reason ss) f
      with ⟨error | ⟨⟩, r'⟩
    · simp only [hap] at hl ⊢
      obtain ⟨hh, hn'⟩ := appendRow_error (r := r.note .stopped) h hap hl
      refine Moves.failed hh hn' ho.atMostOne (ho.concat hke).atMostOne ?_
      intro ro' hon
      rw [hn', hst, hcl, hke, List.append_assoc, List.append_assoc]
      exact OwnerKeeps.ended hlt.le hc.limit rfl (.stoppedRunning false) hon
    · simp only [hap] at hl ⊢
      obtain ⟨hh, hn'⟩ := appendRow_ok (r := r.note .stopped) h hap hl
      refine Moves.appended hh [] ?_ (fun _ _ => List.not_mem_nil) ?_
      · rw [hn', List.append_nil]
      · rw [hn', hst, hcl, hke, List.append_assoc, List.append_assoc]
        exact OwnerKeeps.ended hlt.le hc.limit rfl (.stoppedRunning true)
          ((ho.close hke hcl).onlyOpen "").atMostOne

end

/-! ## Recovery and a new owner -/

section

variable {env : Setting} {r : Recorder} {rows : List DaemonJobRow}

/-- The bytes of the journal of a recorder. -/
def Recorder.journal (r : Recorder) : List UInt8 := (r.disk.map Disk.journal).getD []

/-- What a recovery does to the recorder. -/
theorem recoverJournal_spec (hsk : env.serde.SkipsNewline) (h : r.Holds env rows)
    (ho : AtMostOneOpen rows) (hs : r.journal.length < 2 ^ 63) (call : RecoveryCall)
    (f : Option Fault)
    (hl : ∀ row ∈ (recoverJournal env r call f).2.attempted, env.serde.LawfulOn [row]) :
    ∃ r', (recoverJournal env r call f).2.Holds env r' ∧ rows <+: r' ∧ AtMostOneOpen r'
      ∧ ((recoverJournal env r call f).1.isOk = true → NoneOpen r')
      ∧ (recoverJournal env r call f).2.notes = r.notes := by
  unfold Recorder.Holds at h
  unfold Recorder.journal at hs
  unfold recoverJournal at hl ⊢
  cases hd : r.disk with
  | none =>
    rw [hd] at h
    obtain rfl : rows = [] := h
    refine ⟨[], ?_, List.prefix_rfl, ho, fun _ => ?_, rfl⟩
    · show r.Holds env []
      rw [Recorder.Holds, hd]
    · rintro key ⟨row, hla, -⟩
      cases hla
  | some disk =>
    simp only [hd] at h hs hl ⊢
    obtain ⟨r', hh, hp, ho', hn⟩ := recoverDisk_recovers call hsk h ho
      hs (fun row hr => hl row (List.mem_append_right _ hr)) f
    exact ⟨r', hh, hp, ho', hn, trivial⟩

theorem validateOptions_ok {os : DaemonForegroundOptions} (h : validateOptions os = .ok ()) :
    os.jobTypes ≠ [] ∧ os.tickLimit ≤ maxDaemonForegroundTickLimit := by
  unfold validateOptions at h
  grind

variable (env) in
/-- A lease that is taken keeps a new owner off. -/
theorem beginExecution_leased (r : Recorder) (os : DaemonForegroundOptions)
    (re : Except String String) (ri : String) (call : RecoveryCall)
    (f : Option Fault) :
    ∃ e, beginExecution env r os re true ri call f = (.error e, r) := by
  unfold beginExecution
  cases validateOptions os with
  | error e => exact ⟨e, rfl⟩
  | ok =>
    by_cases hd : os.dryRun
    · simp only [hd, if_true]
      exact ⟨_, rfl⟩
    · simp only [hd, Bool.false_eq_true, if_false]
      cases re with
      | error e => exact ⟨e, rfl⟩
      | ok wo => exact ⟨_, rfl⟩

/-- What becomes of a new owner: it stands before its first job, and no job is open. -/
theorem beginExecution_spec (hskip : env.serde.SkipsNewline) (h : r.Holds env rows)
    (hone : AtMostOneOpen rows) (hsize : r.journal.length < 2 ^ 63)
    {options : DaemonForegroundOptions} {resolved : Except String String} {runId : String}
    {call : RecoveryCall} {fault : Option Fault} {result : Except String DaemonExecution}
    {r' : Recorder}
    (hbegin : beginExecution env r options resolved false runId call fault = (result, r'))
    (hlawful : ∀ row ∈ r'.attempted, env.serde.LawfulOn [row]) :
    ∃ rows', r'.Holds env rows' ∧ rows <+: rows' ∧ AtMostOneOpen rows' ∧ r'.notes = r.notes
      ∧ ∀ e, result = .ok e → OwnerKeeps e [] rows' := by
  unfold beginExecution at hbegin
  cases hvalid : validateOptions options with
  | error e =>
    rw [hvalid] at hbegin
    cases hbegin
    exact ⟨rows, h, List.prefix_rfl, hone, rfl, fun e he => by cases he⟩
  | ok =>
    rw [hvalid] at hbegin
    by_cases hdry : options.dryRun
    · simp only [hdry, if_true] at hbegin
      cases hbegin
      exact ⟨rows, h, List.prefix_rfl, hone, rfl, fun e he => by cases he⟩
    · cases resolved with
      | error e =>
        simp only [hdry, Bool.false_eq_true, if_false] at hbegin
        cases hbegin
        exact ⟨rows, h, List.prefix_rfl, hone, rfl, fun e he => by cases he⟩
      | ok workspace =>
        simp only [hdry, Bool.false_eq_true, if_false] at hbegin
        generalize hcall : ({ call with
          workspace := workspace
          reason := "previous daemon execution owner stopped; outcome may be unknown" } :
            RecoveryCall) = call' at hbegin
        have hspec := recoverJournal_spec hskip h hone hsize call' fault
        rcases hrec : recoverJournal env r call' fault with ⟨e | report, after⟩
        · rw [hrec] at hbegin hspec
          cases hbegin
          obtain ⟨rows', hholds, hprefix, hone', -, hnotes⟩ := hspec hlawful
          exact ⟨rows', hholds, hprefix, hone', hnotes, fun e he => by cases he⟩
        · rw [hrec] at hbegin hspec
          cases hbegin
          obtain ⟨rows', hholds, hprefix, hone', hnone, hnotes⟩ := hspec hlawful
          refine ⟨rows', hholds, hprefix, hone', hnotes, fun e he => ?_⟩
          cases he
          obtain ⟨hjobs, hlimit⟩ := validateOptions_ok hvalid
          have hcursor : CursorAt
              { workspace := workspace, runId := runId, jobTypes := options.jobTypes
                tickLimit := options.tickLimit, nextTick := 1, nextJob := 0, active := none
                stopped := false, completedJobs := 0, completedTicks := 0
                recoveredOrphans := report.openJobsCancelled } 0 :=
            ⟨hjobs, by rw [Nat.zero_div], by rw [Nat.zero_mod], hlimit⟩
          exact .idle hcursor (Nat.zero_le _) rfl rfl (hnone rfl)

end

/-! ## Runs -/

/-- **The invariant of the runs.** -/
structure World.Keeps (env : Setting) (w : World) (rows : List DaemonJobRow) : Prop where
  holds : w.recorder.Holds env rows
  atMostOne : AtMostOneOpen rows
  owner : ∀ e, w.owner = some e → OwnerKeeps e w.recorder.notes rows
  notes : NotesKept w.recorder.notes rows
  past : ∀ t ∈ w.past, t.Orderly ∧ NotesKept t.notes rows

section

variable {env : Setting} {w : World} {rows : List DaemonJobRow}

/-- A call of the owner. -/
theorem World.Keeps.moves (h : w.Keeps env rows) {e : DaemonExecution} {r : Recorder}
    (hm : Moves env w.recorder rows e r) :
    ∃ r', World.Keeps env { w with recorder := r, owner := some e } r' := by
  obtain ⟨r', hh, hk, hp, hke⟩ := hm
  refine ⟨r', hh, hk.atMostOne, ?_, hke h.notes, ?_⟩
  · intro e' he
    cases he
    exact hk
  · exact fun t ht => ⟨(h.past t ht).1, (h.past t ht).2.mono hp⟩

/-- **One step.** -/
theorem World.Keeps.step (hsk : env.serde.SkipsNewline) (h : w.Keeps env rows)
    (hsi : w.journal.length < 2 ^ 63) (event : Event)
    (hl : ∀ row ∈ (w.step env event).recorder.attempted, env.serde.LawfulOn [row]) :
    ∃ r', (w.step env event).Keeps env r' := by
  cases event with
  | beginExecution os re ri call f =>
    cases ho : w.owner with
    | some e =>
      -- the lease is taken
      have hs : (w.step env (.beginExecution os re ri call f)) = w := by
        obtain ⟨error, her⟩ := beginExecution_leased env w.recorder os re ri call f
        rw [World.step, ho, Option.isSome_some, her]
        show { w with owner := some e } = w
        rw [← ho]
      rw [hs]
      exact ⟨rows, h⟩
    | none =>
      unfold World.step at hl ⊢
      rw [ho] at hl ⊢
      simp only [Option.isSome_none] at hl ⊢
      rcases hb : beginExecution env w.recorder os re false ri call f
        with ⟨e | e, r⟩
      · simp only [hb] at hl ⊢
        obtain ⟨r', hh, hp, hon, hn, -⟩ := beginExecution_spec hsk h.holds h.atMostOne hsi hb hl
        refine ⟨r', hh, hon, ?_, ?_, ?_⟩
        · rintro e ⟨⟩
        · show NotesKept r.notes r'
          rw [hn]
          exact h.notes.mono hp
        · exact fun t ht => ⟨(h.past t ht).1, (h.past t ht).2.mono hp⟩
      · simp only [hb] at hl ⊢
        obtain ⟨r', hh, hp, hon, -, hk⟩ := beginExecution_spec hsk h.holds h.atMostOne hsi hb hl
        refine ⟨r', hh, hon, ?_, ?_, ?_⟩
        · intro e he
          cases he
          exact hk _ rfl
        · rintro key opens ⟨⟩
        · exact fun t ht => ⟨(h.past t ht).1, (h.past t ht).2.mono hp⟩
  | recover call f =>
    cases ho : w.owner with
    | some e =>
      have hs : w.step env (.recover call f) = w := by
        rw [World.step, ho]
        rfl
      rw [hs]
      exact ⟨rows, h⟩
    | none =>
      simp only [World.step, ho, Option.isSome_none, Bool.false_eq_true, if_false] at hl ⊢
      obtain ⟨r', hh, hp, hon, -, hn⟩ := recoverJournal_spec hsk h.holds h.atMostOne hsi call f hl
      refine ⟨r', hh, hon, ?_, ?_, ?_⟩
      · rintro e ⟨⟩
      · show NotesKept (recoverJournal env w.recorder call f).2.notes r'
        rw [hn]
        exact h.notes.mono hp
      · exact fun t ht => ⟨(h.past t ht).1, (h.past t ht).2.mono hp⟩
  | beginNextJob ss f =>
    cases ho : w.owner with
    | none =>
      simp only [World.step, ho]
      exact ⟨rows, h⟩
    | some e =>
      simp only [World.step, ho] at hl ⊢
      exact h.moves (beginNextJob_moves h.holds (h.owner e ho) ss f hl)
  | finishJob invocation res ss f =>
    cases ho : w.owner with
    | none =>
      simp only [World.step, ho]
      exact ⟨rows, h⟩
    | some e =>
      simp only [World.step, ho] at hl ⊢
      exact h.moves (finishJob_moves h.holds (h.owner e ho) invocation res ss f hl)
  | stop reason ss f =>
    cases ho : w.owner with
    | none =>
      simp only [World.step, ho]
      exact ⟨rows, h⟩
    | some e =>
      simp only [World.step, ho] at hl ⊢
      exact h.moves (stop_moves h.holds (h.owner e ho) reason ss f hl)
  | drop =>
    cases ho : w.owner with
    | none =>
      simp only [World.step, ho]
      exact ⟨rows, h⟩
    | some e =>
      simp only [World.step, ho]
      have hk := h.owner e ho
      refine ⟨rows, h.holds, h.atMostOne, ?_, ?_, ?_⟩
      · rintro e ⟨⟩
      · rintro key opens ⟨⟩
      · intro t ht
        rcases List.mem_append.mp ht with ht | ht
        · exact h.past t ht
        · obtain rfl := List.mem_singleton.mp ht
          exact ⟨hk.orderly, h.notes⟩

/-! ### The rows that were handed to the journal -/

variable (env)

theorem attempted_appendRow (r : Recorder) (row : DaemonJobRow) (f : Option Fault) :
    r.attempted <+: (appendRow env r row f).2.attempted := List.prefix_append _ _

theorem attempted_recoverJournal (r : Recorder) (call : RecoveryCall) (f : Option Fault) :
    r.attempted <+: (recoverJournal env r call f).2.attempted := by
  unfold recoverJournal
  cases r.disk with
  | none => exact List.prefix_rfl
  | some disk => exact List.prefix_append _ _

theorem attempted_beginExecution (r : Recorder) (os : DaemonForegroundOptions)
    (re : Except String String) (l : Bool) (ri : String) (call : RecoveryCall)
    (f : Option Fault) :
    r.attempted <+: (beginExecution env r os re l ri call f).2.attempted := by
  unfold beginExecution
  cases validateOptions os with
  | error e => exact List.prefix_rfl
  | ok =>
    cases re with
    | error e =>
      dsimp only
      split_ifs <;> exact List.prefix_rfl
    | ok wo =>
      dsimp only
      split_ifs
      · exact List.prefix_rfl
      · exact List.prefix_rfl
      · have hr := attempted_recoverJournal env r { call with
          workspace := wo
          reason := "previous daemon execution owner stopped; outcome may be unknown" } f
        split <;> simp_all only

theorem attempted_beginNextJob (e : DaemonExecution) (r : Recorder) (ss : Stamps)
    (f : Option Fault) :
    r.attempted <+: (beginNextJob env e r ss f).2.2.attempted := by
  unfold beginNextJob
  split_ifs
  · exact List.prefix_rfl
  · exact List.prefix_rfl
  · exact List.prefix_rfl
  · have ha := attempted_appendRow env r (e.startRow (e.invocation e.nextTick e.nextJob) ss) f
    dsimp only
    split <;> simp_all only [Recorder.note]

theorem attempted_finishJob (e : DaemonExecution) (r : Recorder)
    (invocation : DaemonJobInvocation) (re : JobRunResult) (ss : Stamps)
    (f : Option Fault) :
    r.attempted <+: (finishJob env e r invocation re ss f).2.2.attempted := by
  unfold finishJob
  split_ifs
  · exact List.prefix_rfl
  · cases e.active with
    | none => exact List.prefix_rfl
    | some a =>
      dsimp only
      split_ifs
      · have ha := attempted_appendRow env r (rowFromResult e.workspace e.runId
          a.tick (a.startedAt.getD a.recordedAt) ss re) f
        split <;> simp_all only
      · exact List.prefix_rfl

theorem attempted_stop (e : DaemonExecution) (r : Recorder) (reason : String) (ss : Stamps)
    (f : Option Fault) :
    r.attempted <+: (stop env e r reason ss f).2.2.attempted := by
  unfold stop
  split_ifs
  · exact List.prefix_rfl
  · dsimp only
    cases e.active with
    | none => exact List.prefix_rfl
    | some a =>
      have ha := attempted_appendRow env (r.note .stopped) (cancelledRow a reason ss) f
      dsimp only
      split <;> simp_all only [Recorder.note]

/-- A step forgets none of the rows. -/
theorem World.attempted_step (w : World) (event : Event) :
    w.recorder.attempted <+: (w.step env event).recorder.attempted := by
  cases event with
  | beginExecution os re ri call f =>
    have hb := attempted_beginExecution env w.recorder os re w.owner.isSome ri call f
    unfold World.step
    dsimp only
    split <;> simp_all only
  | recover call f =>
    unfold World.step
    by_cases ho : w.owner.isSome
    · simp only [ho, if_true]
      exact List.prefix_rfl
    · simp only [ho, Bool.false_eq_true, if_false]
      exact attempted_recoverJournal env _ _ _
  | beginNextJob ss f =>
    unfold World.step
    cases w.owner with
    | none => exact List.prefix_rfl
    | some e => exact attempted_beginNextJob env e _ ss f
  | finishJob invocation res ss f =>
    unfold World.step
    cases w.owner with
    | none => exact List.prefix_rfl
    | some e => exact attempted_finishJob env e _ invocation res ss f
  | stop reason ss f =>
    unfold World.step
    cases w.owner with
    | none => exact List.prefix_rfl
    | some e => exact attempted_stop env e _ reason ss f
  | drop =>
    unfold World.step
    cases w.owner with
    | none => exact List.prefix_rfl
    | some e => exact List.prefix_rfl

variable {env}

/-- The journal of a run stays below `2 ^ 63` bytes. -/
theorem Run.size {w : World} (h : Run env w) : w.journal.length < 2 ^ 63 := by
  cases h with
  | initial => decide
  | step h event hs => exact hs

/-- **Every run** keeps the invariant. -/
theorem Run.keeps {w : World} (h : Run env w) (hs : env.serde.SkipsNewline)
    (hl : ∀ row ∈ w.recorder.attempted, env.serde.LawfulOn [row]) :
    ∃ rows, w.Keeps env rows := by
  induction h with
  | initial =>
    refine ⟨[], rfl, ?_, ?_, ?_, ?_⟩
    · rintro key k' ⟨row, hr, -⟩
      cases hr
    · rintro e ⟨⟩
    · rintro key opens ⟨⟩
    · rintro t ⟨⟩
  | @step w h event hsi ih =>
    obtain ⟨rows, hk⟩ := ih fun row hr => hl row ((w.attempted_step env event).subset hr)
    exact hk.step hs h.size event hl

/-- **The daemon has at most one open job.**  In every run, with appends and recoveries that fail
anywhere, stops, and owners that follow each other: the journal can be read, at most one job key is
open in it, every owner was orderly, and the rows of its appends that succeeded are in the
journal. -/
theorem daemon_has_one_open_job {w : World} (h : Run env w) (hskip : env.serde.SkipsNewline)
    (hserde : env.serde.LawfulOn w.recorder.attempted) :
    ∃ rows, Scans env.serde w.journal rows ∧ AtMostOneOpen rows
      ∧ ∀ t ∈ w.terms, t.Orderly ∧ NotesKept t.notes rows := by
  obtain ⟨rows, hk⟩ := h.keeps hskip fun row hr => hserde.single hr
  refine ⟨rows, ?_, hk.atMostOne, ?_⟩
  · have hh := hk.holds.disk.scans
    unfold World.journal
    cases hd : w.recorder.disk with
    | none =>
      rw [hd] at hh
      exact hh
    | some disk =>
      rw [hd] at hh
      exact hh
  · intro t ht
    rcases List.mem_append.mp ht with ht | ht
    · exact hk.past t ht
    · cases ho : w.owner with
      | none =>
        rw [ho] at ht
        cases ht
      | some e =>
        rw [ho] at ht
        obtain rfl := List.mem_singleton.mp ht
        exact ⟨(hk.owner e ho).orderly, hk.notes⟩

end

/-! ## A daemon that was interrupted -/

def sampleOptions : DaemonForegroundOptions where
  workspace := "/ws"
  tickLimit := 1
  intervalMs := 1000
  dryRun := false
  jobTypes := [.healthCheck]

def sampleStamps : Stamps where
  rowId := "row_1"
  now := "2026-01-01T00:00:00+00:00"
  later := "2026-01-01T00:00:00+00:00"

/-- The start row of the first job of a run. -/
def firstRow (run : String) : DaemonJobRow :=
  { sampleRow with
    runId := run
    daemonJobKey := run ++ ":tick-000001:job-000001"
    runnerJobId := "job-000001"
    writeOwnerId := "ee-daemon-single-write-owner"
    reason := "daemon foreground tick 1 job starting"
    startedAt := some "2026-01-01T00:00:00+00:00"
    recordedAt := "2026-01-01T00:00:00+00:00" }

/-- Its JSON. -/
def firstText (run : String) : List UInt8 :=
  asBytes ("\x7b\"schema\":\"ee.steward.daemon_job_row.v1\",\"rowId\":\"row_1\","
    ++ "\"runId\":\"" ++ run ++ "\",\"daemonJobKey\":\"" ++ run ++ ":tick-000001:job-000001\","
    ++ "\"runnerJobId\":\"job-000001\",\"tick\":1,\"jobType\":\"health_check\","
    ++ "\"status\":\"running\",\"outcome\":null,\"workspace\":\"/ws\","
    ++ "\"writeOwnerId\":\"ee-daemon-single-write-owner\","
    ++ "\"reason\":\"daemon foreground tick 1 job starting\","
    ++ "\"startedAt\":\"2026-01-01T00:00:00+00:00\",\"completedAt\":null,"
    ++ "\"recordedAt\":\"2026-01-01T00:00:00+00:00\",\"durationMs\":null,"
    ++ "\"itemsProcessed\":null,\"error\":null,\"dryRun\":false,"
    ++ "\"durableMutation\":false,\"recoveredFromOrphan\":false,"
    ++ "\"recoveryReason\":null\x7d")

/-- `serde_json` on the first rows of two runs. -/
def startSerde : JobRowSerde where
  print row := firstText row.runId
  fromSlice bytes :=
    if withoutNewlines bytes = firstText "run_1" then .ok (firstRow "run_1")
    else if withoutNewlines bytes = firstText "run_2" then .ok (firstRow "run_2")
    else if bytes <+: firstText "run_1" ∨ bytes <+: firstText "run_2" then
      .error ⟨true, "EOF while parsing an object"⟩
    else .error ⟨false, "expected value"⟩

theorem startSerde_skipsNewline : startSerde.SkipsNewline := by
  intro bytes row h
  unfold startSerde at h ⊢
  dsimp only at h ⊢
  rw [withoutNewlines_concat]
  split_ifs at h ⊢ <;> simp_all

/-- Two objects of one length. -/
theorem firstText_table :
    (∀ run ∈ ["run_1", "run_2"], newline ∉ firstText run ∧ (firstText run).head? = some 123) ∧
      firstText "run_2" ≠ firstText "run_1" ∧
      (firstText "run_1").length = (firstText "run_2").length := by
  decide +kernel

/-- A proper beginning of either row ends too early. -/
theorem startSerde_torn {text : List UInt8}
    (h : text = firstText "run_1" ∨ text = firstText "run_2")
    {n : ℕ} (hn : n < text.length) :
    ∃ e, startSerde.fromSlice (text.take n) = .error e ∧ e.isEof = true := by
  have hl : text.length = (firstText "run_1").length
      ∧ text.length = (firstText "run_2").length := by
    rcases h with rfl | rfl
    · exact ⟨rfl, firstText_table.2.2⟩
    · exact ⟨firstText_table.2.2.symm, rfl⟩
  have hs : (withoutNewlines (text.take n)).length < text.length := by
    refine lt_of_le_of_lt (List.rdropWhile_prefix _ _).length_le ?_
    rw [List.length_take]
    exact lt_of_le_of_lt (min_le_left _ _) hn
  have hf : withoutNewlines (text.take n) ≠ firstText "run_1" := fun heq => by
    rw [heq] at hs
    omega
  have hse : withoutNewlines (text.take n) ≠ firstText "run_2" := fun heq => by
    rw [heq] at hs
    omega
  have hb : text.take n <+: firstText "run_1" ∨ text.take n <+: firstText "run_2" := by
    rcases h with rfl | rfl
    · exact Or.inl (List.take_prefix _ _)
    · exact Or.inr (List.take_prefix _ _)
  refine ⟨⟨true, "EOF while parsing an object"⟩, ?_, rfl⟩
  unfold startSerde
  dsimp only
  rw [if_neg hf, if_neg hse, if_pos hb]

theorem withoutNewlines_firstText {run : String} (hr : run ∈ ["run_1", "run_2"]) :
    withoutNewlines (firstText run) = firstText run := by
  refine List.rdropWhile_eq_self_iff.mpr fun hne hl => (firstText_table.1 run hr).1 ?_
  rw [← of_decide_eq_true hl]
  exact List.getLast_mem hne

theorem startSerde_reads {bytes : List UInt8} {run : String} (hr : run ∈ ["run_1", "run_2"])
    (h : withoutNewlines bytes = firstText run) :
    startSerde.fromSlice bytes = .ok (firstRow run) := by
  unfold startSerde
  dsimp only
  rw [h]
  rcases List.mem_pair.mp hr with rfl | rfl
  · rw [if_pos rfl]
  · rw [if_neg firstText_table.2.1, if_pos rfl]

theorem startSerde_lawful :
    startSerde.LawfulOn (["run_1", "run_2"].map firstRow) where
  noNewline row hrow := by
    obtain ⟨run, hr, rfl⟩ := List.mem_map.mp hrow
    exact (firstText_table.1 run hr).1
  opens row hrow := by
    obtain ⟨run, hr, rfl⟩ := List.mem_map.mp hrow
    exact (firstText_table.1 run hr).2
  roundTrip row hrow := by
    obtain ⟨run, hr, rfl⟩ := List.mem_map.mp hrow
    exact startSerde_reads hr (withoutNewlines_firstText hr)
  roundTripLine row hrow := by
    obtain ⟨run, hr, rfl⟩ := List.mem_map.mp hrow
    exact startSerde_reads hr ((withoutNewlines_concat _).trans (withoutNewlines_firstText hr))
  torn row hrow n hpos hn := by
    obtain ⟨run, hr, rfl⟩ := List.mem_map.mp hrow
    refine startSerde_torn ?_ hn
    rcases List.mem_pair.mp hr with rfl | rfl
    · exact Or.inl rfl
    · exact Or.inr rfl

def sampleSetting : Setting where
  serde := startSerde
  hash := sampleHash
  sizeOfEntry := 32
  sizeOfRow := 440
  keyCapacity _ := 27
  hold := tightRow

/-- The start row of the first owner is cut off; the second owner repairs the journal and starts
its job. -/
def sampleEvents : List Event :=
  [.beginExecution sampleOptions (.ok "/ws") "run_1" sampleCall none,
    .beginNextJob sampleStamps (some (.cut 20 "No space left on device (os error 28)")), .drop,
    .beginExecution sampleOptions (.ok "/ws") "run_2" sampleCall none,
    .beginNextJob sampleStamps none]

/-- A run of some events, none of which makes the journal too long. -/
theorem run_foldl {env : Setting} (es : List Event) (hs : ∀ b ∈ es.inits,
      (b.foldl (World.step env) .initial).journal.length < 2 ^ 63) :
    Run env (es.foldl (World.step env) .initial) := by
  induction es using List.reverseRecOn with
  | nil => exact .initial
  | append_singleton es event ih =>
    have hp : ∀ b ∈ es.inits, b ∈ (es ++ [event]).inits := by
      intro b hb
      rw [List.mem_inits] at hb ⊢
      exact hb.trans (List.prefix_append _ _)
    have hl := hs _ ((List.mem_inits _ _).mpr List.prefix_rfl)
    rw [List.foldl_append, List.foldl_cons, List.foldl_nil] at hl ⊢
    exact .step (ih fun b hb => hs b (hp b hb)) event hl

def sampleWorld : World := sampleEvents.foldl (World.step sampleSetting) .initial

/-- The job of the second owner is open, and no other. -/
theorem daemon_has_one_open_job_sample :
    sampleWorld.journal = firstText "run_2" ++ [newline] ∧
      ∃ rows, Scans sampleSetting.serde sampleWorld.journal rows ∧ AtMostOneOpen rows
        ∧ ∀ t ∈ sampleWorld.terms, t.Orderly ∧ NotesKept t.notes rows := by
  obtain ⟨hs, ha, hj⟩ : (∀ b ∈ sampleEvents.inits,
        (b.foldl (World.step sampleSetting) .initial).journal.length < 2 ^ 63)
      ∧ sampleWorld.recorder.attempted = ["run_1", "run_2"].map firstRow
      ∧ sampleWorld.journal = firstText "run_2" ++ [newline] := by
    decide +kernel
  have hr : Run sampleSetting sampleWorld := run_foldl sampleEvents hs
  refine ⟨hj, daemon_has_one_open_job hr startSerde_skipsNewline ?_⟩
  rw [ha]
  exact startSerde_lawful

end DaemonExecutions
