/-
# The daemon job journal

The journal is a file of rows, one JSON object a line.  A write may be cut off after any
byte; the next start runs `repair_tail`, which completes a row that misses only its newline
and removes a row that was cut inside its JSON, keeping a copy of the removed bytes.

`serde_json` at the row type and `blake3` are parameters.  What the development needs of
them is stated for the rows that are appended, `JobRowSerde.LawfulOn`.
-/
import EideticEngine.ExceptRules
import EideticEngine.Hex

namespace JobJournal

open RustText Hex

/-! ## Rows -/

/-- `DaemonJobRow`. -/
structure DaemonJobRow where
  schema : String
  rowId : String
  runId : String
  daemonJobKey : String
  runnerJobId : String
  tick : UInt32
  jobType : String
  status : String
  outcome : Option String
  workspace : String
  writeOwnerId : String
  reason : String
  startedAt : Option String
  completedAt : Option String
  recordedAt : String
  durationMs : Option UInt64
  itemsProcessed : Option UInt64
  error : Option String
  dryRun : Bool
  durableMutation : Bool
  recoveredFromOrphan : Bool
  recoveryReason : Option String
  deriving DecidableEq

/-- `serde_json::Error`: whether the input ended too early, and its text. -/
structure SerdeError where
  isEof : Bool
  text : String

/-- `serde_json` at the row type: the bytes that `to_writer` writes and `from_slice`. -/
structure JobRowSerde where
  print : DaemonJobRow → List UInt8
  fromSlice : List UInt8 → Except SerdeError DaemonJobRow

/-- `MAX_ROW_BYTES`. -/
def maxRowBytes : ℕ := 1024 * 1024

/-- `b'\n'`. -/
def newline : UInt8 := 10

/-- `u8::is_ascii_whitespace`. -/
def isAsciiWhitespace (b : UInt8) : Bool :=
  b = 32 ∨ b = 9 ∨ b = 10 ∨ b = 12 ∨ b = 13

/-! ## The torn-line test -/

/-- A continuation byte of UTF-8. -/
def isContinuation (b : UInt8) : Bool := 0x80 ≤ b ∧ b ≤ 0xBF

/-- The second byte that may follow a first byte of three or four. -/
def isSecond (first second : UInt8) : Bool :=
  if first = 0xE0 then 0xA0 ≤ second ∧ second ≤ 0xBF
  else if first = 0xED then 0x80 ≤ second ∧ second ≤ 0x9F
  else if first = 0xF0 then 0x90 ≤ second ∧ second ≤ 0xBF
  else if first = 0xF4 then 0x80 ≤ second ∧ second ≤ 0x8F
  else isContinuation second

/-- A code point of UTF-8 that was cut off after one, two or three bytes. -/
def isUtf8Stem : List UInt8 → Bool
  | [a] => 0xC2 ≤ a ∧ a ≤ 0xF4
  | [a, b] => 0xE0 ≤ a ∧ a ≤ 0xF4 ∧ isSecond a b
  | [a, b, c] => 0xF0 ≤ a ∧ a ≤ 0xF4 ∧ isSecond a b ∧ isContinuation c
  | _ => false

/-- `valid_up_to` of a `Utf8Error` whose `error_len` is `None`: the text before a code point
that the end of the input cuts off. -/
def validUpToCut (bytes : List UInt8) : Option (List UInt8) :=
  ([1, 2, 3].find? fun k =>
    (fromUtf8 (bytes.take (bytes.length - k))).isSome
      ∧ isUtf8Stem (bytes.drop (bytes.length - k))).map fun k => bytes.take (bytes.length - k)

section

variable (serde : JobRowSerde)

/-- `torn_json`. -/
def tornJson (bytes : List UInt8) (error : SerdeError) : Bool :=
  if error.isEof then true
  else
    match validUpToCut bytes with
    | none => false
    | some text =>
      match serde.fromSlice text with
      | .ok _ => false
      | .error textError => textError.isEof

/-! ## Scanning -/

/-- The bytes up to and with the first newline, `read_until`. -/
def readUntilNewline : List UInt8 → List UInt8
  | [] => []
  | b :: rest => if b = newline then [b] else b :: readUntilNewline rest

/-- `read_line`: the line and what follows it. -/
def readLine (input : List UInt8) : Except String (List UInt8 × List UInt8) :=
  let line := readUntilNewline (input.take (maxRowBytes + 1))
  if maxRowBytes < line.length then
    .error ("Daemon job row exceeds the " ++ toString maxRowBytes ++ "-byte recovery limit")
  else .ok (line, input.drop line.length)

/-- The scanner: what is not read yet, where it stands, what it has counted, and the state
of its visitor. -/
structure Scanner (σ : Type) where
  input : List UInt8
  offset : ℕ
  lineNumber : ℕ
  rows : ℕ
  visitor : σ

/-- The loop of `scan` over the lines of a file of a given size.  The fuel is the number of
lines and the last look. -/
def scanLines {σ : Type} (path : String) (size : ℕ)
    (visit : σ → DaemonJobRow → ℕ → ℕ → Except String σ) :
    ℕ → Scanner σ → Except String (σ × ℕ)
  | 0, s => .ok (s.visitor, s.rows)
  | fuel + 1, s =>
    match readLine s.input with
    | .error e => .error e
    | .ok (line, rest) =>
      if line = [] then .ok (s.visitor, s.rows)
      else
        let s' :=
          { s with
            input := rest
            offset := s.offset + line.length
            lineNumber := s.lineNumber + 1 }
        if line.all isAsciiWhitespace then scanLines path size visit fuel s'
        else
          match serde.fromSlice line with
          | .ok row =>
            match visit s.visitor row s.offset line.length with
            | .error e => .error e
            | .ok visitor => scanLines path size visit fuel { s' with rows := s.rows + 1, visitor }
          | .error error =>
            if s'.offset = size ∧ line.getLast? ≠ some newline ∧ tornJson serde line error then
              .ok (s.visitor, s.rows)
            else
              .error ("Failed to parse daemon job row " ++ toString s'.lineNumber ++ " in " ++ path
                ++ ": " ++ error.text)

/-- `scan` of a file: the visitor and the number of rows. -/
def scan {σ : Type} (path : String) (visit : σ → DaemonJobRow → ℕ → ℕ → Except String σ)
    (journal : List UInt8) (visitor : σ) : Except String (σ × ℕ) :=
  scanLines serde path journal.length visit (journal.length + 1) ⟨journal, 0, 0, 0, visitor⟩

/-! ## Appending and repairing -/

/-- The journal, and the copies of torn tails beside it under their names. -/
structure Disk where
  journal : List UInt8
  evidence : List (String × List UInt8)

/-- `rposition` of a newline, plus one: where the last line starts. -/
def lastLineStart (window : List UInt8) : ℕ :=
  window.length - (window.reverse.takeWhile fun b => b ≠ newline).length

variable (hash : List UInt8 → Bytes32)

/-- The file that keeps a torn tail. -/
def backupName (tail : List UInt8) : String :=
  "daemon-jobs.torn-" ++ hexLower (hash tail) ++ ".partial"

/-- `preserve_tail`. -/
def preserveTail (disk : Disk) (tail : List UInt8) : Except String Unit × Disk :=
  match disk.evidence.find? fun file => file.1 = backupName hash tail with
  | none =>
    (.ok (), { disk with evidence := disk.evidence ++ [(backupName hash tail, tail)] })
  | some (_, prior) =>
    if prior.take (maxRowBytes + 1) ≠ tail then
      (.error "Existing daemon tail evidence does not match; refusing to overwrite it", disk)
    else (.ok (), disk)

/-- `repair_tail`. -/
def repairTail (disk : Disk) : Except String Unit × Disk :=
  let size := disk.journal.length
  if size = 0 then (.ok (), disk)
  else if disk.journal.getLast? = some newline then (.ok (), disk)
  else
    let start := size - (maxRowBytes + 1)
    let window := disk.journal.drop start
    let boundary := lastLineStart window
    if boundary = 0 ∧ start ≠ 0 then
      (.error "Daemon journal tail exceeds safe recovery limit", disk)
    else
      let tail := window.drop boundary
      if maxRowBytes ≤ tail.length then
        (.error "Daemon journal tail exceeds safe recovery limit", disk)
      else
        -- a complete object whose newline was interrupted is valid history
        let complete := { disk with journal := disk.journal ++ [newline] }
        if tail.all isAsciiWhitespace then (.ok (), complete)
        else
          match serde.fromSlice tail with
          | .ok _ => (.ok (), complete)
          | .error error =>
            if tornJson serde tail error = false then
              (.error ("Malformed daemon journal tail: " ++ error.text), disk)
            else
              match preserveTail hash disk tail with
              | (.error e, disk) => (.error e, disk)
              | (.ok (), disk) =>
                (.ok (), { disk with journal := disk.journal.take (start + boundary) })

/-- The encoding of a row into `RowSize` and `RowBuffer`. -/
def encodeRow (row : DaemonJobRow) : Except String (List UInt8) :=
  if (serde.print row).length ≤ maxRowBytes - 1 then .ok (serde.print row)
  else .error "Encode daemon job row: daemon job row exceeds its byte budget"

/-- `write_row`, cut off after so many bytes if a cut is given. -/
def writeRow (disk : Disk) (row : DaemonJobRow) (cut : Option ℕ) : Except String Unit × Disk :=
  match encodeRow serde row with
  | .error e => (.error e, disk)
  | .ok bytes =>
    let line := bytes ++ [newline]
    let written :=
      match cut with
      | none => line
      | some n => line.take n
    (.ok (), { disk with journal := disk.journal ++ written })

/-- The loop of `append_rows` over the rows, without a cut. -/
def writeRows (disk : Disk) : List DaemonJobRow → Except String Unit × Disk
  | [] => (.ok (), disk)
  | row :: rows =>
    match writeRow serde disk row none with
    | (.error e, disk) => (.error e, disk)
    | (.ok (), disk) => writeRows disk rows

/-- `append_rows`: check every size, repair, write. -/
def appendRows (disk : Disk) (rows : List DaemonJobRow) : Except String Unit × Disk :=
  if rows = [] then (.ok (), disk)
  else
    match rows.mapM (encodeRow serde) with
    | .error e => (.error e, disk)
    | .ok _ =>
      match repairTail serde hash disk with
      | (.error e, disk) => (.error e, disk)
      | (.ok (), disk) => writeRows serde disk rows

end

/-! ## Runs -/

/-- The append of a row; a cut is the number of bytes that reached the file before the
daemon died. -/
structure Append where
  row : DaemonJobRow
  cut : Option ℕ

section

variable (serde : JobRowSerde) (hash : List UInt8 → Bytes32)

/-- The line of a row. -/
def lineOf (row : DaemonJobRow) : List UInt8 := serde.print row ++ [newline]

/-- The disk when the write of an append has ended or was cut off. -/
def writeAppend (disk : Disk) (a : Append) : Disk :=
  match a.cut with
  | none => (appendRows serde hash disk [a.row]).2
  | some n =>
    match repairTail serde hash disk with
    | (.error _, disk) => disk
    | (.ok (), disk) => (writeRow serde disk a.row (some n)).2

/-- An append, with the restart that follows one that was cut off. -/
def stepAppend (disk : Disk) (a : Append) : Disk :=
  match a.cut with
  | none => writeAppend serde hash disk a
  | some _ => (repairTail serde hash (writeAppend serde hash disk a)).2

/-- The disk after some appends to an empty journal. -/
def runAppends (appends : List Append) : Disk :=
  appends.foldl (stepAppend serde hash) ⟨[], []⟩

/-- The JSON of the row was completely written. -/
def Append.complete (a : Append) : Bool :=
  match a.cut with
  | none => true
  | some n => (serde.print a.row).length ≤ n

/-- The rows whose JSON was completely written. -/
def writtenRows (appends : List Append) : List DaemonJobRow :=
  (appends.filter (Append.complete serde)).map Append.row

end

/-- What the JSON library promises for some rows: an object is printed without a raw
newline and starts with a brace, it is read back with and without a newline behind it, and
a proper beginning of it is reported as an end of input. -/
structure JobRowSerde.LawfulOn (serde : JobRowSerde) (rows : List DaemonJobRow) : Prop where
  noNewline : ∀ row ∈ rows, newline ∉ serde.print row
  opens : ∀ row ∈ rows, (serde.print row).head? = some 123
  roundTrip : ∀ row ∈ rows, serde.fromSlice (serde.print row) = .ok row
  roundTripLine : ∀ row ∈ rows, serde.fromSlice (serde.print row ++ [newline]) = .ok row
  torn : ∀ row ∈ rows, ∀ n, 0 < n → n < (serde.print row).length →
    ∃ e, serde.fromSlice ((serde.print row).take n) = .error e ∧ e.isEof = true

/-- A scan of the journal visits the given rows, each once and in order, whatever the
visitor does with them and their places. -/
def Scans (serde : JobRowSerde) (journal : List UInt8) (rows : List DaemonJobRow) : Prop :=
  ∃ visits : List (DaemonJobRow × ℕ × ℕ), visits.map Prod.fst = rows ∧
    ∀ (σ : Type) (path : String) (visit : σ → DaemonJobRow → ℕ → ℕ → Except String σ)
      (visitor : σ), scan serde path visit journal visitor
        = (visits.foldlM (fun s v => visit s v.1 v.2.1 v.2.2) visitor).map
          fun s => (s, visits.length)

/-! ## Reading lines -/

theorem readUntilNewline_of_notMem {text : List UInt8} (h : newline ∉ text) :
    readUntilNewline text = text := by
  induction text with
  | nil => rfl
  | cons b text ih =>
    rw [List.mem_cons, not_or] at h
    rw [readUntilNewline, if_neg (fun heq => h.1 heq.symm), ih h.2]

theorem readUntilNewline_line {text : List UInt8} (h : newline ∉ text) (r : List UInt8) :
    readUntilNewline (text ++ newline :: r) = text ++ [newline] := by
  induction text with
  | nil =>
    rw [List.nil_append, readUntilNewline, if_pos rfl]
    rfl
  | cons b text ih =>
    rw [List.mem_cons, not_or] at h
    rw [List.cons_append, readUntilNewline, if_neg (fun heq => h.1 heq.symm), ih h.2]
    rfl

/-- A line within the limit is read, and the rest stays. -/
theorem readLine_line {text : List UInt8} (h : newline ∉ text) (hl : text.length < maxRowBytes)
    (r : List UInt8) :
    readLine (text ++ newline :: r) = .ok (text ++ [newline], r) := by
  have ht : (text ++ newline :: r).take (maxRowBytes + 1)
      = text ++ newline :: r.take (maxRowBytes - text.length) := by
    rw [List.take_append, List.take_of_length_le (by omega),
      show maxRowBytes + 1 - text.length = (maxRowBytes - text.length) + 1 from by omega,
      List.take_succ_cons]
  unfold readLine
  simp only [ht, readUntilNewline_line h]
  rw [if_neg (by simp only [List.length_append, List.length_singleton]; omega)]
  have hd : (text ++ newline :: r).drop (text ++ [newline]).length = r := by
    rw [show text ++ newline :: r = (text ++ [newline]) ++ r from by simp, List.drop_left]
  rw [hd]

/-- The last line, without a newline. -/
theorem readLine_last {text : List UInt8} (h : newline ∉ text) (hl : text.length < maxRowBytes) :
    readLine text = .ok (text, []) := by
  unfold readLine
  simp only [List.take_of_length_le (show text.length ≤ maxRowBytes + 1 from by omega),
    readUntilNewline_of_notMem h]
  rw [if_neg (by omega), List.drop_length]

/-! ## Scanning printed rows -/

section

variable {serde : JobRowSerde}

/-- A row that the library prints lawfully, below the line limit. -/
structure Printable (serde : JobRowSerde) (row : DaemonJobRow) : Prop where
  lawful : serde.LawfulOn [row]
  below : (serde.print row).length < maxRowBytes

theorem Printable.noNewline {row : DaemonJobRow} (h : Printable serde row) :
    newline ∉ serde.print row :=
  h.lawful.noNewline row (List.mem_singleton_self _)

/-- Bytes that start with a brace are not blank. -/
theorem not_blank_of_head {bytes : List UInt8} (h : bytes.head? = some 123) :
    bytes.all isAsciiWhitespace = false := by
  cases bytes with
  | nil => cases h
  | cons b r =>
    cases h
    rw [List.all_cons, show isAsciiWhitespace 123 = false from by decide, Bool.false_and]

theorem Printable.opens {row : DaemonJobRow} (h : Printable serde row) :
    (serde.print row).head? = some 123 :=
  h.lawful.opens row (List.mem_singleton_self _)

theorem Printable.print_ne_nil {row : DaemonJobRow} (h : Printable serde row) :
    serde.print row ≠ [] := by
  intro hn
  have ho := h.opens
  rw [hn] at ho
  cases ho

/-- A beginning of the printed row starts with the brace too. -/
theorem Printable.opens_take {row : DaemonJobRow} (h : Printable serde row) {n : ℕ} (hn : 0 < n) :
    ((serde.print row).take n).head? = some 123 := by
  rw [List.head?_take, if_neg (by omega)]
  exact h.opens

/-- The places of rows that stand one after the other. -/
def located (serde : JobRowSerde) : ℕ → List DaemonJobRow → List (DaemonJobRow × ℕ × ℕ)
  | _, [] => []
  | offset, row :: rows =>
    (row, offset, (lineOf serde row).length)
      :: located serde (offset + (lineOf serde row).length) rows

theorem located_fst (rows : List DaemonJobRow) :
    ∀ o, (located serde o rows).map Prod.fst = rows := by
  induction rows with
  | nil => intro o; rfl
  | cons row rows ih =>
    intro o
    rw [located, List.map_cons, ih]

variable {σ : Type} {path : String} {size : ℕ}
  {visit : σ → DaemonJobRow → ℕ → ℕ → Except String σ}

/-- One line of a row. -/
theorem scanLines_line {row : DaemonJobRow} (h : Printable serde row) (f : ℕ)
    (r : List UInt8) (o lineNo rows : ℕ) (v : σ) :
    scanLines serde path size visit (f + 1) ⟨lineOf serde row ++ r, o, lineNo, rows, v⟩
      = (visit v row o (lineOf serde row).length >>= fun v' => scanLines serde path size visit f
          ⟨r, o + (lineOf serde row).length, lineNo + 1, rows + 1, v'⟩) := by
  have hr : readLine (lineOf serde row ++ r) = .ok (lineOf serde row, r) := by
    rw [lineOf, List.append_assoc]
    exact readLine_line h.noNewline h.below r
  have hb : (lineOf serde row).all isAsciiWhitespace = false := by
    apply not_blank_of_head
    rw [lineOf, List.head?_append, h.opens]
    rfl
  have hs : serde.fromSlice (lineOf serde row) = .ok row :=
    h.lawful.roundTripLine row (List.mem_singleton_self _)
  rw [scanLines]
  simp only [hr, hb, hs, Bool.false_eq_true, if_false]
  rw [if_neg (by simp [lineOf])]
  rcases visit v row o (lineOf serde row).length with e | v'
  · rfl
  · rfl

/-- Many lines of rows: the scan visits them and goes on behind them. -/
theorem scanLines_rows (rows : List DaemonJobRow) : (∀ row ∈ rows, Printable serde row) →
    ∀ (f : ℕ) (r : List UInt8) (o lineNo count : ℕ) (vi : σ),
      scanLines serde path size visit (rows.length + f)
          ⟨rows.flatMap (lineOf serde) ++ r, o, lineNo, count, vi⟩
        = ((located serde o rows).foldlM (fun s v => visit s v.1 v.2.1 v.2.2) vi
          >>= fun v' => scanLines serde path size visit f
            ⟨r, o + (rows.flatMap (lineOf serde)).length, lineNo + rows.length,
              count + rows.length, v'⟩) := by
  induction rows with
  | nil =>
    intro _ f r o lineNo count vi
    simp [located, pure, Except.pure, bind, Except.bind]
  | cons row rows ih =>
    intro hro f r o lineNo count vi
    obtain ⟨hrow, hr⟩ := List.forall_mem_cons.mp hro
    rw [List.flatMap_cons, List.append_assoc, List.length_cons,
      show rows.length + 1 + f = (rows.length + f) + 1 from by omega,
      scanLines_line hrow, located, List.foldlM_cons, bind_assoc]
    congr 1
    funext v'
    rw [ih hr]
    simp only [List.length_append, Nat.add_assoc, Nat.add_comm 1]

/-- Nothing is left: the scan ends. -/
theorem scanLines_nil (f o lineNo count : ℕ) (v : σ) :
    scanLines serde path size visit f ⟨[], o, lineNo, count, v⟩ = .ok (v, count) := by
  cases f with
  | zero => rfl
  | succ f =>
    have hr : readLine [] = .ok ([], []) :=
      readLine_last List.not_mem_nil (show 0 < maxRowBytes by decide)
    rw [scanLines, hr]
    rfl

/-- A last row that misses only its newline is visited. -/
theorem scanLines_complete {row : DaemonJobRow} (h : Printable serde row)
    (f o lineNo count : ℕ) (v : σ) :
    scanLines serde path size visit (f + 1) ⟨serde.print row, o, lineNo, count, v⟩
      = (visit v row o (serde.print row).length).map fun s => (s, count + 1) := by
  have hs : serde.fromSlice (serde.print row) = .ok row :=
    h.lawful.roundTrip row (List.mem_singleton_self _)
  rw [scanLines, readLine_last h.noNewline h.below]
  simp only [if_neg h.print_ne_nil, not_blank_of_head h.opens, hs, Bool.false_eq_true, if_false]
  rcases visit v row o (serde.print row).length with e | v'
  · rfl
  · exact scanLines_nil _ _ _ _ _

/-- A last row that was cut inside its JSON is left out. -/
theorem scanLines_torn {row : DaemonJobRow} (h : Printable serde row) {n : ℕ} (hp : 0 < n)
    (hn : n < (serde.print row).length) (f o lineNo count : ℕ) (v : σ)
    (hsi : o + n = size) :
    scanLines serde path size visit (f + 1) ⟨(serde.print row).take n, o, lineNo, count, v⟩
      = .ok (v, count) := by
  obtain ⟨e, hs, he⟩ := h.lawful.torn row (List.mem_singleton_self _) n hp hn
  have hle : ((serde.print row).take n).length = n := by
    rw [List.length_take]
    omega
  have hno : newline ∉ (serde.print row).take n := fun hm => h.noNewline (List.mem_of_mem_take hm)
  have hne : (serde.print row).take n ≠ [] := by
    intro hni
    rw [hni] at hle
    exact absurd hle (by simp; omega)
  have hl : ((serde.print row).take n).getLast? ≠ some newline :=
    fun hl => hno (List.mem_of_getLast? hl)
  rw [scanLines, readLine_last hno (by rw [hle]; have := h.below; omega)]
  simp only [if_neg hne, not_blank_of_head (h.opens_take hp), hs, Bool.false_eq_true, if_false]
  rw [if_pos ⟨by rw [hle]; exact hsi, hl, by simp [tornJson, he]⟩]

end

/-! ## What a scan of a journal visits -/

section

variable {serde : JobRowSerde} {rows : List DaemonJobRow}

theorem length_le_flatMap (serde : JobRowSerde) (rows : List DaemonJobRow) :
    rows.length ≤ (rows.flatMap (lineOf serde)).length := by
  induction rows with
  | nil => exact Nat.le_refl 0
  | cons row rows ih =>
    rw [List.flatMap_cons, List.length_append, lineOf, List.length_append]
    simp only [List.length_cons, List.length_nil]
    omega

/-- A scan reaches what follows the complete lines. -/
theorem scan_behind (hr : ∀ row ∈ rows, Printable serde row) (tail : List UInt8) {σ : Type}
    (path : String) (visit : σ → DaemonJobRow → ℕ → ℕ → Except String σ) (vi : σ) :
    ∃ f, tail.length ≤ f ∧ scan serde path visit (rows.flatMap (lineOf serde) ++ tail) vi
      = ((located serde 0 rows).foldlM (fun s v => visit s v.1 v.2.1 v.2.2) vi
        >>= fun v' => scanLines serde path (rows.flatMap (lineOf serde) ++ tail).length visit
          (f + 1) ⟨tail, (rows.flatMap (lineOf serde)).length, rows.length, rows.length, v'⟩) := by
  have hl := length_le_flatMap serde rows
  refine ⟨(rows.flatMap (lineOf serde)).length + tail.length - rows.length, by omega, ?_⟩
  unfold scan
  rw [List.length_append, show (rows.flatMap (lineOf serde)).length + tail.length + 1
    = rows.length + ((rows.flatMap (lineOf serde)).length + tail.length - rows.length + 1)
    from by omega, scanLines_rows rows hr]
  simp only [Nat.zero_add]

theorem length_located (rows : List DaemonJobRow) :
    (located serde 0 rows).length = rows.length := by
  rw [← List.length_map (f := Prod.fst), located_fst]

/-- A journal of complete lines. -/
theorem scans_lines (hr : ∀ row ∈ rows, Printable serde row) :
    Scans serde (rows.flatMap (lineOf serde)) rows := by
  refine ⟨located serde 0 rows, located_fst rows 0, ?_⟩
  intro σ path visit v
  obtain ⟨f, -, hs⟩ := scan_behind hr [] path visit v
  rw [List.append_nil] at hs
  rw [hs, length_located]
  simp only [scanLines_nil]
  rfl

/-- A journal whose last row misses its newline. -/
theorem scans_complete (hr : ∀ row ∈ rows, Printable serde row) {row : DaemonJobRow}
    (hro : Printable serde row) :
    Scans serde (rows.flatMap (lineOf serde) ++ serde.print row) (rows ++ [row]) := by
  refine ⟨located serde 0 rows
    ++ [(row, (rows.flatMap (lineOf serde)).length, (serde.print row).length)], ?_, ?_⟩
  · rw [List.map_append, located_fst]
    rfl
  intro σ path visit vi
  obtain ⟨f, -, hs⟩ := scan_behind hr (serde.print row) path visit vi
  rw [hs]
  simp only [scanLines_complete hro, List.foldlM_append, List.length_append, length_located,
    List.length_singleton]
  generalize (located serde 0 rows).foldlM (fun s v => visit s v.1 v.2.1 v.2.2) vi = vis
  cases vis with
  | error e => rfl
  | ok s =>
    simp only [bind, Except.bind, List.foldlM_cons, List.foldlM_nil]
    generalize visit s row (rows.flatMap (lineOf serde)).length (serde.print row).length = l
    cases l <;> rfl

/-- A journal whose last row was cut inside its JSON. -/
theorem scans_torn (hr : ∀ row ∈ rows, Printable serde row) {row : DaemonJobRow}
    (hro : Printable serde row) {n : ℕ} (hp : 0 < n) (hn : n < (serde.print row).length) :
    Scans serde (rows.flatMap (lineOf serde) ++ (serde.print row).take n) rows := by
  refine ⟨located serde 0 rows, located_fst rows 0, ?_⟩
  intro σ path visit v
  obtain ⟨f, -, hs⟩ := scan_behind hr ((serde.print row).take n) path visit v
  rw [hs, length_located]
  have hsi : (rows.flatMap (lineOf serde)).length + n
      = (rows.flatMap (lineOf serde) ++ (serde.print row).take n).length := by
    rw [List.length_append, List.length_take]
    omega
  simp only [scanLines_torn hro hp hn _ _ _ _ _ hsi]
  rfl

end

/-! ## Repairing -/

section

variable {serde : JobRowSerde} {hash : List UInt8 → Bytes32} {rows : List DaemonJobRow}

/-- Complete lines end with a newline, or there are none. -/
theorem getLast?_lines (serde : JobRowSerde) (rows : List DaemonJobRow) :
    rows.flatMap (lineOf serde) = [] ∨ (rows.flatMap (lineOf serde)).getLast? = some newline := by
  rcases List.eq_nil_or_concat rows with rfl | ⟨f, l, rfl⟩
  · exact .inl rfl
  · right
    simp [lineOf]

/-- A journal of complete lines needs no repair. -/
theorem repairTail_lines {d : Disk} (h : d.journal = rows.flatMap (lineOf serde)) :
    repairTail serde hash d = (.ok (), d) := by
  unfold repairTail
  simp only
  split
  · rfl
  · rename_i hs
    rcases getLast?_lines serde rows with hn | hl
    · rw [h, hn] at hs
      exact absurd rfl hs
    · rw [if_pos (by rw [h]; exact hl)]

/-- The last line starts behind the last newline. -/
theorem lastLineStart_append {f tail : List UInt8}
    (hf : f = [] ∨ f.getLast? = some newline) (ht : newline ∉ tail) :
    lastLineStart (f ++ tail) = f.length := by
  have hta : ((f ++ tail).reverse.takeWhile fun b => b ≠ newline) = tail.reverse := by
    rw [List.reverse_append, List.takeWhile_append_of_pos]
    · rcases hf with rfl | hl
      · simp
      · obtain ⟨ys, rfl⟩ := List.getLast?_eq_some_iff.mp hl
        simp
    · intro b hb
      have hne : b ≠ newline := fun heq => ht (heq ▸ List.mem_reverse.mp hb)
      simpa using hne
  unfold lastLineStart
  rw [hta]
  simp

/-- The repair finds the bytes behind the last complete line. -/
theorem tail_of_window {f tail : List UInt8}
    (hf : f = [] ∨ f.getLast? = some newline) (ht : newline ∉ tail)
    (hle : tail.length ≤ maxRowBytes) :
    let start := (f ++ tail).length - (maxRowBytes + 1)
    let w := (f ++ tail).drop start
    ¬ (lastLineStart w = 0 ∧ start ≠ 0) ∧ w.drop (lastLineStart w) = tail ∧
      start + lastLineStart w = f.length := by
  intro start w
  have hs : start ≤ f.length := by
    simp only [start, List.length_append]
    omega
  have hw : w = f.drop start ++ tail := by
    simp only [w]
    rw [List.drop_append_of_le_length hs]
  have hr : f.drop start = [] ∨ (f.drop start).getLast? = some newline := by
    by_cases ha : f.length ≤ start
    · exact .inl (List.drop_eq_nil_of_le ha)
    · right
      rcases hf with rfl | hl
      · exact absurd (Nat.zero_le _) ha
      · rw [List.getLast?_drop, if_neg ha]
        exact hl
  have hb : lastLineStart w = f.length - start := by
    rw [hw, lastLineStart_append hr ht, List.length_drop]
  refine ⟨?_, ?_, ?_⟩
  · rw [hb]
    rintro ⟨hz, hne⟩
    simp only [start, List.length_append] at hz hne hs
    omega
  · rw [hb, hw, ← List.length_drop, List.drop_left]
  · rw [hb]
    omega

/-- The torn tails of some appends. -/
def tornTails (serde : JobRowSerde) (appends : List Append) : Set (List UInt8) :=
  {tail | ∃ a ∈ appends, ∃ n, a.cut = some n ∧ tail = (serde.print a.row).take n}

/-- Every copy beside the journal is one of some tails, under its own name. -/
def Disk.Kept (hash : List UInt8 → Bytes32) (tails : Set (List UInt8)) (disk : Disk) : Prop :=
  ∀ file ∈ disk.evidence, file.2 ∈ tails ∧ file.1 = backupName hash file.2

theorem backupName_inj {tail t' : List UInt8} (h : backupName hash tail = backupName hash t') :
    hash tail = hash t' :=
  hexLower_inj ((String.append_right_inj _).mp ((String.append_left_inj _).mp h))

/-- A torn tail can be kept when no two of the tails have one digest. -/
theorem preserveTail_torn {d : Disk} {ts : Set (List UInt8)} (hk : d.Kept hash ts)
    (hh : Set.InjOn hash ts) {tail : List UInt8} (ht : tail ∈ ts)
    (hl : tail.length < maxRowBytes) :
    ∃ d', preserveTail hash d tail = (.ok (), d') ∧ d'.journal = d.journal ∧ d'.Kept hash ts := by
  unfold preserveTail
  rcases hfi : d.evidence.find? (fun file => file.1 = backupName hash tail) with
    - | ⟨name, p⟩
  · simp only [hfi]
    refine ⟨_, rfl, rfl, ?_⟩
    intro file hf
    rcases List.mem_append.mp hf with hf | hf
    · exact hk file hf
    · rw [List.mem_singleton.mp hf]
      exact ⟨ht, rfl⟩
  · obtain ⟨hp, hn⟩ := hk _ (List.mem_of_find?_eq_some hfi)
    have hs : name = backupName hash tail := by simpa using List.find?_some hfi
    have heq : p = tail := hh hp ht (backupName_inj (hn.symm.trans hs))
    refine ⟨d, ?_, rfl, hk⟩
    simp only [hfi, heq]
    rw [if_neg]
    rw [List.take_of_length_le (by omega)]
    exact fun hne => hne rfl

/-- Repairing a journal whose last row misses its newline completes the row. -/
theorem repairTail_complete {d : Disk} {row : DaemonJobRow} (hr : Printable serde row)
    (hj : d.journal = rows.flatMap (lineOf serde) ++ serde.print row) :
    repairTail serde hash d = (.ok (), { d with journal := d.journal ++ [newline] }) := by
  obtain ⟨hl, ht, -⟩ := tail_of_window (getLast?_lines serde rows) hr.noNewline hr.below.le
  rw [← hj] at hl ht
  have hs : serde.fromSlice (serde.print row) = .ok row :=
    hr.lawful.roundTrip row (List.mem_singleton_self _)
  have hsi : d.journal.length ≠ 0 := by
    rw [hj]
    simp [hr.print_ne_nil]
  have hla : d.journal.getLast? ≠ some newline := by
    rw [hj, List.getLast?_append_of_ne_nil _ hr.print_ne_nil]
    exact fun h => hr.noNewline (List.mem_of_getLast? h)
  unfold repairTail
  simp only
  rw [if_neg hsi, if_neg hla, if_neg hl, ht, if_neg (Nat.not_le.mpr hr.below),
    not_blank_of_head hr.opens, hs]
  rfl

/-- A copy of the tail leaves the journal as it is. -/
theorem journal_preserveTail (hash : List UInt8 → Bytes32) (d : Disk) (tail : List UInt8) :
    (preserveTail hash d tail).2.journal = d.journal := by
  unfold preserveTail
  split
  · rfl
  · split
    · rfl
    · rfl

/-- A journal whose last row was cut inside its JSON loses the beginning, if it can be kept. -/
theorem repairTail_torn_eq {d : Disk} {row : DaemonJobRow} {n : ℕ}
    (hp : Printable serde row) (hpo : 0 < n) (hn : n < (serde.print row).length)
    (hj : d.journal = rows.flatMap (lineOf serde) ++ (serde.print row).take n) :
    repairTail serde hash d = match preserveTail hash d ((serde.print row).take n) with
      | (.error e, d') => (.error e, d')
      | (.ok (), d') => (.ok (), { d' with journal := rows.flatMap (lineOf serde) }) := by
  have hno : newline ∉ (serde.print row).take n := fun hm => hp.noNewline (List.mem_of_mem_take hm)
  have hle : ((serde.print row).take n).length < maxRowBytes := by
    have hb := hp.below
    rw [List.length_take]
    omega
  have hne : (serde.print row).take n ≠ [] := by
    rw [ne_eq, List.take_eq_nil_iff, not_or]
    exact ⟨by omega, hp.print_ne_nil⟩
  obtain ⟨hl, ht, hs⟩ := tail_of_window (getLast?_lines serde rows) hno hle.le
  rw [← hj] at hl ht hs
  obtain ⟨e, hsl, he⟩ := hp.lawful.torn row (List.mem_singleton_self _) n hpo hn
  have hsi : d.journal.length ≠ 0 := by
    rw [hj]
    simp only [List.length_append]
    have := List.length_pos_iff.mpr hne
    omega
  have hla : d.journal.getLast? ≠ some newline := by
    rw [hj, List.getLast?_append_of_ne_nil _ hne]
    exact fun h => hno (List.mem_of_getLast? h)
  have hto : tornJson serde ((serde.print row).take n) e ≠ false := by
    simp [tornJson, he]
  have hsa := journal_preserveTail hash d ((serde.print row).take n)
  unfold repairTail
  simp only
  rw [if_neg hsi, if_neg hla, if_neg hl, ht, if_neg (Nat.not_le.mpr hle),
    not_blank_of_head (hp.opens_take hpo), hsl]
  simp only [Bool.false_eq_true, if_false, if_neg hto, hs]
  rcases hpr : preserveTail hash d ((serde.print row).take n) with ⟨e | ⟨⟩, d'⟩
  · rfl
  · rw [hpr] at hsa
    simp only at hsa ⊢
    rw [hsa, hj, List.take_left]

/-- Repairing a journal whose last row was cut inside its JSON removes the beginning. -/
theorem repairTail_torn {d : Disk} {row : DaemonJobRow} {ts : Set (List UInt8)} {n : ℕ}
    (hp : Printable serde row) (hpo : 0 < n) (hn : n < (serde.print row).length)
    (hk : d.Kept hash ts) (hh : Set.InjOn hash ts)
    (hm : (serde.print row).take n ∈ ts)
    (hj : d.journal = rows.flatMap (lineOf serde) ++ (serde.print row).take n) :
    ∃ d', repairTail serde hash d = (.ok (), d') ∧
      d'.journal = rows.flatMap (lineOf serde) ∧ d'.Kept hash ts := by
  have hle : ((serde.print row).take n).length < maxRowBytes := by
    have hb := hp.below
    rw [List.length_take]
    omega
  obtain ⟨d', hpr, -, hk'⟩ := preserveTail_torn hk hh hm hle
  refine ⟨{ d' with journal := rows.flatMap (lineOf serde) }, ?_, rfl, hk'⟩
  rw [repairTail_torn_eq hp hpo hn hj, hpr]

/-! ## Whole runs -/

/-- The bytes of an append that reached the file. -/
def Append.bytes (serde : JobRowSerde) (a : Append) : List UInt8 :=
  match a.cut with
  | none => lineOf serde a.row
  | some n => (lineOf serde a.row).take n

/-- A write to a journal of complete lines puts the bytes behind them. -/
theorem writeAppend_lines {d : Disk} {a : Append} (ha : Printable serde a.row)
    (hj : d.journal = rows.flatMap (lineOf serde)) :
    writeAppend serde hash d a = { d with journal := d.journal ++ a.bytes serde } := by
  have he : encodeRow serde a.row = .ok (serde.print a.row) := by
    have hb := ha.below
    exact if_pos (by omega)
  obtain ⟨row, cut⟩ := a
  cases cut with
  | none =>
    simp only [writeAppend, appendRows, List.cons_ne_nil, if_false, List.mapM_cons, List.mapM_nil,
      he, repairTail_lines hj, writeRows, writeRow, Append.bytes, lineOf]
    rfl
  | some n =>
    simp only [writeAppend, repairTail_lines hj, writeRow, he, Append.bytes, lineOf]

theorem writtenRows_concat (serde : JobRowSerde) (as : List Append) (a : Append) :
    writtenRows serde (as ++ [a])
      = writtenRows serde as ++ if a.complete serde then [a.row] else [] := by
  unfold writtenRows
  rw [List.filter_append, List.map_append]
  cases hc : a.complete serde <;> simp [hc]

/-- What the write of an append leaves behind, and what a repair makes of it. -/
structure Recovers (serde : JobRowSerde) (hash : List UInt8 → Bytes32)
    (tails : Set (List UInt8)) (torn : Disk) (rows : List DaemonJobRow) : Prop where
  scans : Scans serde torn.journal rows
  repairs : ∃ after, repairTail serde hash torn = (.ok (), after) ∧
    after.journal = rows.flatMap (lineOf serde) ∧ after.Kept hash tails ∧
    (torn.journal <+: after.journal ∨ after.journal <+: torn.journal)

/-- A journal of complete lines is left as it is. -/
theorem recovers_lines {d : Disk} {ts : Set (List UInt8)}
    (hr : ∀ row ∈ rows, Printable serde row) (hk : d.Kept hash ts)
    (hj : d.journal = rows.flatMap (lineOf serde)) :
    Recovers serde hash ts d rows where
  scans := by
    rw [hj]
    exact scans_lines hr
  repairs := ⟨d, repairTail_lines hj, hj, hk, .inl (List.prefix_refl _)⟩

/-- **Every cut of an append is repaired**: the row is there exactly when its JSON was
completely written. -/
theorem recovers_append {d : Disk} {as : List Append} {a : Append}
    (hh : Set.InjOn hash (tornTails serde as)) (ha : a ∈ as)
    (hro : Printable serde a.row) (hr : ∀ row ∈ rows, Printable serde row)
    (hk : d.Kept hash (tornTails serde as))
    (hj : d.journal = rows.flatMap (lineOf serde)) :
    Recovers serde hash (tornTails serde as) { d with journal := d.journal ++ a.bytes serde }
      (rows ++ if a.complete serde then [a.row] else []) := by
  have hl : ∀ row ∈ rows ++ [a.row], Printable serde row := by
    intro row hm
    rcases List.mem_append.mp hm with hm | hm
    · exact hr row hm
    · rw [List.mem_singleton.mp hm]
      exact hro
  have hli : rows.flatMap (lineOf serde) ++ lineOf serde a.row
      = (rows ++ [a.row]).flatMap (lineOf serde) := by
    simp
  obtain ⟨row, cut⟩ := a
  cases cut with
  | none =>
    exact recovers_lines hl hk (by rw [hj]; exact hli)
  | some n =>
    rcases Nat.lt_trichotomy n (serde.print row).length with hn | rfl | hn
    · -- cut inside the JSON
      have hc : Append.complete serde ⟨row, some n⟩ = false := by
        simp only [Append.complete, decide_eq_false_iff_not]
        omega
      have hb : Append.bytes serde ⟨row, some n⟩ = (serde.print row).take n :=
        List.take_append_of_le_length (show n ≤ (serde.print row).length from hn.le)
      rw [hc, hb]
      simp only [Bool.false_eq_true, if_false, List.append_nil]
      rcases Nat.eq_zero_or_pos n with rfl | hp
      · rw [List.take_zero, List.append_nil]
        exact recovers_lines hr hk hj
      · refine ⟨?_, ?_⟩
        · rw [hj]
          exact scans_torn hr hro hp hn
        · have hcu : ({ d with journal := d.journal ++ (serde.print row).take n } : Disk).Kept
              hash (tornTails serde as) := hk
          obtain ⟨after, hre, haf, hk'⟩ := repairTail_torn hro hp hn hcu hh
            ⟨_, ha, n, rfl, rfl⟩ (by rw [hj])
          refine ⟨after, hre, haf, hk', .inr ?_⟩
          rw [haf, ← hj]
          exact List.prefix_append _ _
    · -- only the newline is missing
      have hc : Append.complete serde ⟨row, some (serde.print row).length⟩ = true := by
        simp [Append.complete]
      have hb : Append.bytes serde ⟨row, some (serde.print row).length⟩ = serde.print row :=
        List.take_left
      rw [hc, hb]
      refine ⟨?_, _, repairTail_complete hro (by rw [hj]), ?_, hk, .inl ?_⟩
      · rw [hj]
        exact scans_complete hr hro
      · rw [hj, List.append_assoc]
        exact hli
      · exact List.prefix_append _ _
    · have hc : Append.complete serde ⟨row, some n⟩ = true := by
        simp only [Append.complete, decide_eq_true_eq]
        omega
      have hle : (lineOf serde row).length ≤ n := by
        rw [lineOf, List.length_append, List.length_singleton]
        omega
      have hb : Append.bytes serde ⟨row, some n⟩ = lineOf serde row := List.take_of_length_le hle
      rw [hc, hb]
      exact recovers_lines hl hk (by rw [hj]; exact hli)

/-- A step ends with the repaired journal. -/
theorem stepAppend_recovers {d : Disk} {as : List Append} {a : Append}
    (hh : Set.InjOn hash (tornTails serde as)) (ha : a ∈ as)
    (hro : Printable serde a.row) (hrows : ∀ row ∈ rows, Printable serde row)
    (hk : d.Kept hash (tornTails serde as))
    (hj : d.journal = rows.flatMap (lineOf serde)) :
    (stepAppend serde hash d a).journal
        = (rows ++ if a.complete serde then [a.row] else []).flatMap (lineOf serde) ∧
      (stepAppend serde hash d a).Kept hash (tornTails serde as) := by
  have hw : writeAppend serde hash d a = _ := writeAppend_lines hro hj
  obtain ⟨-, after, hr, haf, hk', -⟩ := recovers_append hh ha hro hrows hk hj
  obtain ⟨row, cut⟩ := a
  cases cut with
  | none =>
    simp only [stepAppend, hw]
    refine ⟨?_, hk⟩
    rw [hj]
    simp [Append.bytes, Append.complete]
  | some n =>
    simp only [stepAppend, hw, hr]
    exact ⟨haf, hk'⟩

/-- After a run the journal holds the lines of the rows that were completely written. -/
theorem runAppends_journal {all : List Append} (hal : ∀ x ∈ all, Printable serde x.row)
    (hh : Set.InjOn hash (tornTails serde all)) (as : List Append) :
    (∀ x ∈ as, x ∈ all) → (runAppends serde hash as).journal
          = (writtenRows serde as).flatMap (lineOf serde) ∧
        (runAppends serde hash as).Kept hash (tornTails serde all) := by
  induction as using List.reverseRecOn with
  | nil =>
    intro _
    exact ⟨rfl, fun file hf => by cases hf⟩
  | append_singleton as a ih =>
    intro hm
    have hb : ∀ x ∈ as, x ∈ all := fun x hx => hm x (List.mem_append_left _ hx)
    have ha := hm a (List.mem_append_right _ (List.mem_singleton_self _))
    obtain ⟨hj, hk⟩ := ih hb
    have hr : ∀ row ∈ writtenRows serde as, Printable serde row := by
      intro row hro
      obtain ⟨x, hx, rfl⟩ := List.mem_map.mp hro
      exact hal _ (hb x (List.mem_filter.mp hx).1)
    rw [writtenRows_concat, runAppends, List.foldl_concat]
    exact stepAppend_recovers hh ha (hal a ha) hr hk hj

end

/-- Lawful printing of some rows is lawful printing of each. -/
theorem JobRowSerde.LawfulOn.single {serde : JobRowSerde} {rows : List DaemonJobRow}
    (h : serde.LawfulOn rows) {row : DaemonJobRow} (hro : row ∈ rows) : serde.LawfulOn [row] where
  noNewline r hr := h.noNewline r (List.mem_singleton.mp hr ▸ hro)
  opens r hr := h.opens r (List.mem_singleton.mp hr ▸ hro)
  roundTrip r hr := h.roundTrip r (List.mem_singleton.mp hr ▸ hro)
  roundTripLine r hr := h.roundTripLine r (List.mem_singleton.mp hr ▸ hro)
  torn r hr := h.torn r (List.mem_singleton.mp hr ▸ hro)

/-- **The journal survives torn writes.**  Appends of rows below the line limit are cut off
after any byte and repaired at the next start.  Before, between and after, a scan visits
exactly the rows whose JSON was completely written, in order; the repair succeeds, leaves
exactly their lines, and changes no byte of an earlier line. -/
theorem journal_survives_torn_writes (serde : JobRowSerde) (hash : List UInt8 → Bytes32)
    (appends : List Append) (a : Append)
    (hserde : serde.LawfulOn ((appends ++ [a]).map Append.row))
    (hbelow : ∀ x ∈ appends ++ [a], (serde.print x.row).length < maxRowBytes)
    (hhash : Set.InjOn hash (tornTails serde (appends ++ [a]))) :
    let before := runAppends serde hash appends
    let t := writeAppend serde hash before a
    let rows := writtenRows serde (appends ++ [a])
    before.journal = (writtenRows serde appends).flatMap (lineOf serde) ∧
      Scans serde before.journal (writtenRows serde appends) ∧
      writtenRows serde appends <+: rows ∧
      Scans serde t.journal rows ∧
      (∃ after, repairTail serde hash t = (.ok (), after) ∧
        after.journal = rows.flatMap (lineOf serde) ∧ Scans serde after.journal rows ∧
        before.journal <+: t.journal ∧ before.journal <+: after.journal ∧
        (t.journal <+: after.journal ∨ after.journal <+: t.journal)) ∧
      (runAppends serde hash (appends ++ [a])).journal = rows.flatMap (lineOf serde) := by
  intro before t rows
  have hal : ∀ x ∈ appends ++ [a], Printable serde x.row :=
    fun x hx => ⟨hserde.single (List.mem_map_of_mem hx), hbelow x hx⟩
  have hp : ∀ l, (∀ x ∈ l, x ∈ appends ++ [a]) →
      ∀ row ∈ writtenRows serde l, Printable serde row := by
    intro l hl row hro
    obtain ⟨x, hx, rfl⟩ := List.mem_map.mp hro
    exact hal x (hl x (List.mem_filter.mp hx).1)
  have hf : ∀ x ∈ appends, x ∈ appends ++ [a] := fun x hx => List.mem_append_left _ hx
  have ha : a ∈ appends ++ [a] := List.mem_append_right _ (List.mem_singleton_self _)
  obtain ⟨hj, hk⟩ := runAppends_journal hal hhash appends hf
  obtain ⟨hen, -⟩ := runAppends_journal hal hhash (appends ++ [a]) fun x hx => hx
  have ht : t = { before with journal := before.journal ++ a.bytes serde } :=
    writeAppend_lines (hal a ha) hj
  obtain ⟨hs, after, hr, haf, -, hc⟩ := recovers_append hhash ha (hal a ha) (hp appends hf) hk hj
  rw [← ht] at hs hr hc
  rw [← writtenRows_concat] at hs haf
  have he : writtenRows serde appends <+: rows := by
    rw [show rows = _ from writtenRows_concat serde appends a]
    exact List.prefix_append _ _
  refine ⟨hj, ?_, he, hs, ⟨after, hr, haf, ?_, ?_, ?_, hc⟩, hen⟩
  · rw [hj]
    exact scans_lines (hp appends hf)
  · rw [haf]
    exact scans_lines (hp _ fun x hx => hx)
  · rw [ht]
    exact List.prefix_append _ _
  · rw [haf, hj, writtenRows_concat, List.flatMap_append]
    exact List.prefix_append _ _

/-! ## A torn append -/

/-- A planned job. -/
def sampleRow : DaemonJobRow where
  schema := "ee.steward.daemon_job_row.v1"
  rowId := "row_1"
  runId := "run_1"
  daemonJobKey := "run_1:1:health_check"
  runnerJobId := "health_check"
  tick := 1
  jobType := "health_check"
  status := "running"
  outcome := none
  workspace := "/ws"
  writeOwnerId := "ee-daemon"
  reason := "daemon foreground tick 1 planned"
  startedAt := none
  completedAt := none
  recordedAt := "2026-01-01T00:00:00Z"
  durationMs := none
  itemsProcessed := none
  error := none
  dryRun := false
  durableMutation := false
  recoveredFromOrphan := false
  recoveryReason := none

/-- Its JSON. -/
def sampleText : List UInt8 :=
  asBytes ("\x7b\"schema\":\"ee.steward.daemon_job_row.v1\",\"rowId\":\"row_1\","
    ++ "\"runId\":\"run_1\",\"daemonJobKey\":\"run_1:1:health_check\","
    ++ "\"runnerJobId\":\"health_check\",\"tick\":1,\"jobType\":\"health_check\","
    ++ "\"status\":\"running\",\"outcome\":null,\"workspace\":\"/ws\","
    ++ "\"writeOwnerId\":\"ee-daemon\",\"reason\":\"daemon foreground tick 1 planned\","
    ++ "\"startedAt\":null,\"completedAt\":null,"
    ++ "\"recordedAt\":\"2026-01-01T00:00:00Z\",\"durationMs\":null,"
    ++ "\"itemsProcessed\":null,\"error\":null,\"dryRun\":false,"
    ++ "\"durableMutation\":false,\"recoveredFromOrphan\":false,"
    ++ "\"recoveryReason\":null\x7d")

/-- `serde_json` on the planned job, its line and the beginnings of its JSON. -/
def sampleSerde : JobRowSerde where
  print _ := sampleText
  fromSlice bytes :=
    if bytes = sampleText ∨ bytes = sampleText ++ [newline] then .ok sampleRow
    else if bytes <+: sampleText then .error ⟨true, "EOF while parsing an object"⟩
    else .error ⟨false, "expected value"⟩

/-- `blake3` on the first twenty bytes of the planned job. -/
def sampleHash (bytes : List UInt8) : Bytes32 :=
  if bytes = sampleText.take 20 then
    (decodeHex32 "94057bddb094133ff323cf868678a85ff0a6af1899eac3a1d8e501b41caca915").getD
      ⟨List.replicate 32 0, length_zeros⟩
  else ⟨List.replicate 32 0, length_zeros⟩

theorem sampleText_length : sampleText.length = 511 := by decide +kernel

theorem sampleSerde_print (row : DaemonJobRow) : sampleSerde.print row = sampleText := rfl

theorem sampleSerde_fromSlice (bytes : List UInt8) :
    sampleSerde.fromSlice bytes
      = if bytes = sampleText ∨ bytes = sampleText ++ [newline] then .ok sampleRow
        else if bytes <+: sampleText then .error ⟨true, "EOF while parsing an object"⟩
        else .error ⟨false, "expected value"⟩ := rfl

/-- The sample library reads back what it prints and knows the beginnings. -/
theorem sampleSerde_lawful : sampleSerde.LawfulOn [sampleRow, sampleRow] where
  noNewline _ _ := by
    rw [sampleSerde_print]
    decide +kernel
  opens _ _ := by
    rw [sampleSerde_print]
    decide +kernel
  roundTrip row hrow := by
    obtain rfl : row = sampleRow := by simpa using hrow
    rw [sampleSerde_print, sampleSerde_fromSlice, if_pos (.inl rfl)]
  roundTripLine row hrow := by
    obtain rfl : row = sampleRow := by simpa using hrow
    rw [sampleSerde_print, sampleSerde_fromSlice, if_pos (.inr rfl)]
  torn row _ n _ hn := by
    rw [sampleSerde_print] at hn ⊢
    have hs : (sampleText.take n).length < sampleText.length := by
      rw [List.length_take]
      exact lt_of_le_of_lt (min_le_left _ _) hn
    have hr : ¬ (sampleText.take n = sampleText ∨ sampleText.take n = sampleText ++ [newline]) := by
      rintro (h | h)
      · exact hs.ne (congrArg List.length h)
      · rw [h, List.length_append] at hs
        omega
    refine ⟨⟨true, "EOF while parsing an object"⟩, ?_, rfl⟩
    rw [sampleSerde_fromSlice, if_neg hr, if_pos (List.take_prefix n sampleText)]

/-- A row is written, and the next one is cut off after twenty bytes: the repaired journal
holds the first, and a scan visits it. -/
theorem journal_survives_torn_writes_twenty :
    (runAppends sampleSerde sampleHash [⟨sampleRow, none⟩, ⟨sampleRow, some 20⟩]).journal
        = sampleText ++ [newline] ∧
      Scans sampleSerde
        (runAppends sampleSerde sampleHash [⟨sampleRow, none⟩, ⟨sampleRow, some 20⟩]).journal
        [sampleRow] := by
  have hb : ∀ x ∈ ([⟨sampleRow, none⟩] ++ [⟨sampleRow, some 20⟩] : List Append),
      (sampleSerde.print x.row).length < maxRowBytes := by
    intro x _
    rw [sampleSerde_print, sampleText_length]
    decide
  have hh : Set.InjOn sampleHash
      (tornTails sampleSerde ([⟨sampleRow, none⟩] ++ [⟨sampleRow, some 20⟩])) := by
    have ho : ∀ tail ∈ tornTails sampleSerde ([⟨sampleRow, none⟩] ++ [⟨sampleRow, some 20⟩]),
        tail = sampleText.take 20 := by
      rintro tail ⟨a, ha, n, hn, rfl⟩
      rcases List.mem_pair.mp ha with rfl | rfl
      · cases hn
      · cases hn
        rfl
    intro x hx y hy _
    rw [ho x hx, ho y hy]
  have hr : writtenRows sampleSerde ([⟨sampleRow, none⟩] ++ [⟨sampleRow, some 20⟩])
      = [sampleRow] := by
    have hw : Append.complete sampleSerde ⟨sampleRow, none⟩ = true := rfl
    have hc : Append.complete sampleSerde ⟨sampleRow, some 20⟩ = false := by
      simp only [Append.complete, sampleSerde_print, sampleText_length]
      decide
    rw [writtenRows, List.filter_append, List.filter_singleton, List.filter_singleton, hw, hc]
    rfl
  obtain ⟨-, -, -, -, ⟨after, -, haf, hs, -⟩, he⟩ :=
    journal_survives_torn_writes sampleSerde sampleHash [⟨sampleRow, none⟩] ⟨sampleRow, some 20⟩
      sampleSerde_lawful hb hh
  rw [hr, List.flatMap_singleton, lineOf, sampleSerde_print] at haf he
  rw [hr, haf] at hs
  rw [List.cons_append, List.nil_append] at he
  rw [he]
  exact ⟨rfl, hs⟩

end JobJournal
