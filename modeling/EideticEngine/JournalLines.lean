/-
# The lines of a journal

A journal on which a scan succeeds is a list of complete lines, each blank or a row, and a tail
without a newline: blank, a row that misses its newline, or a row that was cut inside its JSON.
The repair of the tail leaves complete lines only, with the rows and the offsets that the scan
has visited, and a row is read again at its offset whatever is appended later.
-/
import EideticEngine.JobJournal

namespace JobJournal

open Hex

/-! ## Complete lines and the tail -/

/-- The row of a line, if the line is not blank. -/
def lineRow? (serde : JobRowSerde) (line : List UInt8) : Option DaemonJobRow :=
  if line.all isAsciiWhitespace then none else (serde.fromSlice line).toOption

/-- A complete line that a scan accepts. -/
structure GoodLine (serde : JobRowSerde) (line : List UInt8) : Prop where
  ends : ∃ text, line = text ++ [newline] ∧ newline ∉ text
  below : line.length ≤ maxRowBytes
  readable : line.all isAsciiWhitespace = true ∨ ∃ row, serde.fromSlice line = .ok row

/-- The rows of some lines with the offsets of their lines. -/
def placedRows (serde : JobRowSerde) : ℕ → List (List UInt8) → List (DaemonJobRow × ℕ)
  | _, [] => []
  | offset, line :: lines =>
    (lineRow? serde line).toList.map (·, offset) ++ placedRows serde (offset + line.length) lines

/-- A tail that a scan accepts: blank, a row, or a row that was cut off. -/
structure GoodTail (serde : JobRowSerde) (tail : List UInt8) : Prop where
  noNewline : newline ∉ tail
  below : tail.length ≤ maxRowBytes
  readable : tail.all isAsciiWhitespace = true ∨ (∃ row, serde.fromSlice tail = .ok row)
    ∨ ∃ e, serde.fromSlice tail = .error e ∧ tornJson serde tail e = true

/-- What the repair of the tail makes of the lines: it completes a tail that can be read. -/
def repairedLines (serde : JobRowSerde) (lines : List (List UInt8)) (tail : List UInt8) :
    List (List UInt8) :=
  if tail = [] then lines
  else if tail.all isAsciiWhitespace ∨ (serde.fromSlice tail).toOption.isSome then
    lines ++ [tail ++ [newline]]
  else lines

variable {serde : JobRowSerde}

theorem GoodLine.ne_nil {l : List UInt8} (h : GoodLine serde l) : l ≠ [] := by
  obtain ⟨text, rfl, -⟩ := h.ends
  exact List.append_ne_nil_of_right_ne_nil _ (List.cons_ne_nil _ _)

theorem GoodLine.readLine {l : List UInt8} (h : GoodLine serde l) (r : List UInt8) :
    readLine (l ++ r) = .ok (l, r) := by
  obtain ⟨text, rfl, hno⟩ := h.ends
  have hl := h.below
  rw [List.length_append, List.length_singleton] at hl
  rw [List.append_assoc]
  exact readLine_line hno (by omega) r

/-- The last line, without a newline, up to the limit. -/
theorem GoodTail.readLine {tail : List UInt8} (h : GoodTail serde tail) :
    readLine tail = .ok (tail, []) := by
  have hl := h.below
  unfold JobJournal.readLine
  simp only [List.take_of_length_le (show tail.length ≤ maxRowBytes + 1 from by omega),
    readUntilNewline_of_notMem h.noNewline]
  rw [if_neg (by omega), List.drop_length]

/-- A line that is not blank has its row. -/
theorem lineRow?_of_ok {l : List UInt8} {row : DaemonJobRow}
    (hb : l.all isAsciiWhitespace = false) (h : serde.fromSlice l = .ok row) :
    lineRow? serde l = some row := by
  rw [lineRow?, hb, h]
  rfl

theorem lineRow?_of_blank {l : List UInt8} (hb : l.all isAsciiWhitespace = true) :
    lineRow? serde l = none := by
  rw [lineRow?, hb]
  rfl

/-! ## Scanning lines -/

section

variable {σ : Type} {path : String} {size : ℕ} {f : σ → DaemonJobRow → ℕ → Except String σ}

/-- One complete line. -/
theorem scanLines_goodLine {l : List UInt8} (h : GoodLine serde l) (fuel : ℕ)
    (r : List UInt8) (of lineNo ro : ℕ) (visit : σ) :
    scanLines serde path size (fun s row o _ => f s row o)
      (fuel + 1) ⟨l ++ r, of, lineNo, ro, visit⟩
      = (((lineRow? serde l).toList.map (·, of)).foldlM (fun s v => f s v.1 v.2) visit
        >>= fun v' => scanLines serde path size (fun s row o _ => f s row o) fuel
          ⟨r, of + l.length, lineNo + 1, ro + (lineRow? serde l).toList.length, v'⟩) := by
  rw [scanLines]
  simp only [h.readLine r, if_neg h.ne_nil]
  cases hb : l.all isAsciiWhitespace with
  | true =>
    rw [lineRow?_of_blank hb]
    rfl
  | false =>
    obtain ⟨row, hr⟩ := h.readable.resolve_left (by rw [hb]; decide)
    rw [lineRow?_of_ok hb hr]
    simp only [Bool.false_eq_true, if_false, hr]
    rw [Option.toList_some, List.map_singleton, List.foldlM_cons]
    cases f visit row of with
    | error e => rfl
    | ok v' => rfl

/-- Complete lines: the scan visits their rows and goes on behind them. -/
theorem scanLines_goodLines (lines : List (List UInt8)) : (∀ l ∈ lines, GoodLine serde l) →
    ∀ (fuel : ℕ) (r : List UInt8) (of lineNo count : ℕ) (visit : σ),
      scanLines serde path size (fun s row o _ => f s row o) (lines.length + fuel)
          ⟨lines.flatten ++ r, of, lineNo, count, visit⟩
        = ((placedRows serde of lines).foldlM (fun s v => f s v.1 v.2) visit
          >>= fun v' => scanLines serde path size (fun s row o _ => f s row o) fuel
            ⟨r, of + lines.flatten.length, lineNo + lines.length,
              count + (placedRows serde of lines).length, v'⟩) := by
  induction lines with
  | nil =>
    intro _ fuel r of lineNo count visit
    rw [List.length_nil, Nat.zero_add]
    rfl
  | cons l lines ih =>
    intro hl fuel r of lineNo count visit
    obtain ⟨hli, hr⟩ := List.forall_mem_cons.mp hl
    rw [List.flatten_cons, List.append_assoc, List.length_cons,
      show lines.length + 1 + fuel = (lines.length + fuel) + 1 from by omega,
      scanLines_goodLine hli, placedRows, List.foldlM_append, bind_assoc]
    congr 1
    funext v'
    rw [ih hr]
    simp only [List.length_append, List.length_map, Nat.add_assoc, Nat.add_comm 1]

/-- The tail: a row that misses its newline is visited, a blank tail and a torn one are not. -/
theorem scanLines_goodTail {tail : List UInt8} (h : GoodTail serde tail)
    (fuel of lineNo count : ℕ) (visit : σ) (hs : of + tail.length = size) :
    scanLines serde path size (fun s row o _ => f s row o)
      (fuel + 1) ⟨tail, of, lineNo, count, visit⟩
      = (((lineRow? serde tail).toList.map (·, of)).foldlM (fun s v => f s v.1 v.2) visit).map
          fun s => (s, count + (lineRow? serde tail).toList.length) := by
  by_cases hn : tail = []
  · subst hn
    exact scanLines_nil _ _ _ _ _
  · rw [scanLines]
    simp only [h.readLine, if_neg hn]
    cases hb : tail.all isAsciiWhitespace with
    | true =>
      rw [lineRow?_of_blank hb]
      exact scanLines_nil _ _ _ _ _
    | false =>
      simp only [Bool.false_eq_true, if_false]
      rcases h.readable.resolve_left (by rw [hb]; decide) with ⟨row, hr⟩ | ⟨e, he, ht⟩
      · rw [lineRow?_of_ok hb hr, Option.toList_some, List.map_singleton, List.foldlM_cons]
        simp only [hr]
        cases f visit row of with
        | error e => rfl
        | ok v' => exact scanLines_nil _ _ _ _ _
      · have hl : tail.getLast? ≠ some newline := fun hl => h.noNewline (List.mem_of_getLast? hl)
        have hno : lineRow? serde tail = none := by
          rw [lineRow?, hb, he]
          rfl
        simp only [he]
        rw [if_pos ⟨hs, hl, ht⟩, hno]
        rfl

end

/-! ## What a successful scan says about a journal -/

/-- Reading up to a newline ends behind the first one, or reads everything. -/
theorem readUntilNewline_cases (inp : List UInt8) :
    (∃ text r, inp = text ++ newline :: r ∧ newline ∉ text
        ∧ readUntilNewline inp = text ++ [newline])
      ∨ newline ∉ inp ∧ readUntilNewline inp = inp := by
  by_cases hm : newline ∈ inp
  · obtain ⟨text, r, hs, hno⟩ := List.eq_append_cons_of_mem hm
    refine Or.inl ⟨text, r, hs, hno, ?_⟩
    rw [hs]
    exact readUntilNewline_line hno r
  · exact Or.inr ⟨hm, readUntilNewline_of_notMem hm⟩

/-- A line that was read is complete, or it is the rest of the input. -/
theorem readLine_cases {inp l r : List UInt8} (h : readLine inp = .ok (l, r)) :
    inp = l ++ r ∧ l.length ≤ maxRowBytes
      ∧ ((∃ text, l = text ++ [newline] ∧ newline ∉ text) ∨ newline ∉ l ∧ r = []) := by
  unfold readLine at h
  dsimp only at h
  split at h
  · cases h
  · rename_i hl
    rw [Except.ok.injEq, Prod.mk.injEq] at h
    obtain ⟨rfl, rfl⟩ := h
    rcases readUntilNewline_cases (inp.take (maxRowBytes + 1)) with
      ⟨text, m, hs, hno, hr⟩ | ⟨hno, hr⟩
    · have hi : inp = (text ++ [newline]) ++ (m ++ inp.drop (maxRowBytes + 1)) := by
        calc inp = inp.take (maxRowBytes + 1) ++ inp.drop (maxRowBytes + 1) :=
              (List.take_append_drop _ _).symm
          _ = (text ++ [newline]) ++ (m ++ inp.drop (maxRowBytes + 1)) := by
              rw [hs]
              simp
      have hd : inp.drop (text ++ [newline]).length = m ++ inp.drop (maxRowBytes + 1) := by
        conv_lhs => rw [hi]
        exact List.drop_left
      rw [hr] at hl ⊢
      rw [hd]
      exact ⟨hi, by omega, Or.inl ⟨text, rfl, hno⟩⟩
    · -- a line below the limit that has no newline is the whole input
      rw [hr] at hl ⊢
      rw [List.length_take] at hl
      have ha : inp.take (maxRowBytes + 1) = inp := List.take_of_length_le (by omega)
      rw [ha] at hno ⊢
      rw [List.drop_length, List.append_nil]
      exact ⟨rfl, by omega, Or.inr ⟨hno, rfl⟩⟩

/-- **A journal on which a scan succeeds** is complete lines and a tail. -/
theorem scanLines_ok {σ : Type} {path : String} {size : ℕ}
    {visit : σ → DaemonJobRow → ℕ → ℕ → Except String σ} (fuel : ℕ) (s : Scanner σ) {r : σ × ℕ}
    (hf : s.input.length < fuel) (hsi : s.offset + s.input.length = size)
    (h : scanLines serde path size visit fuel s = .ok r) :
    ∃ (lines : List (List UInt8)) (tail : List UInt8), s.input = lines.flatten ++ tail
      ∧ (∀ l ∈ lines, GoodLine serde l) ∧ GoodTail serde tail := by
  induction fuel generalizing s with
  | zero => omega
  | succ fuel ih =>
    rw [scanLines] at h
    cases hre : readLine s.input with
    | error e =>
      rw [hre] at h
      cases h
    | ok got =>
      obtain ⟨l, re⟩ := got
      obtain ⟨hi, hb, hk⟩ := readLine_cases hre
      simp only [hre] at h
      have hle : s.input.length = l.length + re.length := by
        rw [hi, List.length_append]
      by_cases hn : l = []
      · -- the end of the file
        subst hn
        rcases hk with ⟨text, hte, -⟩ | ⟨hno, rfl⟩
        · exact absurd hte.symm (List.append_ne_nil_of_right_ne_nil _ (List.cons_ne_nil _ _))
        · exact ⟨[], [], hi, List.forall_mem_nil _, hno, Nat.zero_le _, Or.inl rfl⟩
      · rw [if_neg hn] at h
        have hpo := List.length_pos_iff.mpr hn
        -- a line that the scan passes is complete, or it is the tail
        have hp : ∀ (s' : Scanner σ), s'.input = re → s'.offset + re.length = size →
            scanLines serde path size visit fuel s' = .ok r →
            (l.all isAsciiWhitespace = true ∨ ∃ row, serde.fromSlice l = .ok row) →
            ∃ (lines : List (List UInt8)) (tail : List UInt8), s.input = lines.flatten ++ tail
              ∧ (∀ l ∈ lines, GoodLine serde l) ∧ GoodTail serde tail := by
          intro s' hs' ho hsc hr
          rcases hk with he | ⟨hno, rfl⟩
          · obtain ⟨lines, tail, hres, hl, hta⟩ :=
              ih s' (by rw [hs']; omega) (by rw [hs']; exact ho) hsc
            refine ⟨l :: lines, tail, ?_, ?_, hta⟩
            · rw [hi, ← hs', hres, List.flatten_cons, List.append_assoc]
            · exact List.forall_mem_cons.mpr ⟨⟨he, hb, hr⟩, hl⟩
          · rw [List.append_nil] at hi
            refine ⟨[], l, hi, List.forall_mem_nil _, hno, hb, ?_⟩
            exact hr.imp_right Or.inl
        cases hbl : l.all isAsciiWhitespace with
        | true =>
          rw [hbl, if_pos rfl] at h
          exact hp _ rfl (by dsimp only; omega) h (Or.inl hbl)
        | false =>
          rw [hbl, if_neg (by decide)] at h
          cases hs : serde.fromSlice l with
          | ok row =>
            rw [hs] at h
            dsimp only at h
            cases hv : visit s.visitor row s.offset l.length with
            | error e =>
              rw [hv] at h
              cases h
            | ok v =>
              rw [hv] at h
              exact hp _ rfl (by dsimp only; omega) h (Or.inr ⟨row, hs⟩)
          | error e =>
            rw [hs] at h
            dsimp only at h
            split at h
            · rename_i ht
              obtain ⟨hen, hla, ht⟩ := ht
              have hres : re = [] := List.length_eq_zero_iff.mp (by omega)
              subst hres
              rw [List.append_nil] at hi
              refine ⟨[], l, hi, List.forall_mem_nil _, ?_, hb, Or.inr (Or.inr ⟨e, hs, ht⟩)⟩
              rcases hk with ⟨text, rfl, -⟩ | ⟨hno, -⟩
              · exact absurd List.getLast?_concat hla
              · exact hno
            · cases h

/-! ## The rows and their places -/

theorem placedRows_append (serde : JobRowSerde) (fr b : List (List UInt8)) (start : ℕ) :
    placedRows serde start (fr ++ b)
      = placedRows serde start fr ++ placedRows serde (start + fr.flatten.length) b := by
  induction fr generalizing start with
  | nil => rfl
  | cons l fr ih =>
    rw [List.cons_append, placedRows, placedRows, ih, List.append_assoc, List.flatten_cons,
      List.length_append, Nat.add_assoc]

/-- A placed row is the row of a line, and its offset is where the line starts. -/
theorem exists_of_mem_placedRows {lines : List (List UInt8)} {start : ℕ} {row : DaemonJobRow}
    {o : ℕ} (h : (row, o) ∈ placedRows serde start lines) :
    ∃ fr : List (List UInt8), ∃ l b, lines = fr ++ l :: b ∧ lineRow? serde l = some row
      ∧ o = start + fr.flatten.length := by
  induction lines generalizing start with
  | nil => cases h
  | cons l lines ih =>
    rw [placedRows, List.mem_append] at h
    rcases h with h | h
    · obtain ⟨r', hr, heq⟩ := List.mem_map.mp h
      rw [Prod.mk.injEq] at heq
      obtain ⟨rfl, rfl⟩ := heq
      exact ⟨[], l, lines, rfl, Option.mem_toList.mp hr, rfl⟩
    · obtain ⟨fr, l', b, rfl, hr, ho⟩ := ih h
      refine ⟨l :: fr, l', b, rfl, hr, ?_⟩
      rw [ho, List.flatten_cons, List.length_append]
      omega

theorem placedRows_lt {lines : List (List UInt8)} (hl : ∀ l ∈ lines, GoodLine serde l)
    {start : ℕ} {v : DaemonJobRow × ℕ} (h : v ∈ placedRows serde start lines) :
    start ≤ v.2 ∧ v.2 < start + lines.flatten.length := by
  obtain ⟨fr, l, b, rfl, -, ho⟩ := exists_of_mem_placedRows h
  have hp := List.length_pos_iff.mpr (hl l (by simp)).ne_nil
  rw [ho, List.flatten_append, List.flatten_cons, List.length_append, List.length_append]
  omega

/-- Later rows have greater offsets. -/
theorem placedRows_pairwise {lines : List (List UInt8)}
    (hl : ∀ l ∈ lines, GoodLine serde l) (start : ℕ) :
    (placedRows serde start lines).Pairwise fun a b => a.2 < b.2 := by
  induction lines generalizing start with
  | nil => exact List.Pairwise.nil
  | cons l lines ih =>
    obtain ⟨hli, hr⟩ := List.forall_mem_cons.mp hl
    have hp := List.length_pos_iff.mpr hli.ne_nil
    rw [placedRows]
    refine List.pairwise_append.mpr ⟨?_, ih hr _, ?_⟩
    · cases lineRow? serde l with
      | none => exact List.Pairwise.nil
      | some row => exact List.pairwise_singleton _ _
    · intro a ha b hb
      obtain ⟨row, -, rfl⟩ := List.mem_map.mp ha
      have hb' := (placedRows_lt hr hb).1
      dsimp only
      omega

/-- `row_at`. -/
def rowAt (serde : JobRowSerde) (path : String) (journal : List UInt8) (offset : ℕ) :
    Except String DaemonJobRow :=
  match readLine (journal.drop offset) with
  | .error e => .error e
  | .ok (bytes, _) =>
    match serde.fromSlice bytes with
    | .ok row => .ok row
    | .error e =>
      .error ("Read indexed daemon row in " ++ path ++ " at " ++ toString offset ++ ": " ++ e.text)

theorem fromSlice_of_lineRow? {l : List UInt8} {row : DaemonJobRow}
    (h : lineRow? serde l = some row) : serde.fromSlice l = .ok row := by
  rw [lineRow?] at h
  split at h
  · cases h
  · cases hs : serde.fromSlice l with
    | error e =>
      rw [hs] at h
      cases h
    | ok r' =>
      rw [hs] at h
      cases h
      rfl

/-- **A placed row is read at its offset**, whatever follows the lines. -/
theorem rowAt_placedRows {lines : List (List UInt8)} (hl : ∀ l ∈ lines, GoodLine serde l)
    {row : DaemonJobRow} {o : ℕ} (h : (row, o) ∈ placedRows serde 0 lines) (path : String)
    (m : List UInt8) : rowAt serde path (lines.flatten ++ m) o = .ok row := by
  obtain ⟨fr, l, b, rfl, hr, ho⟩ := exists_of_mem_placedRows h
  have hli : GoodLine serde l := hl l (by simp)
  have hd : ((fr ++ l :: b).flatten ++ m).drop o = l ++ (b.flatten ++ m) := by
    rw [ho, Nat.zero_add, List.flatten_append, List.append_assoc, List.drop_left,
      List.flatten_cons, List.append_assoc]
  unfold rowAt
  rw [hd]
  simp only [hli.readLine, fromSlice_of_lineRow? hr]

/-! ## Scans and repairs of whole journals -/

section

variable {lines : List (List UInt8)} {tail : List UInt8}

theorem length_le_flatten (hl : ∀ l ∈ lines, GoodLine serde l) :
    lines.length ≤ lines.flatten.length := by
  induction lines with
  | nil => exact Nat.zero_le _
  | cons l lines ih =>
    obtain ⟨hli, hr⟩ := List.forall_mem_cons.mp hl
    have hp := List.length_pos_iff.mpr hli.ne_nil
    have hle := ih hr
    rw [List.flatten_cons, List.length_append, List.length_cons]
    omega

/-- **What a scan of lines and a tail visits.** -/
theorem scan_goodTail (hl : ∀ l ∈ lines, GoodLine serde l) (ht : GoodTail serde tail)
    {σ : Type} (path : String) (f : σ → DaemonJobRow → ℕ → Except String σ) (visit : σ) :
    scan serde path (fun s row o _ => f s row o) (lines.flatten ++ tail) visit
      = ((placedRows serde 0 lines
          ++ (lineRow? serde tail).toList.map (·, lines.flatten.length)).foldlM
            (fun s v => f s v.1 v.2) visit).map
        fun s => (s, (placedRows serde 0 lines
          ++ (lineRow? serde tail).toList.map (·, lines.flatten.length)).length) := by
  have hle := length_le_flatten hl
  obtain ⟨fuel, hf⟩ : ∃ fuel, (lines.flatten ++ tail).length + 1 = lines.length + (fuel + 1) := by
    refine ⟨(lines.flatten ++ tail).length - lines.length, ?_⟩
    rw [List.length_append]
    omega
  unfold scan
  rw [hf, scanLines_goodLines lines hl, List.foldlM_append]
  cases (placedRows serde 0 lines).foldlM (fun s v => f s v.1 v.2) visit with
  | error e => rfl
  | ok v' =>
    rw [Except.ok_then, Except.ok_then, Nat.zero_add, scanLines_goodTail ht]
    · rw [Nat.zero_add, List.length_append, List.length_map]
    · rw [List.length_append]

/-- A journal of complete lines ends with a newline, or it is empty. -/
theorem getLast?_goodLines (hl : ∀ li ∈ lines, GoodLine serde li) :
    lines.flatten = [] ∨ lines.flatten.getLast? = some newline := by
  rcases List.eq_nil_or_concat lines with rfl | ⟨fr, l, rfl⟩
  · exact Or.inl rfl
  · right
    obtain ⟨text, ht, -⟩ := (hl l (by simp)).ends
    rw [List.concat_eq_append, List.flatten_append, List.flatten_singleton, ht,
      ← List.append_assoc, List.getLast?_concat]

variable {hash : List UInt8 → Bytes32} {disk repaired : Disk}

/-- A journal of complete lines needs no repair. -/
theorem repairTail_goodLines (hl : ∀ l ∈ lines, GoodLine serde l)
    (hj : disk.journal = lines.flatten) : repairTail serde hash disk = (.ok (), disk) := by
  unfold repairTail
  dsimp only
  split
  · rfl
  · rename_i hs
    rcases getLast?_goodLines hl with hn | hla
    · rw [hj, hn] at hs
      exact absurd rfl hs
    · rw [if_pos (by rw [hj]; exact hla)]

/-- **A repair that succeeds** completes the tail or removes it. -/
theorem repairTail_goodTail (hlin : ∀ l ∈ lines, GoodLine serde l)
    (ht : GoodTail serde tail) (hj : disk.journal = lines.flatten ++ tail)
    (h : repairTail serde hash disk = (.ok (), repaired)) :
    tail.length < maxRowBytes ∧ repaired.journal = (repairedLines serde lines tail).flatten := by
  by_cases hn : tail = []
  · subst hn
    rw [List.append_nil] at hj
    rw [repairTail_goodLines hlin hj] at h
    cases h
    refine ⟨by decide, ?_⟩
    rw [repairedLines, if_pos rfl, hj]
  · obtain ⟨hli, hw, hst⟩ := tail_of_window (getLast?_goodLines hlin) ht.noNewline ht.below
    rw [← hj] at hli hw hst
    have hsi : disk.journal.length ≠ 0 := by
      have hpo := List.length_pos_iff.mpr hn
      rw [hj, List.length_append]
      omega
    have hl : disk.journal.getLast? ≠ some newline := by
      rw [hj, List.getLast?_append_of_ne_nil _ hn]
      exact fun hl => ht.noNewline (List.mem_of_getLast? hl)
    unfold repairTail at h
    dsimp only at h
    rw [if_neg hsi, if_neg hl, if_neg hli, hw, hst] at h
    by_cases hb : maxRowBytes ≤ tail.length
    · rw [if_pos hb] at h
      cases h
    · refine ⟨Nat.lt_of_not_le hb, ?_⟩
      rw [if_neg hb] at h
      have hc : disk.journal ++ [newline] = (lines ++ [tail ++ [newline]]).flatten := by
        rw [hj, List.flatten_append, List.flatten_singleton, List.append_assoc]
      rw [repairedLines, if_neg hn]
      cases hbl : tail.all isAsciiWhitespace with
      | true =>
        rw [if_pos hbl] at h
        cases h
        rw [if_pos (Or.inl rfl)]
        exact hc
      | false =>
        rw [hbl, if_neg (by decide)] at h
        cases hsl : serde.fromSlice tail with
        | ok row =>
          rw [hsl] at h
          cases h
          have hso : (Except.ok row : Except SerdeError DaemonJobRow).toOption.isSome = true := rfl
          rw [if_pos (Or.inr hso)]
          exact hc
        | error e =>
          rw [hsl] at h
          dsimp only at h
          rw [if_neg (by rintro (hf | hf) <;> cases hf)]
          split at h
          · cases h
          · have hs := journal_preserveTail hash disk tail
            rcases hp : preserveTail hash disk tail with ⟨e | ⟨⟩, d'⟩
            · rw [hp] at h
              cases h
            · rw [hp] at h hs
              cases h
              dsimp only at hs ⊢
              rw [hs, hj, List.take_left]

theorem exists_ok_of_isSome {bytes : List UInt8}
    (h : (serde.fromSlice bytes).toOption.isSome = true) :
    ∃ row, serde.fromSlice bytes = .ok row := by
  cases hs : serde.fromSlice bytes with
  | error e =>
    rw [hs] at h
    cases h
  | ok row => exact ⟨row, rfl⟩

/-- A parser that skips a newline behind what it reads. -/
def JobRowSerde.SkipsNewline (serde : JobRowSerde) : Prop :=
  ∀ bytes row, serde.fromSlice bytes = .ok row → serde.fromSlice (bytes ++ [newline]) = .ok row

/-- The completed tail is a line like the others. -/
theorem goodLine_completed (hs : serde.SkipsNewline) (ht : GoodTail serde tail)
    (hbe : tail.length < maxRowBytes)
    (hr : tail.all isAsciiWhitespace = true ∨ ∃ row, serde.fromSlice tail = .ok row) :
    GoodLine serde (tail ++ [newline]) := by
  refine ⟨⟨tail, rfl, ht.noNewline⟩, ?_, ?_⟩
  · rw [List.length_append, List.length_singleton]
    omega
  · rcases hr with hb | ⟨row, hro⟩
    · left
      rw [List.all_append, hb]
      decide
    · exact Or.inr ⟨row, hs tail row hro⟩

/-- Repaired lines are good. -/
theorem goodLine_repairedLines (hs : serde.SkipsNewline)
    (hli : ∀ l ∈ lines, GoodLine serde l) (ht : GoodTail serde tail)
    (hb : tail.length < maxRowBytes) :
    ∀ l ∈ repairedLines serde lines tail, GoodLine serde l := by
  unfold repairedLines
  split
  · exact hli
  · split
    · rename_i hr
      intro l hl
      rcases List.mem_append.mp hl with hl | hl
      · exact hli l hl
      · rw [List.mem_singleton] at hl
        subst hl
        exact goodLine_completed hs ht hb (hr.imp_right exists_ok_of_isSome)
    · exact hli

/-- A newline behind a tail does not change its row. -/
theorem lineRow?_completed (hs : serde.SkipsNewline)
    (hre : tail.all isAsciiWhitespace = true ∨ ∃ row, serde.fromSlice tail = .ok row) :
    lineRow? serde (tail ++ [newline]) = lineRow? serde tail := by
  have ha : (tail ++ [newline]).all isAsciiWhitespace = tail.all isAsciiWhitespace := by
    rw [List.all_append, show [newline].all isAsciiWhitespace = true from by decide, Bool.and_true]
  rw [lineRow?, lineRow?, ha]
  rcases hre with hb | ⟨row, hr⟩
  · rw [if_pos hb, if_pos hb]
  · rw [hr, hs tail row hr]

/-- **The repair keeps the rows and their places.** -/
theorem placedRows_repairedLines (hs : serde.SkipsNewline) :
    placedRows serde 0 (repairedLines serde lines tail)
      = placedRows serde 0 lines ++ (lineRow? serde tail).toList.map (·, lines.flatten.length) := by
  unfold repairedLines
  split
  · rename_i hni
    subst hni
    rw [lineRow?_of_blank rfl, Option.toList_none, List.map_nil, List.append_nil]
  · split
    · rename_i hr
      rw [placedRows_append, placedRows, placedRows, List.append_nil, Nat.zero_add,
        lineRow?_completed hs (hr.imp_right exists_ok_of_isSome)]
    · rename_i hr
      rw [not_or] at hr
      have hn : lineRow? serde tail = none := by
        rw [lineRow?, if_neg hr.1]
        exact Option.not_isSome_iff_eq_none.mp hr.2
      rw [hn, Option.toList_none, List.map_nil, List.append_nil]

/-- **A journal that was scanned and repaired**: complete lines, with the rows that the scan
visited at their places. -/
theorem scan_repairTail (hsk : serde.SkipsNewline) {σ : Type} {path : String}
    {visit : σ → DaemonJobRow → ℕ → ℕ → Except String σ} {vi : σ} {r : σ × ℕ}
    (hs : scan serde path visit disk.journal vi = .ok r)
    (hre : repairTail serde hash disk = (.ok (), repaired)) :
    ∃ lines : List (List UInt8), (∀ l ∈ lines, GoodLine serde l) ∧ repaired.journal = lines.flatten
      ∧ ∀ (τ : Type) (path : String) (f : τ → DaemonJobRow → ℕ → Except String τ) (vi : τ),
        scan serde path (fun s row o _ => f s row o) disk.journal vi
          = ((placedRows serde 0 lines).foldlM (fun s v => f s v.1 v.2) vi).map
            fun s => (s, (placedRows serde 0 lines).length) := by
  unfold scan at hs
  obtain ⟨lines, tail, hj, hl, ht⟩ := scanLines_ok _ _ (Nat.lt_succ_self _) (Nat.zero_add _) hs
  dsimp only at hj
  obtain ⟨hb, hr⟩ := repairTail_goodTail hl ht hj hre
  refine ⟨repairedLines serde lines tail, goodLine_repairedLines hsk hl ht hb, hr, ?_⟩
  intro τ path f vi
  rw [placedRows_repairedLines hsk, hj]
  exact scan_goodTail hl ht path f vi

/-- A scan of complete lines. -/
theorem scan_goodLines (hl : ∀ l ∈ lines, GoodLine serde l) {σ : Type} (path : String)
    (f : σ → DaemonJobRow → ℕ → Except String σ) (visit : σ) :
    scan serde path (fun s row o _ => f s row o) lines.flatten visit
      = ((placedRows serde 0 lines).foldlM (fun s v => f s v.1 v.2) visit).map
        fun s => (s, (placedRows serde 0 lines).length) := by
  have he : GoodTail serde [] := ⟨List.not_mem_nil, Nat.zero_le _, Or.inl rfl⟩
  have hs := scan_goodTail hl he path f visit
  rwa [List.append_nil, lineRow?_of_blank rfl, Option.toList_none, List.map_nil,
    List.append_nil] at hs

end

end JobJournal
