/-
# Evidence segmentation

`segment_spans` of `src/core/ask.rs` cuts a stored text into byte ranges: a fenced code
block is one range, and prose is cut at blank lines, list markers and sentence ends outside
inline code.  Four scanners over the bytes hand positions to each other, and every range is
a slice of the text.

A result `none` stands for a panic (a slice off a character boundary, an index outside the
text) or a loop that does not end; `segmentSpans_blocks` excludes both.
-/
import EideticEngine.Utf8Slice
import EideticEngine.OrderedMap

namespace Ask

open RustText (asBytes trim)
open Utf8Slice
open Std (ExtTreeMap)

/-- A byte range of a text. -/
abbrev ByteRange := ℕ × ℕ

def backtick : UInt8 := 0x60

def tilde : UInt8 := 0x7E

def backslash : UInt8 := 0x5C

/-! ## The scanners -/

/-- Keep the trimmed range, unless it is blank. -/
def pushSpan (spans : List ByteRange) (content : String) (start stop : ℕ) :
    Option (List ByteRange) := do
  let part ← slice content start stop
  let trimmed := trim part
  if trimmed = "" then return spans
  let leading := part.utf8ByteSize - (trimStart part).utf8ByteSize
  let trimmedStart := start + leading
  let trimmedEnd := trimmedStart + trimmed.utf8ByteSize
  if trimmedStart < trimmedEnd ∧ trimmedEnd ≤ content.utf8ByteSize then
    return spans ++ [(trimmedStart, trimmedEnd)]
  else return spans

/-- The position after the next newline, or the end. -/
def advanceToNewline (bytes : List UInt8) (start : ℕ) : ℕ :=
  let i := scanWhile (· ≠ '\n'.toUInt8) bytes bytes.length start
  if i < bytes.length then i + 1 else i

/-- The length of a character by its first byte. -/
def charLenAt (b : UInt8) : ℕ :=
  if b < 0x80 then 1 else if b < 0xE0 then 2 else if b < 0xF0 then 3 else 4

/-- Whether the line opens or may close a fence: its marker, the width of the marker and the
position after it. -/
def askFenceLine (bytes : List UInt8) (start stop : ℕ) : Option (UInt8 × ℕ × ℕ) :=
  let markerStart := scanWhile (· = ' '.toUInt8) bytes stop start
  if 3 < markerStart - start ∨ markerStart = stop then none
  else
    match bytes[markerStart]? with
    | none => none
    | some marker =>
      if marker ≠ backtick ∧ marker ≠ tilde then none
      else
        let tail := scanWhile (· = marker) bytes stop markerStart
        let width := tail - markerStart
        if 3 ≤ width then some (marker, width, tail) else none

/-- The position after the marker of a list item. -/
def askListContentStart (bytes : List UInt8) (start stop : ℕ) : Option ℕ :=
  let i := scanWhile (· = ' '.toUInt8) bytes stop start
  if 3 < i - start ∨ i = stop then none
  else
    match bytes[i]? with
    | none => none
    | some b =>
      let afterMarker :=
        if b = '-'.toUInt8 ∨ b = '*'.toUInt8 ∨ b = '+'.toUInt8 then some (i + 1)
        else
          let j := scanWhile (fun b => '0'.toUInt8 ≤ b ∧ b ≤ '9'.toUInt8) bytes stop i
          if j = i ∨ 9 < j - i ∨ j = stop then none
          else
            match bytes[j]? with
            | none => none
            | some b => if b ≠ '.'.toUInt8 ∧ b ≠ ')'.toUInt8 then none else some (j + 1)
      match afterMarker with
      | none => none
      | some i =>
        if i = stop then none
        else
          match bytes[i]? with
          | none => none
          | some b =>
            if b ≠ ' '.toUInt8 ∧ b ≠ '\t'.toUInt8 ∧ b ≠ '\r'.toUInt8 ∧ b ≠ '\n'.toUInt8 then none
            else some (scanWhile (fun b => b = ' '.toUInt8 ∨ b = '\t'.toUInt8) bytes stop i)

/-- The runs of backticks from `i` on, in order. -/
def backtickRuns (bytes : List UInt8) (stop : ℕ) : ℕ → ℕ → List ByteRange
  | 0, _ => []
  | n + 1, i =>
    if i < stop then
      if bytes[i]? = some backtick then
        let runEnd := scanWhile (· = backtick) bytes stop i
        (i, runEnd) :: backtickRuns bytes stop n runEnd
      else backtickRuns bytes stop n (i + 1)
    else []

/-- Pair each run with the next one of the same width: the next end of each width, and the
end of the closer of each start.  The runs are visited from the last to the first. -/
def pairRuns (runs : List ByteRange) : ExtTreeMap ℕ ℕ × ExtTreeMap ℕ ℕ :=
  runs.foldr (fun (runStart, runEnd) (nextByWidth, closers) =>
    match nextByWidth[runEnd - runStart]? with
    | some closerEnd =>
      (nextByWidth.insert (runEnd - runStart) runEnd, closers.insert runStart closerEnd)
    | none => (nextByWidth.insert (runEnd - runStart) runEnd, closers)) (∅, ∅)

def askInlineCodeEnds (bytes : List UInt8) (start stop : ℕ) : ExtTreeMap ℕ ℕ :=
  (pairRuns (backtickRuns bytes stop (stop - start) start)).2

/-- Whether an odd number of backslashes stands before the position. -/
def askByteIsEscaped (bytes : List UInt8) (start position : ℕ) : Bool :=
  (((bytes.take position).drop start).reverse.takeWhile (· = backslash)).length % 2 = 1

def abbrevs : List String := ["e.g", "i.e", "vs", "etc", "Mr", "Mrs", "Dr", "Prof", "St"]

/-- Whether the full stop at `pos` ends an abbreviation. -/
def isAbbreviationEnd (text : String) (pos : ℕ) : Bool :=
  abbrevs.any fun short =>
    short.utf8ByteSize ≤ pos ∧ slice text (pos - short.utf8ByteSize) pos = some short

section Sentences

variable (isUppercase : Char → Bool) (content : String)

/-- The loop of `segment_ask_sentences`, for at most so many rounds. -/
def sentenceLoop (codeEnds : ExtTreeMap ℕ ℕ) (start stop : ℕ) :
    ℕ → List ByteRange → ℕ → ℕ → Option (List ByteRange)
  | 0, _, _, _ => none
  | n + 1, spans, spanStart, i =>
    if i < stop then do
      let b ← (asBytes content)[i]?
      if b = backtick then
        match if askByteIsEscaped (asBytes content) start i then none else codeEnds[i]? with
        | some codeEnd => sentenceLoop codeEnds start stop n spans spanStart codeEnd
        | none =>
          sentenceLoop codeEnds start stop n spans spanStart
            (scanWhile (· = backtick) (asBytes content) stop i)
      else if (b = '.'.toUInt8 ∨ b = '!'.toUInt8 ∨ b = '?'.toUInt8)
          ∧ askByteIsEscaped (asBytes content) start i = false
          ∧ ¬ (b = '.'.toUInt8 ∧ isAbbreviationEnd content i) then do
        let remainder ← slice content (i + 1) stop
        let following := trimStart remainder
        if following.utf8ByteSize ≠ remainder.utf8ByteSize
            ∧ following.toList.head?.all isUppercase then do
          let spans ← pushSpan spans content spanStart (i + 1)
          let next := stop - following.utf8ByteSize
          sentenceLoop codeEnds start stop n spans next next
        else sentenceLoop codeEnds start stop n spans spanStart (i + charLenAt b)
      else sentenceLoop codeEnds start stop n spans spanStart (i + charLenAt b)
    else pushSpan spans content spanStart stop

def segmentAskSentences (spans : List ByteRange) (start stop : ℕ) : Option (List ByteRange) :=
  sentenceLoop isUppercase content (askInlineCodeEnds (asBytes content) start stop) start stop
    (stop - start + 1) spans start
    ((askListContentStart (asBytes content) start stop).getD start)

/-- The loop of `segment_ask_prose` over the lines, for at most so many rounds. -/
def proseLoop (stop : ℕ) : ℕ → List ByteRange → ℕ → ℕ → Option (List ByteRange)
  | 0, _, _, _ => none
  | n + 1, spans, paragraphStart, lineStart =>
    if lineStart < stop then do
      let nextLine := min (advanceToNewline (asBytes content) lineStart) stop
      let line ← slice content lineStart nextLine
      if trim line = "" then do
        let spans ← segmentAskSentences isUppercase content spans paragraphStart lineStart
        proseLoop stop n spans nextLine nextLine
      else if (askListContentStart (asBytes content) lineStart nextLine).isSome
          ∧ paragraphStart < lineStart then do
        let spans ← segmentAskSentences isUppercase content spans paragraphStart lineStart
        proseLoop stop n spans lineStart nextLine
      else proseLoop stop n spans paragraphStart nextLine
    else segmentAskSentences isUppercase content spans paragraphStart stop

def segmentAskProse (spans : List ByteRange) (start stop : ℕ) : Option (List ByteRange) :=
  proseLoop isUppercase content stop (stop - start + 1) spans start start

/-- The variables of `segment_spans`: a fence has its start, marker and width. -/
structure SegmentState where
  spans : List ByteRange
  proseStart : ℕ
  lineStart : ℕ
  fence : Option (ℕ × UInt8 × ℕ)

/-- What `segment_spans` does with one line, which ends at `nextLine`. -/
def segmentLine (s : SegmentState) (nextLine : ℕ) : Option SegmentState :=
  match askFenceLine (asBytes content) s.lineStart nextLine with
  | none => some s
  | some (marker, width, tail) =>
    let tailBytes := ((asBytes content).take nextLine).drop tail
    match s.fence with
    | some (blockStart, openingMarker, openingWidth) =>
      if marker = openingMarker ∧ openingWidth ≤ width
          ∧ tailBytes.all fun b => b = ' '.toUInt8 ∨ b = '\t'.toUInt8 ∨ b = '\r'.toUInt8
            ∨ b = '\n'.toUInt8 then do
        let spans ← pushSpan s.spans content blockStart nextLine
        return { s with spans, proseStart := nextLine, fence := none }
      else some s
    | none =>
      if marker ≠ backtick ∨ backtick ∉ tailBytes then do
        let spans ← segmentAskProse isUppercase content s.spans s.proseStart s.lineStart
        return { s with spans, fence := some (s.lineStart, marker, width) }
      else some s

/-- The loop of `segment_spans` over the lines, for at most so many rounds. -/
def lineLoop : ℕ → SegmentState → Option SegmentState
  | 0, _ => none
  | n + 1, s =>
    if s.lineStart < (asBytes content).length then do
      let nextLine := advanceToNewline (asBytes content) s.lineStart
      let s ← segmentLine isUppercase content s nextLine
      lineLoop n { s with lineStart := nextLine }
    else some s

/-- What comes behind the last line. -/
def finishSegments (s : SegmentState) : Option (List ByteRange) :=
  match s.fence with
  | some (blockStart, _, _) => pushSpan s.spans content blockStart (asBytes content).length
  | none => segmentAskProse isUppercase content s.spans s.proseStart (asBytes content).length

/-- Segment a text into byte ranges. -/
def segmentSpans : Option (List ByteRange) := do
  let s ← lineLoop isUppercase content ((asBytes content).length + 1) ⟨[], 0, 0, none⟩
  finishSegments isUppercase content s

end Sentences

/-! ## Positions between lines and code spans -/

variable {content : String} {start stop : ℕ}

theorem lt_advanceToNewline {bytes : List UInt8} {start : ℕ} (h : start < bytes.length) :
    start < advanceToNewline bytes start := by
  have hs : start ≤ scanWhile (· ≠ '\n'.toUInt8) bytes bytes.length start := le_scanWhile
  unfold advanceToNewline
  simp only
  split <;> omega

/-- A line ends after a newline or with the text, so at a boundary. -/
theorem isCharBoundary_advanceToNewline (h : start ≤ (asBytes content).length) :
    isCharBoundary content (advanceToNewline (asBytes content) start) = true := by
  have hle : scanWhile (· ≠ '\n'.toUInt8) (asBytes content) (asBytes content).length start
      ≤ (asBytes content).length := scanWhile_le h
  unfold advanceToNewline
  simp only
  split
  · rename_i hlt
    obtain ⟨b, hb, hn⟩ := scanWhile_stops (Nat.le_refl _) hlt
    have heq : b = '\n'.toUInt8 := by simpa using hn
    refine (isCharBoundary_of_ascii hb ?_).2
    rw [heq]
    decide
  · rename_i he
    have heq : scanWhile (· ≠ '\n'.toUInt8) (asBytes content) (asBytes content).length start
        = (asBytes content).length := by omega
    rw [heq]
    exact isCharBoundary_length content

/-- A position after a backtick. -/
def IsCodeEnd (bytes : List UInt8) (stop position : ℕ) : Prop :=
  position ≤ stop ∧ ∃ j, position = j + 1 ∧ bytes[j]? = some backtick

theorem IsCodeEnd.isCharBoundary {position : ℕ}
    (h : IsCodeEnd (asBytes content) stop position) : isCharBoundary content position = true := by
  obtain ⟨_, j, rfl, hj⟩ := h
  exact (isCharBoundary_of_ascii hj (by decide)).2

/-- A run of backticks is not empty and ends after one. -/
theorem scanWhile_backtick {bytes : List UInt8} {i : ℕ} (hi : i < stop)
    (hb : bytes[i]? = some backtick) :
    i < scanWhile (· = backtick) bytes stop i ∧
      IsCodeEnd bytes stop (scanWhile (· = backtick) bytes stop i) := by
  have hlt : i < scanWhile (· = backtick) bytes stop i := lt_scanWhile hi hb (by simp)
  refine ⟨hlt, scanWhile_le hi.le, scanWhile (· = backtick) bytes stop i - 1, by omega, ?_⟩
  obtain ⟨b, hg, hp⟩ := scanWhile_passes (by omega : i ≤ scanWhile (· = backtick) bytes stop i - 1)
    (by omega : scanWhile (· = backtick) bytes stop i - 1 < scanWhile (· = backtick) bytes stop i)
  rw [hg, of_decide_eq_true hp]

theorem pairRuns_cons_next (rs re : ℕ) (r : List ByteRange) : (pairRuns ((rs, re) :: r)).1
      = (pairRuns r).1.insert (re - rs) re := by
  rw [pairRuns, List.foldr_cons, ← pairRuns]
  obtain ⟨nbw, cs⟩ := pairRuns r
  cases h : nbw[re - rs]? <;> simp [h]

theorem pairRuns_cons_closers (rs re : ℕ) (r : List ByteRange) : (pairRuns ((rs, re) :: r)).2 =
      match (pairRuns r).1[re - rs]? with
      | some closerEnd => (pairRuns r).2.insert rs closerEnd
      | none => (pairRuns r).2 := by
  rw [pairRuns, List.foldr_cons, ← pairRuns]
  obtain ⟨nbw, cs⟩ := pairRuns r
  cases h : nbw[re - rs]? <;> simp [h]

/-- The content of a list item starts after its marker. -/
theorem le_of_askListContentStart {bytes : List UInt8} {i : ℕ}
    (h : askListContentStart bytes start stop = some i) : start ≤ i := by
  have hs : start ≤ scanWhile (· = ' '.toUInt8) bytes stop start := le_scanWhile
  unfold askListContentStart at h
  simp only at h
  generalize scanWhile (· = ' '.toUInt8) bytes stop start = ass at *
  split at h
  · cases h
  · split at h
    · cases h
    · split at h
      · cases h
      · rename_i b _ am hm
        have ha : ass ≤ am := by
          split at hm
          · cases hm
            exact Nat.le_succ _
          · have hd : ass ≤ scanWhile
                (fun b => '0'.toUInt8 ≤ b ∧ b ≤ '9'.toUInt8) bytes stop ass := le_scanWhile
            split at hm
            · cases hm
            · split at hm
              · cases hm
              · split at hm
                · cases hm
                · cases hm
                  omega
        have hb : am ≤ scanWhile
            (fun b => b = ' '.toUInt8 ∨ b = '\t'.toUInt8) bytes stop am := le_scanWhile
        split at h
        · cases h
        · split at h
          · cases h
          · split at h
            · cases h
            · cases h
              omega

theorem charLenAt_pos (b : UInt8) : 0 < charLenAt b := by
  unfold charLenAt
  split
  · omega
  · split
    · omega
    · split <;> omega

end Ask
