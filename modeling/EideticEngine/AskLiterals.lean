/-
# Agreement of command literals

`compatible` of `src/core/ask_command_literals.rs` withholds corroboration when two texts differ
in quoted code, paths, switches, assignments or the payload of an instruction.  Its scanners walk
over bytes, jump two bytes behind a backslash and take slices where they stop.

A result `none` stands for a panic (a slice off a character boundary, an index outside the text)
or a loop that does not end; within a result, `none` is the code's own `None`.  Every scanner
stops at the end of the text or beside an ASCII byte, so neither a panic nor an endless loop
occurs.
-/
import EideticEngine.AskSupport

namespace Ask

open RustText (asBytes trim trimEnd splitWhitespace splitAtText)
open Utf8Slice
open Std (ExtTreeMap)

/-! ## Searching a text -/

/-- `str::find` with a text. -/
def findText (pattern text : String) : Option ℕ :=
  (splitAtText pattern text).map fun parts => parts.1.utf8ByteSize

/-- The matches of a pattern from a position on, at most so many. -/
def matchesFrom (pattern : String) : ℕ → ℕ → String → List ℕ
  | 0, _, _ => []
  | n + 1, position, text =>
    match splitAtText pattern text with
    | none => []
    | some (front, rest) =>
      (position + front.utf8ByteSize)
        :: matchesFrom pattern n (position + front.utf8ByteSize + pattern.utf8ByteSize) rest

/-- `str::match_indices` with a text that is not empty: where it stands, without overlaps. -/
def matchIndices (pattern text : String) : List ℕ :=
  matchesFrom pattern (text.toList.length + 1) 0 text

/-- `str::trim_matches` with a set of characters. -/
def trimChars (chars : List Char) (text : String) : String :=
  String.ofList ((text.toList.dropWhile (· ∈ chars)).rdropWhile (· ∈ chars))

/-- `u8::is_ascii_whitespace`. -/
def isAsciiWhitespace (b : UInt8) : Bool :=
  b = 0x20 || b = 0x09 || b = 0x0A || b = 0x0C || b = 0x0D

def isAlphabeticByte (b : UInt8) : Bool :=
  (0x41 ≤ b && b ≤ 0x5A) || (0x61 ≤ b && b ≤ 0x7A)

def isAlphanumericByte (b : UInt8) : Bool := isAlphabeticByte b || (0x30 ≤ b && b ≤ 0x39)

def underscore : UInt8 := 0x5F

def singleQuote : UInt8 := 0x27

def doubleQuote : UInt8 := 0x22

def dash : UInt8 := 0x2D

/-! ## Marked code -/

structure LiteralText where
  plain : String
  code : List String

def hasFence (text : String) : Bool :=
  (linesFrom (asBytes text) (asBytes text).length 0).any fun line =>
    (askFenceLine (asBytes text) line.1 line.2).isSome

/-- The loop of `literal_text`, for at most so many rounds. -/
def literalLoop (text : String) (ends : ExtTreeMap ℕ ℕ) :
    ℕ → LiteralText → ℕ → ℕ → Option (Option LiteralText)
  | 0, _, _, _ => none
  | n + 1, found, copied, index =>
    if index < (asBytes text).length then
      if (asBytes text)[index]? ≠ some backtick then
        literalLoop text ends n found copied (index + 1)
      else
        let width := (((asBytes text).drop index).takeWhile (· = backtick)).length
        if askByteIsEscaped (asBytes text) 0 index then
          literalLoop text ends n found copied (index + width)
        else
          match ends[index]? with
          | none => some none
          | some stop => do
            let payload ← slice text (index + width) (← checkedSub stop width)
            let before ← slice text copied index
            literalLoop text ends n
              ⟨found.plain ++ before ++ payload, found.code ++ [payload]⟩ stop stop
    else do
      let rest ← slice text copied (asBytes text).length
      return some ⟨found.plain ++ rest, found.code⟩

def literalText (text : String) : Option (Option LiteralText) :=
  literalLoop text (askInlineCodeEnds (asBytes text) 0 (asBytes text).length)
    ((asBytes text).length + 1) ⟨"", []⟩ 0 0

section Rules

variable (rules : AskRules)

def identifierChar (c : Char) : Bool :=
  rules.isAlphanumeric c || c = '_' || c = '-' || c = '$'

/-- Whether a match starts no identifier in its midst. -/
def leftWhole (text literal : String) (start : ℕ) : Option Bool :=
  match literal.toList.head? with
  | none => some true
  | some first =>
    if identifierChar rules first then
      (slice text 0 start).map fun before =>
        before.toList.getLast?.all fun previous => !identifierChar rules previous
    else some true

/-- Whether a match ends no identifier in its midst. -/
def rightWhole (text literal : String) (stop : ℕ) : Option Bool :=
  match literal.toList.getLast? with
  | none => some true
  | some last =>
    if identifierChar rules last then
      (slice text stop (asBytes text).length).map fun after =>
        after.toList.head?.all fun next => !identifierChar rules next
    else some true

/-- The end of a match that cuts no identifier. -/
def wholeMatch (text literal : String) (start : ℕ) : Option (Option ℕ) := do
  let stop := start + literal.utf8ByteSize
  let left ← leftWhole rules text literal start
  let right ← rightWhole rules text literal stop
  return if left && right then some stop else none

/-- The first of the matches that cuts no identifier. -/
def firstWholeMatch (text literal : String) (offset : ℕ) : List ℕ → Option (Option ℕ)
  | [] => some none
  | start :: starts => do
    match ← wholeMatch rules text literal (offset + start) with
    | some stop => return some stop
    | none => firstWholeMatch text literal offset starts

/-- Whether the literals stand in the text one behind the other. -/
def orderedLiterals (text : String) : ℕ → List String → Option Bool
  | _, [] => some true
  | offset, literal :: literals =>
    if literal = "" then orderedLiterals text offset literals
    else do
      let rest ← slice text offset (asBytes text).length
      match ← firstWholeMatch rules text literal offset (matchIndices literal rest) with
      | none => return false
      | some position => orderedLiterals text position literals

def containsOrderedLiterals (text : String) (literals : List String) : Option Bool :=
  orderedLiterals rules text 0 literals

/-! ## Bare paths, assignments and options -/

def machineDelimiters : List Char := "\"'()[]\x7b\x7d,;".toList

def machineTokens (text : String) : List String :=
  ((splitWhitespace text).map (trimChars machineDelimiters)).filter fun word =>
    (word.toList.head? = some '-' && word.toList.any rules.isAlphabetic)
      || '/' ∈ word.toList || '\\' ∈ word.toList || (splitAtText "::" word).isSome

end Rules

/-- The loop of `literal_word_end`, for at most so many rounds. -/
def wordEndLoop (bytes : List UInt8) : ℕ → Option UInt8 → ℕ → Option (Option ℕ)
  | 0, _, _ => none
  | n + 1, quote, index =>
    if index < bytes.length then do
      let b ← bytes[index]?
      if b = backslash ∧ quote ≠ some singleQuote then
        if index + 1 = bytes.length then return none
        else wordEndLoop bytes n quote (index + 2)
      else
        match quote with
        | some delimiter =>
          wordEndLoop bytes n (if b = delimiter then none else quote) (index + 1)
        | none =>
          if b = singleQuote ∨ b = doubleQuote then wordEndLoop bytes n (some b) (index + 1)
          else if isAsciiWhitespace b then return some index
          else if b = 0x24 ∧ (bytes[index + 1]? = some 0x28 ∨ bytes[index + 1]? = some 0x7B) then
            return none
          else wordEndLoop bytes n none (index + 1)
    else return if quote.isNone then some index else none

def literalWordEnd (text : String) (start : ℕ) : Option (Option ℕ) :=
  wordEndLoop (asBytes text) ((asBytes text).length - start + 1) none start

/-- Where the name before an equals sign starts. -/
def nameStart (bytes : List UInt8) (index : ℕ) : ℕ :=
  index - ((bytes.take index).reverse.takeWhile fun b =>
    isAlphanumericByte b || b = underscore).length

section Rules

variable (rules : AskRules)

/-- The loop of `assignment_literals`, for at most so many rounds. -/
def assignmentLoop (text : String) : ℕ → List String → ℕ → Option (Option (List String))
  | 0, _, _ => none
  | n + 1, literals, index =>
    if index < (asBytes text).length then
      if (asBytes text)[index]? ≠ some 0x3D ∨ (asBytes text)[index + 1]? = some 0x3D then
        assignmentLoop text n literals (index + 1)
      else
        let start := nameStart (asBytes text) index
        if start = index then assignmentLoop text n literals (index + 1)
        else do
          let first ← (asBytes text)[start]?
          if !(isAlphabeticByte first || first = underscore) then
            assignmentLoop text n literals (index + 1)
          else
            let before ← slice text 0 start
            if before.toList.getLast?.any fun previous =>
                identifierChar rules previous || previous = '.' || previous = ':' then
              assignmentLoop text n literals (index + 1)
            else
              match ← literalWordEnd text (index + 1) with
              | none => return none
              | some stop =>
                let literal ← slice text start stop
                assignmentLoop text n (literals ++ [literal]) stop
    else return some literals

def assignmentLiterals (text : String) : Option (Option (List String)) :=
  assignmentLoop rules text ((asBytes text).length + 1) [] 0

/-- The loop of `option_literals`, for at most so many rounds. -/
def optionLoop (text : String) :
    ℕ → List (String × Option String) → ℕ → Option (Option (List (String × Option String)))
  | 0, _, _ => none
  | n + 1, literals, index =>
    if index < (asBytes text).length then
      if (asBytes text)[index]? ≠ some dash ∨ (0 < index ∧
          !((asBytes text)[index - 1]?.all fun b =>
            isAsciiWhitespace b || b = 0x28 || b = 0x5B || b = 0x7B)) then
        optionLoop text n literals (index + 1)
      else do
        match ← literalWordEnd text index with
        | none => return none
        | some stop =>
          let option ← slice text index stop
          if option ≠ "--" ∧ !option.toList.any rules.isAlphabetic then
            optionLoop text n literals stop
          else if '=' ∈ option.toList then
            optionLoop text n (literals ++ [(option, none)]) stop
          else
            let start := scanWhile isAsciiWhitespace (asBytes text) (asBytes text).length stop
            if start = (asBytes text).length then
              optionLoop text n (literals ++ [(option, none)]) stop
            else
              match ← literalWordEnd text start with
              | none => return none
              | some nextEnd =>
                let first ← (asBytes text)[start]?
                let argument ← slice text start nextEnd
                optionLoop text n (literals ++ [(option, some argument)])
                  (if first ≠ dash then nextEnd else stop)
    else return some literals

def optionLiterals (text : String) : Option (Option (List (String × Option String))) :=
  optionLoop rules text ((asBytes text).length + 1) [] 0

end Rules

/-! ## Instructions -/

/-- `strip_suffix(':')`, or the word itself. -/
def stripColon (word : String) : String :=
  if word.toList.getLast? = some ':' then String.ofList word.toList.dropLast else word

/-- Whether an instruction may start behind this text. -/
def commandBoundary (before : String) : Bool :=
  before = "" || before.toList.getLast?.any (fun c => c = ',' || c = ';' || c = ':')
    || (splitWhitespace before).getLast?.any fun word =>
      ["please", "should", "must"].any (eqIgnoreAsciiCase word)

/-- The loop of `instruction_payload` over the words. -/
def payloadLoop (text : String) : ℕ → List String → Option (Option (String × String))
  | _, [] => some none
  | offset, word :: words => do
    let rest ← slice text offset (asBytes text).length
    match findText word rest with
    | none => return none
    | some position =>
      let start := offset + position
      let stop := start + word.utf8ByteSize
      let verb := stripColon word
      let before ← slice text 0 start
      let imperative := commandBoundary (trimEnd before)
        && ["run", "execute", "invoke"].any (eqIgnoreAsciiCase verb)
      let label := word.toList.getLast? = some ':'
        && ["command", "invocation"].any (eqIgnoreAsciiCase verb)
      if imperative || label then
        let tail := trimStart (← slice text stop (asBytes text).length)
        if tail ≠ "" then return some (before, tail) else payloadLoop text stop words
      else payloadLoop text stop words

def instructionPayload (text : String) : Option (Option (String × String)) := do
  let text := trim text
  let start := (askListContentStart (asBytes text) 0 (asBytes text).length).getD 0
  let text ← slice text start (asBytes text).length
  payloadLoop text 0 (splitWhitespace text)

/-! ## Agreement -/

/-- Whether the assignments and then the options agree. -/
def plainCompatible (rules : AskRules) (left right : String) : Option Bool := do
  let leftAssignments ← assignmentLiterals rules left
  let rightAssignments ← assignmentLiterals rules right
  if leftAssignments = none ∨ rightAssignments = none ∨ leftAssignments ≠ rightAssignments then
    return false
  let leftOptions ← optionLiterals rules left
  let rightOptions ← optionLiterals rules right
  if leftOptions = none ∨ rightOptions = none ∨ leftOptions ≠ rightOptions then return false
  let leftPayload ← instructionPayload left
  let rightPayload ← instructionPayload right
  return leftPayload = rightPayload

/-- `compatible` of the command literals. -/
def literalsCompatible (rules : AskRules) (left right : String) : Option Bool :=
  if left = right then some true
  else if hasFence left || hasFence right then some false
  else do
    let leftText ← literalText left
    let rightText ← literalText right
    match leftText, rightText with
    | some left, some right =>
      if !(← containsOrderedLiterals rules right.plain left.code) then return false
      if !(← containsOrderedLiterals rules left.plain right.code) then return false
      if machineTokens rules left.plain ≠ machineTokens rules right.plain then return false
      plainCompatible rules left.plain right.plain
    | _, _ => return false

/-! ## Every scanner returns -/

/-- The computation returns, and what it finds has a property. -/
def Returns {α : Type} (result : Option (Option α)) (P : α → Prop) : Prop :=
  ∃ found, result = some found ∧ ∀ a ∈ found, P a

theorem returns_none {α : Type} (P : α → Prop) : Returns (some none) P :=
  ⟨none, rfl, fun _ h => absurd h (Option.not_mem_none _)⟩

theorem returns_some {α : Type} {P : α → Prop} {a : α} (h : P a) : Returns (some (some a)) P := by
  refine ⟨some a, rfl, fun b hb => ?_⟩
  obtain rfl := Option.mem_some.mp hb
  exact h

theorem Returns.mono {α : Type} {P Q : α → Prop} {r : Option (Option α)}
    (h : Returns r P) (hPQ : ∀ a, P a → Q a) : Returns r Q := by
  obtain ⟨f, hr, hf⟩ := h
  exact ⟨f, hr, fun a ha => hPQ a (hf a ha)⟩

variable {text : String} {start stop index : ℕ}

theorem ascii_of_isAsciiWhitespace {b : UInt8} (h : isAsciiWhitespace b = true) : b < 0x80 := by
  unfold isAsciiWhitespace at h
  simp only [Bool.or_eq_true, decide_eq_true_eq] at h
  rcases h with (((rfl | rfl) | rfl) | rfl) | rfl <;> decide

/-- A word ends at a boundary: the two bytes of an escape may end inside a character, but the
scan goes on to an ASCII blank or to the end of the text. -/
theorem wordEndLoop_returns (n : ℕ) : ∀ (qu : Option UInt8) (index : ℕ),
    index ≤ (asBytes text).length → (asBytes text).length - index < n →
    Returns (wordEndLoop (asBytes text) n qu index)
      fun stop => index ≤ stop ∧ isCharBoundary text stop = true := by
  induction n with
  | zero => intro qu index _ hn; omega
  | succ n ih =>
    intro qu index hle hn
    have hl : ∀ (qu : Option UInt8) (next : ℕ), index < next →
        next ≤ (asBytes text).length → Returns (wordEndLoop (asBytes text) n qu next)
          fun stop => index ≤ stop ∧ isCharBoundary text stop = true := by
      intro qu next hlt hne
      refine (ih qu next hne (by omega)).mono fun stop hst => ?_
      exact ⟨by omega, hst.2⟩
    unfold wordEndLoop
    by_cases hin : index < (asBytes text).length
    · rw [if_pos hin, List.getElem?_eq_getElem hin, Option.bind_eq_bind, Option.bind_some]
      set b := (asBytes text)[index] with hb
      split
      · split
        · exact returns_none _
        · exact hl qu (index + 2) (by omega) (by omega)
      · split
        · exact hl _ (index + 1) (by omega) (by omega)
        · split
          · exact hl _ (index + 1) (by omega) (by omega)
          · split
            · rename_i hs
              have hg : (asBytes text)[index]? = some b := List.getElem?_eq_getElem hin
              have hbo := isCharBoundary_of_ascii hg (ascii_of_isAsciiWhitespace hs)
              exact returns_some ⟨le_rfl, hbo.1⟩
            · split
              · exact returns_none _
              · exact hl _ (index + 1) (by omega) (by omega)
    · rw [if_neg hin]
      have he : index = (asBytes text).length := by omega
      cases qu with
      | none => exact returns_some ⟨le_rfl, he ▸ isCharBoundary_length text⟩
      | some d => exact returns_none _

theorem literalWordEnd_returns (hs : start ≤ (asBytes text).length) :
    Returns (literalWordEnd text start)
      fun stop => start ≤ stop ∧ isCharBoundary text stop = true :=
  wordEndLoop_returns _ none start hs (Nat.lt_succ_self _)

/-- A word that starts with a byte that is not a blank is not empty. -/
theorem literalWordEnd_lt {b : UInt8} (hb : (asBytes text)[start]? = some b)
    (hs : isAsciiWhitespace b = false) (h : literalWordEnd text start = some (some stop)) :
    start < stop := by
  obtain ⟨hin, -⟩ := List.getElem?_eq_some_iff.mp hb
  have hl : ∀ (qu : Option UInt8) (next : ℕ), start < next →
      next ≤ (asBytes text).length →
      wordEndLoop (asBytes text) ((asBytes text).length - start) qu next = some (some stop) →
      start < stop := by
    intro qu next hlt hn hlo
    obtain ⟨f, hf, hsp⟩ := @wordEndLoop_returns text ((asBytes text).length - start)
      qu next hn (by omega)
    rw [hf] at hlo
    have := (hsp stop (Option.some.inj hlo)).1
    omega
  unfold literalWordEnd wordEndLoop at h
  rw [if_pos hin, hb, Option.bind_eq_bind, Option.bind_some] at h
  split at h
  · split at h
    · cases h
    · exact hl _ (start + 2) (by omega) (by omega) h
  · simp only at h
    split at h
    · exact hl _ (start + 1) (by omega) (by omega) h
    · split at h
      · rename_i hbl
        rw [hs] at hbl
        cases hbl
      · split at h
        · cases h
        · exact hl _ (start + 1) (by omega) (by omega) h

/-- A part of a text. -/
def IsPart (text part : String) : Prop := ∃ first last, slice text first last = some part

theorem ascii_of_nameByte {b : UInt8}
    (h : (isAlphanumericByte b || decide (b = underscore)) = true) : b < 0x80 := by
  unfold isAlphanumericByte isAlphabeticByte at h
  simp only [Bool.or_eq_true, Bool.and_eq_true, decide_eq_true_eq] at h
  rcases h with ((⟨-, h⟩ | ⟨-, h⟩) | ⟨-, h⟩) | rfl
  · exact UInt8.lt_of_le_of_lt h (by decide)
  · exact UInt8.lt_of_le_of_lt h (by decide)
  · exact UInt8.lt_of_le_of_lt h (by decide)
  · decide

/-- The name before an equals sign is ASCII. -/
theorem nameStart_spec {bytes : List UInt8} (hi : index ≤ bytes.length)
    (hne : nameStart bytes index ≠ index) :
    nameStart bytes index < index ∧ ∃ b, bytes[nameStart bytes index]? = some b ∧ b < 0x80 := by
  set name := (bytes.take index).reverse.takeWhile fun b =>
    isAlphanumericByte b || b = underscore with hname
  have hs : nameStart bytes index = index - name.length := rfl
  have hlen : name.length ≤ index := by
    have hle := (List.takeWhile_prefix (l := (bytes.take index).reverse) fun b =>
      isAlphanumericByte b || b = underscore).length_le
    rw [List.length_reverse, List.length_take] at hle
    exact hle.trans (Nat.min_le_left _ _)
  have hpo : 0 < name.length := by
    by_contra hzero
    rw [hs] at hne
    omega
  -- the last byte of the reversed name is the first of the name
  have hl : name[name.length - 1]? = bytes[index - name.length]? := by
    have hlt : name.length - 1 < name.length := by omega
    have hpr := List.takeWhile_prefix (l := (bytes.take index).reverse) fun b =>
      isAlphanumericByte b || b = underscore
    rw [← hname] at hpr
    have hb : name.length - 1 < (bytes.take index).length := by
      rw [List.length_take]
      omega
    rw [List.getElem?_eq_getElem hlt, hpr.getElem hlt, ← List.getElem?_eq_getElem,
      List.getElem?_reverse hb, List.getElem?_take_of_lt, List.length_take]
    · congr 1
      omega
    · rw [List.length_take]
      omega
  refine ⟨by omega, name[name.length - 1], ?_, ?_⟩
  · rw [hs, ← hl, List.getElem?_eq_getElem]
  · have hm : name[name.length - 1] ∈ name := List.getElem_mem _
    have hp := List.mem_takeWhile_imp (p := fun b => isAlphanumericByte b || b = underscore) hm
    exact ascii_of_nameByte hp

/-- The text before a boundary, and behind it. -/
theorem exists_slice_before (h : isCharBoundary text index = true) :
    ∃ b, slice text 0 index = some b :=
  exists_slice (Nat.zero_le index) (isCharBoundary_zero text) h

theorem exists_slice_behind (h : isCharBoundary text index = true) :
    ∃ behind, slice text index (asBytes text).length = some behind :=
  exists_slice (isCharBoundary_le h) h (isCharBoundary_length text)

theorem assignmentLoop_returns (rules : AskRules) (n : ℕ) : ∀ (ls : List String) (index : ℕ),
    index ≤ (asBytes text).length → (asBytes text).length - index < n →
    (∀ l ∈ ls, IsPart text l) →
    Returns (assignmentLoop rules text n ls index) fun f => ∀ l ∈ f, IsPart text l := by
  induction n with
  | zero => intro ls index _ hn; omega
  | succ n ih =>
    intro ls index hle hn hl
    unfold assignmentLoop
    by_cases hin : index < (asBytes text).length
    · rw [if_pos hin]
      have hne := ih ls (index + 1) (by omega) (by omega) hl
      split
      · exact hne
      simp only
      split
      · exact hne
      rename_i hna
      obtain ⟨hlt, first, hf, ha⟩ := nameStart_spec hle hna
      have hb := (isCharBoundary_of_ascii hf ha).1
      simp only [hf, Option.bind_eq_bind, Option.bind_some]
      split
      · exact hne
      obtain ⟨b, hbe⟩ := exists_slice_before hb
      simp only [hbe, Option.bind_some]
      split
      · exact hne
      obtain ⟨f, hfo, hs⟩ := @literalWordEnd_returns text (index + 1) (by omega)
      simp only [hfo, Option.bind_some]
      cases f with
      | none => exact returns_none _
      | some stop =>
        obtain ⟨hst, he⟩ := hs stop rfl
        obtain ⟨l, hli⟩ := exists_slice (by omega : nameStart (asBytes text) index ≤ stop) hb he
        simp only [hli, Option.bind_some]
        have hlen := isCharBoundary_le he
        refine ih _ stop hlen (by omega) fun p hp => ?_
        rcases List.mem_append.mp hp with h | hnew
        · exact hl p h
        · rw [List.mem_singleton.mp hnew]
          exact ⟨_, _, hli⟩
    · rw [if_neg hin]
      exact returns_some hl

theorem assignmentLiterals_returns (rules : AskRules) (text : String) :
    Returns (assignmentLiterals rules text) fun f => ∀ l ∈ f, IsPart text l :=
  assignmentLoop_returns rules _ [] 0 (Nat.zero_le _) (by omega)
    fun _ h => absurd h List.not_mem_nil

theorem optionLoop_returns (rules : AskRules) (n : ℕ) :
    ∀ (ls : List (String × Option String)) (index : ℕ),
    index ≤ (asBytes text).length → (asBytes text).length - index < n →
    (∀ l ∈ ls, IsPart text l.1 ∧ ∀ a ∈ l.2, IsPart text a) →
    Returns (optionLoop rules text n ls index) fun f => ∀ l ∈ f,
      IsPart text l.1 ∧ ∀ a ∈ l.2, IsPart text a := by
  induction n with
  | zero => intro ls index _ hn; omega
  | succ n ih =>
    intro ls index hle hn hl
    unfold optionLoop
    by_cases hin : index < (asBytes text).length
    · rw [if_pos hin]
      split
      · exact ih ls (index + 1) (by omega) (by omega) hl
      rename_i hd
      have hby : (asBytes text)[index]? = some dash := by
        by_contra hne
        exact hd (.inl hne)
      obtain ⟨f, hf, hs⟩ := @literalWordEnd_returns text index hle
      simp only [hf, Option.bind_eq_bind, Option.bind_some]
      cases f with
      | none => exact returns_none _
      | some stop =>
        have hlt : index < stop := literalWordEnd_lt hby (by decide) hf
        obtain ⟨-, he⟩ := hs stop rfl
        have hlen := isCharBoundary_le he
        obtain ⟨o, ho⟩ := exists_slice hlt.le (isCharBoundary_of_ascii hby (by decide)).1 he
        simp only [ho, Option.bind_some]
        -- an option, with or without an argument, is recorded
        have hr : ∀ (a : Option String) (next : ℕ), stop ≤ next →
            next ≤ (asBytes text).length → (∀ p ∈ a, IsPart text p) →
            Returns (optionLoop rules text n (ls ++ [(o, a)]) next) fun f => ∀ l ∈ f,
                IsPart text l.1 ∧ ∀ a ∈ l.2, IsPart text a := by
          intro a next hst hnext ha
          refine ih _ next hnext (by omega) fun l hli => ?_
          rcases List.mem_append.mp hli with hol | hnew
          · exact hl l hol
          · rw [List.mem_singleton.mp hnew]
            exact ⟨⟨_, _, ho⟩, ha⟩
        have hno : ∀ p ∈ (none : Option String), IsPart text p :=
          fun _ h => absurd h (Option.not_mem_none _)
        split
        · exact ih ls stop hlen (by omega) hl
        split
        · exact hr none stop le_rfl hlen hno
        set as := scanWhile isAsciiWhitespace (asBytes text) (asBytes text).length stop
          with hargumentStart
        split
        · exact hr none stop le_rfl hlen hno
        rename_i hm
        have h' : as ≤ (asBytes text).length := scanWhile_le hlen
        have hl' : as < (asBytes text).length := by omega
        have hsc : stop ≤ as := le_scanWhile
        obtain ⟨b, hb, hsp⟩ := @scanWhile_stops isAsciiWhitespace (asBytes text)
          (asBytes text).length stop le_rfl hl'
        rw [← hargumentStart] at hb
        obtain ⟨f', hf', hs'⟩ := @literalWordEnd_returns text as h'
        simp only [hf', Option.bind_some]
        cases f' with
        | none => exact returns_none _
        | some ne =>
          obtain ⟨hnex, he'⟩ := hs' ne rfl
          -- the argument follows a blank, or stands where the option ended
          have hbo : isCharBoundary text as = true := by
            by_cases heq : as = stop
            · rw [heq]
              exact he
            · obtain ⟨bl, hbl, hp⟩ := @scanWhile_passes isAsciiWhitespace (asBytes text)
                (asBytes text).length stop (as - 1) (by omega) (by omega)
              have haf := (isCharBoundary_of_ascii hbl (ascii_of_isAsciiWhitespace hp)).2
              rwa [Nat.sub_add_cancel (by omega)] at haf
          obtain ⟨a, ha⟩ := exists_slice hnex hbo he'
          simp only [hb, ha, Option.bind_some]
          refine hr (some a) _ ?_ ?_ ?_
          · split <;> omega
          · split
            · exact isCharBoundary_le he'
            · exact hlen
          · intro p hpa
            obtain rfl := Option.mem_some.mp hpa
            exact ⟨_, _, ha⟩
    · rw [if_neg hin]
      exact returns_some hl

theorem optionLiterals_returns (rules : AskRules) (text : String) :
    Returns (optionLiterals rules text) fun f => ∀ l ∈ f,
      IsPart text l.1 ∧ ∀ a ∈ l.2, IsPart text a :=
  optionLoop_returns rules _ [] 0 (Nat.zero_le _) (by omega) fun _ h => absurd h List.not_mem_nil

/-! ## Marked code is sliced at its delimiters -/

theorem literalLoop_returns (n : ℕ) : ∀ (f : LiteralText) (c index : ℕ),
    index ≤ (asBytes text).length → (asBytes text).length - index < n → c ≤ index →
    isCharBoundary text c = true →
    AtRuns (asBytes text) 0 (asBytes text).length index →
    (∀ p ∈ f.code, IsPart text p) →
    Returns (literalLoop text (askInlineCodeEnds (asBytes text) 0 (asBytes text).length) n f
      c index) fun f => ∀ p ∈ f.code, IsPart text p := by
  induction n with
  | zero => intro f c index _ hn; omega
  | succ n ih =>
    intro f c index hle hn hco hbo hr hc
    unfold literalLoop
    by_cases hin : index < (asBytes text).length
    · rw [if_pos hin]
      split
      · rename_i ho
        exact ih f c (index + 1) (by omega) (by omega) (by omega) hbo (hr.other ho) hc
      rename_i hba
      have hb : (asBytes text)[index]? = some backtick := not_not.mp hba
      have hbI := (isCharBoundary_of_ascii hb (by decide)).1
      obtain ⟨hrun, hru⟩ := scanWhile_backtick hin hb
      set re := scanWhile (· = backtick) (asBytes text) (asBytes text).length index
        with hrunEndDef
      have hw : index + (((asBytes text).drop index).takeWhile (· = backtick)).length = re := by
        rw [hrunEndDef, scanWhile, List.take_length]
      simp only [hw]
      have hs : (index, re) ∈ runsFrom (asBytes text) (asBytes text).length index := by
        rw [runsFrom_backtick hin hb]
        exact List.mem_cons_self
      split
      · exact ih f c re hru.1 (by omega) (by omega) hbo (hr.behind hs) hc
      cases he : (askInlineCodeEnds (asBytes text) 0 (asBytes text).length)[index]? with
      | none => exact returns_none _
      | some stop =>
        -- the closer is a later run of the same width
        rw [askInlineCodeEnds_eq hr hin hb, ← hrunEndDef] at he
        obtain ⟨run, hf, rfl⟩ := Option.map_eq_some_iff.mp he
        have hm := List.mem_of_find?_eq_some hf
        have hsa : run.2 - run.1 = re - index := by simpa using List.find?_some hf
        obtain ⟨hbeh, hlt, hen, hop, -⟩ := runsFrom_split hm
        have hsu : checkedSub run.2
            (((asBytes text).drop index).takeWhile (· = backtick)).length = some run.1 := by
          unfold checkedSub
          rw [if_pos (by omega)]
          congr 1
          omega
        obtain ⟨pa, hp⟩ := exists_slice hbeh hru.isCharBoundary
          (isCharBoundary_of_ascii hop (by decide)).1
        obtain ⟨b, hbe⟩ := exists_slice hco hbo hbI
        simp only [hsu, hp, hbe, Option.bind_eq_bind, Option.bind_some]
        refine ih _ run.2 run.2 hen.1 (by omega) le_rfl hen.isCharBoundary
          ((hr.behind hs).behind hm) fun p hpa => ?_
        rcases List.mem_append.mp hpa with h | hne
        · exact hc p h
        · rw [List.mem_singleton.mp hne]
          exact ⟨_, _, hp⟩
    · rw [if_neg hin]
      obtain ⟨r, hre⟩ := exists_slice_behind hbo
      simp only [hre, Option.bind_eq_bind, Option.bind_some]
      exact returns_some hc

theorem literalText_returns (text : String) :
    Returns (literalText text) fun f => ∀ p ∈ f.code, IsPart text p := by
  refine literalLoop_returns _ _ 0 0 (Nat.zero_le _) (by omega) le_rfl (isCharBoundary_zero text)
    ⟨[], rfl, fun _ h => absurd h List.not_mem_nil⟩ fun _ h => absurd h List.not_mem_nil

/-! ## Matches are slices -/

theorem splitAtText_eq_some {p text f r : String}
    (h : splitAtText p text = some (f, r)) : text = f ++ p ++ r := by
  obtain ⟨ps, hp, heq⟩ := Option.map_eq_some_iff.mp h
  obtain ⟨rfl, rfl⟩ := Prod.mk.inj heq
  rw [← String.toList_inj, RustText.splitAtPattern_eq_some hp]
  simp

theorem matchesFrom_spec {p w : String} (n : ℕ) : ∀ (position : ℕ) (f text : String),
    w = f ++ text → position = f.utf8ByteSize →
    ∀ start ∈ matchesFrom p n position text, slice w start (start + p.utf8ByteSize) = some p := by
  induction n with
  | zero => exact fun _ _ _ _ _ _ h => absurd h List.not_mem_nil
  | succ n ih =>
    intro position f text hw hp start hs
    unfold matchesFrom at hs
    split at hs
    · exact absurd hs List.not_mem_nil
    · rename_i b r hsp
      have ht := splitAtText_eq_some hsp
      rcases List.mem_cons.mp hs with rfl | hl
      · refine slice_eq_some_iff.mpr ⟨f ++ b, r, ?_, ?_, rfl⟩
        · rw [hw, ht]
          simp only [String.append_assoc]
        · rw [String.utf8ByteSize_append, hp]
      · refine ih _ (f ++ b ++ p) r ?_ ?_ start hl
        · rw [hw, ht]
          simp only [String.append_assoc]
        · rw [String.utf8ByteSize_append, String.utf8ByteSize_append, hp]

theorem slice_of_mem_matchIndices {p text : String} (h : start ∈ matchIndices p text) :
    slice text start (start + p.utf8ByteSize) = some p :=
  matchesFrom_spec _ 0 "" text (by simp) rfl start h

theorem slice_of_findText {p text : String} (h : findText p text = some start) :
    slice text start (start + p.utf8ByteSize) = some p := by
  obtain ⟨⟨f, r⟩, hs, rfl⟩ := Option.map_eq_some_iff.mp h
  exact slice_eq_some_iff.mpr ⟨f, r, splitAtText_eq_some hs, rfl, rfl⟩

theorem wholeMatch_returns (rules : AskRules) {l : String}
    (h : slice text start (start + l.utf8ByteSize) = some l) :
    Returns (wholeMatch rules text l start) fun stop => isCharBoundary text stop = true := by
  obtain ⟨hst, hs, -⟩ := boundaries_of_slice h
  obtain ⟨b, hb⟩ := exists_slice_before hst
  obtain ⟨behind, hbe⟩ := exists_slice_behind hs
  have hl : ∃ left, leftWhole rules text l start = some left := by
    unfold leftWhole
    rw [hb]
    split
    · exact ⟨_, rfl⟩
    · split <;> exact ⟨_, rfl⟩
  have hr : ∃ right, rightWhole rules text l (start + l.utf8ByteSize) = some right := by
    unfold rightWhole
    rw [hbe]
    split
    · exact ⟨_, rfl⟩
    · split <;> exact ⟨_, rfl⟩
  obtain ⟨left, hl⟩ := hl
  obtain ⟨right, hr⟩ := hr
  unfold wholeMatch
  simp only [hl, hr, Option.bind_eq_bind, Option.bind_some]
  split
  · exact returns_some hs
  · exact returns_none _

theorem firstWholeMatch_returns (rules : AskRules) {l : String} {o : ℕ} {ss : List ℕ}
    (h : ∀ start ∈ ss, slice text (o + start) (o + start + l.utf8ByteSize) = some l) :
    Returns (firstWholeMatch rules text l o ss) fun stop => isCharBoundary text stop = true := by
  induction ss with
  | nil => exact returns_none _
  | cons start ss ih =>
    obtain ⟨f, hf, hs⟩ := wholeMatch_returns rules (h start List.mem_cons_self)
    unfold firstWholeMatch
    simp only [hf, Option.bind_eq_bind, Option.bind_some]
    cases f with
    | some stop => exact returns_some (hs stop rfl)
    | none => exact ih fun la hl => h la (List.mem_cons_of_mem start hl)

theorem orderedLiterals_returns (rules : AskRules) (ls : List String) :
    ∀ o, isCharBoundary text o = true → ∃ f, orderedLiterals rules text o ls = some f := by
  induction ls with
  | nil => exact fun _ _ => ⟨true, rfl⟩
  | cons l ls ih =>
    intro o ho
    unfold orderedLiterals
    split
    · exact ih o ho
    · obtain ⟨r, hr⟩ := exists_slice_behind ho
      obtain ⟨f, hf, hsp⟩ := @firstWholeMatch_returns text rules l o
        (matchIndices l r) fun start hs => by
          have hp := slice_slice hr (slice_of_mem_matchIndices hs)
          rwa [← Nat.add_assoc] at hp
      simp only [hr, hf, Option.bind_eq_bind, Option.bind_some]
      cases f with
      | none => exact ⟨false, rfl⟩
      | some position => exact ih position (hsp position rfl)

/-! ## Instructions are sliced at their words -/

theorem payloadLoop_returns (ws : List String) : ∀ o, isCharBoundary text o = true →
    Returns (payloadLoop text o ws) fun f => IsPart text f.1 := by
  induction ws with
  | nil => exact fun _ _ => returns_none _
  | cons word ws ih =>
    intro o ho
    obtain ⟨r, hr⟩ := exists_slice_behind ho
    unfold payloadLoop
    simp only [hr, Option.bind_eq_bind, Option.bind_some]
    cases hf : findText word r with
    | none => exact returns_none _
    | some position =>
      have hw := slice_slice hr (slice_of_findText hf)
      rw [← Nat.add_assoc] at hw
      obtain ⟨hst, hs, -⟩ := boundaries_of_slice hw
      obtain ⟨b, hb⟩ := exists_slice_before hst
      obtain ⟨behind, hbe⟩ := exists_slice_behind hs
      simp only [hb, hbe, Option.bind_some]
      split
      · split
        · exact returns_some ⟨_, _, hb⟩
        · exact ih _ hs
      · exact ih _ hs

/-- The content of a list item starts at a boundary. -/
theorem isCharBoundary_askListContentStart (text : String) : isCharBoundary text
    ((askListContentStart (asBytes text) 0 (asBytes text).length).getD 0) = true := by
  cases hl : askListContentStart (asBytes text) 0 (asBytes text).length with
  | none => exact isCharBoundary_zero text
  | some first =>
    obtain ⟨-, hp⟩ := askListContentStart_spec hl (Nat.zero_le _)
    rw [Option.getD_some]
    cases first with
    | zero => exact isCharBoundary_zero text
    | succ l =>
      obtain ⟨b, hb, ha, -⟩ := hp l (Nat.zero_le _) (Nat.lt_succ_self _)
      exact (isCharBoundary_of_ascii hb ha).2

theorem instructionPayload_returns (text : String) : ∃ f, instructionPayload text = some f := by
  obtain ⟨it, hi⟩ := exists_slice_behind (isCharBoundary_askListContentStart (trim text))
  obtain ⟨f, hf, -⟩ := payloadLoop_returns (splitWhitespace it) 0 (isCharBoundary_zero it)
  unfold instructionPayload
  simp only [hi, hf, Option.bind_eq_bind, Option.bind_some]
  exact ⟨f, rfl⟩

/-! ## Agreement returns -/

theorem plainCompatible_returns (rules : AskRules) (left right : String) :
    ∃ v, plainCompatible rules left right = some v := by
  obtain ⟨las, hl, -⟩ := assignmentLiterals_returns rules left
  obtain ⟨ras, hr, -⟩ := assignmentLiterals_returns rules right
  obtain ⟨los, hle, -⟩ := optionLiterals_returns rules left
  obtain ⟨ros, hri, -⟩ := optionLiterals_returns rules right
  obtain ⟨lpa, hlef⟩ := instructionPayload_returns left
  obtain ⟨rp, hrig⟩ := instructionPayload_returns right
  unfold plainCompatible
  simp only [hl, hr, hle, hri, hlef, hrig, Option.bind_eq_bind, Option.bind_some]
  split
  · exact ⟨_, rfl⟩
  · split
    · exact ⟨_, rfl⟩
    · exact ⟨_, rfl⟩

theorem literalsCompatible_returns (rules : AskRules) (left right : String) :
    ∃ v, literalsCompatible rules left right = some v := by
  unfold literalsCompatible
  split
  · exact ⟨_, rfl⟩
  split
  · exact ⟨_, rfl⟩
  obtain ⟨lte, hl, -⟩ := literalText_returns left
  obtain ⟨rt, hr, -⟩ := literalText_returns right
  simp only [hl, hr, Option.bind_eq_bind, Option.bind_some]
  split
  · rename_i left right
    obtain ⟨ir, hi⟩ := orderedLiterals_returns rules left.code 0 (isCharBoundary_zero right.plain)
    obtain ⟨il, hin⟩ := orderedLiterals_returns rules right.code 0 (isCharBoundary_zero left.plain)
    obtain ⟨v, hv⟩ := plainCompatible_returns rules left.plain right.plain
    simp only [containsOrderedLiterals, hi, hin, hv, Option.bind_some]
    split
    · exact ⟨_, rfl⟩
    · split
      · exact ⟨_, rfl⟩
      · split
        · exact ⟨_, rfl⟩
        · exact ⟨_, rfl⟩
  · exact ⟨_, rfl⟩

/-- **The command-literal guard never cuts a character and always stops.** It gives a verdict on
any two texts.  Each scanner reaches an end: a word ends at a boundary behind its start, and the
code, assignments and options that are found are slices of the text. -/
theorem literal_guard_never_cuts (rules : AskRules) :
    (∀ left right, ∃ verdict, literalsCompatible rules left right = some verdict) ∧ ∀ text,
        Returns (literalText text) (fun found => ∀ part ∈ found.code, IsPart text part)
          ∧ (∀ start ≤ (asBytes text).length, Returns (literalWordEnd text start) fun stop =>
            start ≤ stop ∧ stop ≤ (asBytes text).length ∧ isCharBoundary text stop = true)
          ∧ Returns (assignmentLiterals rules text) (fun found =>
            ∀ literal ∈ found, IsPart text literal)
          ∧ Returns (optionLiterals rules text) (fun found => ∀ literal ∈ found,
            IsPart text literal.1 ∧ ∀ argument ∈ literal.2, IsPart text argument)
          ∧ (∀ literals, ∃ found, containsOrderedLiterals rules text literals = some found)
          ∧ ∃ found, instructionPayload text = some found := by
  refine ⟨literalsCompatible_returns rules, fun text => ⟨literalText_returns text, ?_,
    assignmentLiterals_returns rules text, optionLiterals_returns rules text, ?_,
    instructionPayload_returns text⟩⟩
  · intro start hst
    refine (literalWordEnd_returns hst).mono fun stop hs => ?_
    exact ⟨hs.1, isCharBoundary_le hs.2, hs.2⟩
  · exact fun literals => orderedLiterals_returns rules literals 0 (isCharBoundary_zero text)

end Ask
