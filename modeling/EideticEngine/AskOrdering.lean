/-
# Ordering claims

`src/core/ask_ordering.rs` reads a complete `Run A before B`, `Run A after B` or
`Run A then B then C` instruction as the list of its commands in the order in which they run.
Two such claims conflict when some pair of commands stands in opposite order, and they agree
when the lists are the same.

A parsed list has no repetition.
-/
import EideticEngine.Provenance

namespace Ask

open RustText (isControl isWhitespace joinSpace splitAtText trim trimEnd)
open Provenance (toAsciiLowercase)

/-! ## Parsing -/

def quoteMarks : List Char := "`'\"".toList

/-- `str::eq_ignore_ascii_case`. -/
def eqIgnoreAsciiCase (a b : String) : Bool := toAsciiLowercase a = toAsciiLowercase b

def maxOrderingBytes : ℕ := 8 * 1024

def maxSequenceCommands : ℕ := 8

/-- The commands of a claim in the order in which they run. -/
structure OrderingClaim where
  operations : List String
  deriving DecidableEq

/-- The words that condition or weaken an instruction. -/
def orderingQualifiers : List String :=
  ["if", "unless", "when", "whenever", "while", "until", "since", "during", "because", "except",
    "otherwise", "and", "or", "either", "not", "never", "no", "without", "only", "in", "on", "at",
    "for", "with", "may", "might", "can", "could", "should", "usually", "sometimes", "optionally",
    "perhaps", "probably", "recommended", "example"]

/-- The characters of shell syntax that grant no inference. -/
def shellMarks : List Char := ";|&<>()[]\x7b\x7d!?".toList

/-- The word that is being read. -/
def pendingWord (start : Option (List Char)) : List String :=
  (start.map String.ofList).toList

/-- The loop of `words`: the words so far, the word and the quote that are open. -/
def wordsLoop : List Char → List String → Option (List Char) → Option Char →
    Option (List String)
  | [], words, start, quote => if quote.isSome then none else some (words ++ pendingWord start)
  | c :: rest, words, start, quote =>
    if c = '\\' then none
    else
      match quote with
      | some delimiter =>
        wordsLoop rest words (start.map (· ++ [c])) (if c = delimiter then none else quote)
      | none =>
        if isWhitespace c then wordsLoop rest (words ++ pendingWord start) none none
        else if c = ',' then wordsLoop rest (words ++ pendingWord start ++ [","]) none none
        else
          let word := start.getD [] ++ [c]
          if c ∈ quoteMarks then wordsLoop rest words (some word) (some c)
          else if c ∈ shellMarks then none
          else wordsLoop rest words (some word) none

/-- The words of a text, where quoted blanks and commas belong to their word. -/
def orderingWords (text : String) : Option (List String) :=
  wordsLoop text.toList [] none none

/-- `strip_prefix` and then `strip_suffix` with a character. -/
def stripQuotes (quote : Char) (word : String) : Option String :=
  match word.toList with
  | [] => none
  | first :: rest =>
    if first = quote ∧ rest.getLast? = some quote then some (String.ofList rest.dropLast) else none

/-- The command that the words spell. -/
def orderingCommand (words : List String) : Option String := do
  let first ← words.head?
  let command ←
    if words.length = 1 then
      match first.toList.head? with
      | none => none
      | some quote => if quote ∈ quoteMarks then stripQuotes quote first else some first
    else some (joinSpace words)
  if trim command = "" then none else some command

/-- A segment without the comma before the next `then`. -/
def dropComma (segment : List String) (segments : List (List String)) : List String :=
  if segments ≠ [] ∧ segment.getLast? = some "," then segment.dropLast else segment

/-- The loop of `sequence` over the segments between the `then`s. -/
def sequenceLoop : List (List String) → List String → Option OrderingClaim
  | [], operations => if 2 ≤ operations.length then some ⟨operations⟩ else none
  | segment :: segments, operations =>
    if operations.length = maxSequenceCommands then none
    else if "," ∈ dropComma segment segments then none
    else
      match orderingCommand (dropComma segment segments) with
      | none => none
      | some operation =>
        if operation ∈ operations then none
        else sequenceLoop segments (operations ++ [operation])

def orderingSequence (words : List String) : Option OrderingClaim :=
  sequenceLoop (words.splitOnP fun word => eqIgnoreAsciiCase word "then") []

def isRelation (word : String) : Bool :=
  eqIgnoreAsciiCase word "before" || eqIgnoreAsciiCase word "after"

/-- The operand behind a relation, without the gerund of the operation. -/
def operandBehind (operation : String) (words : List String) : List String :=
  if words.head?.any fun word =>
      (eqIgnoreAsciiCase operation "run" && eqIgnoreAsciiCase word "running")
        || (eqIgnoreAsciiCase operation "execute" && eqIgnoreAsciiCase word "executing")
  then words.drop 1 else words

/-- A single `before` or `after` between two commands. -/
def singleEdge (operation : String) (words : List String) : Option OrderingClaim := do
  let position ← words.findIdx? isRelation
  let relation ← words[position]?
  if (words.drop (position + 1)).any isRelation ∨ position ≤ 1 then none
  else
    let left ← orderingCommand ((words.take position).drop 1)
    let right ← orderingCommand (operandBehind operation (words.drop (position + 1)))
    if left = right then none
    else if eqIgnoreAsciiCase relation "before" then some ⟨[left, right]⟩
    else some ⟨[right, left]⟩

/-- `strip_suffix('.')`, or the text itself, without blanks at the end. -/
def stripPeriod (text : String) : String :=
  trimEnd (if text.toList.getLast? = some '.' then String.ofList text.toList.dropLast else text)

/-- `claim` of the ordering constraints. -/
def orderingClaim (text : String) : Option OrderingClaim := do
  let text := stripPeriod (trim text)
  if maxOrderingBytes < text.utf8ByteSize ∨ text.toList.any isControl
      ∨ (splitAtText "``" text).isSome then none
  else
    let words ← orderingWords text
    let operation ← words.head?
    if !eqIgnoreAsciiCase operation "run" && !eqIgnoreAsciiCase operation "execute" then none
    else if words.any fun word => word.toList.getLast? = some '.'
        || toAsciiLowercase word ∈ orderingQualifiers then none
    else if words.any fun word => eqIgnoreAsciiCase word "then" then
      if words.any isRelation then none else orderingSequence (words.drop 1)
    else if "," ∈ words then none
    else singleEdge operation words

/-! ## Conflict and agreement -/

/-- Whether a pair of the first list stands in opposite order in the second. -/
def hasOppositePair (right : List String) : List String → Bool
  | [] => false
  | before :: later =>
    ((right.idxOf? before).any fun rightBefore =>
      later.any fun after => (right.idxOf? after).any fun rightAfter => rightAfter < rightBefore)
      || hasOppositePair right later

/-- `conflicts` of the ordering constraints. -/
def orderingConflicts (left right : String) : Bool :=
  match orderingClaim left, orderingClaim right with
  | some left, some right => hasOppositePair right.operations left.operations
  | _, _ => false

/-! ## A parsed list has no repetition -/

theorem sequenceLoop_nodup {ss : List (List String)} : ∀ {os : List String} {c : OrderingClaim},
      sequenceLoop ss os = some c → os.Nodup →
      c.operations.Nodup := by
  induction ss with
  | nil =>
    intro os c h hn
    unfold sequenceLoop at h
    split at h
    · obtain rfl := Option.some.inj h
      exact hn
    · cases h
  | cons s ss ih =>
    intro os c h hn
    unfold sequenceLoop at h
    split at h
    · cases h
    split at h
    · cases h
    split at h
    · cases h
    split at h
    · cases h
    · rename_i hne
      refine ih h ?_
      rw [List.nodup_append]
      refine ⟨hn, List.nodup_singleton _, fun a ha b hb heq => ?_⟩
      rw [List.mem_singleton.mp hb] at heq
      exact hne (heq ▸ ha)

theorem singleEdge_nodup {o : String} {ws : List String} {c : OrderingClaim}
    (h : singleEdge o ws = some c) : c.operations.Nodup := by
  unfold singleEdge at h
  obtain ⟨position, -, h⟩ := Option.bind_eq_some_iff.mp h
  obtain ⟨r, -, h⟩ := Option.bind_eq_some_iff.mp h
  split at h
  · cases h
  obtain ⟨left, -, h⟩ := Option.bind_eq_some_iff.mp h
  obtain ⟨right, -, h⟩ := Option.bind_eq_some_iff.mp h
  split at h
  · cases h
  · rename_i hne
    split at h
    · obtain rfl := Option.some.inj h
      simpa using hne
    · obtain rfl := Option.some.inj h
      simpa using Ne.symm hne

/-- **The commands of a claim are distinct.** -/
theorem orderingClaim_nodup {text : String} {c : OrderingClaim}
    (h : orderingClaim text = some c) : c.operations.Nodup := by
  unfold orderingClaim at h
  simp only at h
  split at h
  · cases h
  obtain ⟨ws, -, h⟩ := Option.bind_eq_some_iff.mp h
  obtain ⟨o, -, h⟩ := Option.bind_eq_some_iff.mp h
  split at h
  · cases h
  split at h
  · cases h
  split at h
  · split at h
    · cases h
    · exact sequenceLoop_nodup h List.nodup_nil
  split at h
  · cases h
  · exact singleEdge_nodup h

end Ask
