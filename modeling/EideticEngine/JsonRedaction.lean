/-
# Redaction inside JSON (`src/policy/ingestion_json_redaction.rs`)

Matches of credentials and personal data are found in the raw text of JSON records and in each
decoded string.  The walk reads one string literal after the other, brings raw matches to the
offsets of its decoded text, and prints the literal again with the matches replaced.  Every other
byte is copied.

The JSON library, the detectors and the record classifier are parameters.  An error and a failed
indexing are both `none`.
-/
import EideticEngine.ComparisonSort
import EideticEngine.SpanClusters
import EideticEngine.TextOrder
import EideticEngine.Utf8Slice

namespace JsonRedaction

open RustText (asBytes strCmp isWhitespace)
open Utf8Slice (slice trimStart)

structure SecretRedactionMatch where
  patternId : String
  start : ℕ
  stop : ℕ
  deriving DecidableEq

structure SecretRedactionReport where
  content : String
  redacted : Bool
  redactedReasons : List String
  matches' : List SecretRedactionMatch
  deriving DecidableEq

/-- What the walk uses of other modules: `parseString` and `printString` are the JSON library's,
for string literals; the others are detectors and validators of the policy. -/
structure Environment where
  parseString : String → Option String
  printString : String → Option String
  decodeRecords : String → Bool
  sameRecordClasses : String → String → Bool
  redactGitCaptureText : String → SecretRedactionReport
  isSecretRedactionPlaceholder : String → Bool
  keyValueRedactionCode : String → String → String
  secretKeyCodes : List String

def maxScanBytes : ℕ := 1024 * 1024

def redactionPlaceholder (scannerName : String) : String := "[REDACTED:" ++ scannerName ++ "]"

/-- The bytes of `"` and of the backslash. -/
def quoteByte : UInt8 := 0x22

def backslashByte : UInt8 := 0x5C

/-! ## Matches -/

/-- The order of pattern, start and end. -/
def patternCmp (a b : SecretRedactionMatch) : Ordering :=
  (strCmp a.patternId b.patternId).then
    ((compare a.start b.start).then (compare a.stop b.stop))

/-- The order of start, end and pattern. -/
def startCmp (a b : SecretRedactionMatch) : Ordering :=
  (compare a.start b.start).then
    ((compare a.stop b.stop).then (strCmp a.patternId b.patternId))

/-- Matches of one pattern that touch or overlap become one. -/
def mergeFrom (previous : SecretRedactionMatch) :
    List SecretRedactionMatch → List SecretRedactionMatch
  | [] => [previous]
  | matched :: rest =>
    if previous.patternId = matched.patternId ∧ matched.start ≤ previous.stop then
      mergeFrom { previous with stop := max previous.stop matched.stop } rest
    else previous :: mergeFrom matched rest

def merge : List SecretRedactionMatch → List SecretRedactionMatch
  | [] => []
  | matched :: rest => mergeFrom matched rest

def sortMatches (matches' : List SecretRedactionMatch) : List SecretRedactionMatch :=
  (merge (matches'.insertionSort fun a b => patternCmp a b ≠ .gt)).insertionSort
    fun a b => startCmp a b ≠ .gt

def isPii (patternId : String) : Bool :=
  patternId = "email_address" || patternId = "phone_number" || patternId = "ssn"

/-- Ranges, by their starts, that touch or overlap become one. -/
def coverFrom (previous : ℕ × ℕ) : List (ℕ × ℕ) → List (ℕ × ℕ)
  | [] => [previous]
  | range :: rest =>
    if range.1 ≤ previous.2 then coverFrom (previous.1, max previous.2 range.2) rest
    else previous :: coverFrom range rest

def cover : List (ℕ × ℕ) → List (ℕ × ℕ)
  | [] => []
  | range :: rest => coverFrom range rest

/-- Pairs in lexicographic order. -/
def sortPairs (pairs : List (ℕ × ℕ)) : List (ℕ × ℕ) :=
  pairs.insertionSort fun a b => (compare a.1 b.1).then (compare a.2 b.2) ≠ .gt

/-- The place of the first `@` between two places. -/
def findAt (text : String) (start stop : ℕ) : Option ℕ :=
  ((SpanClusters.between (asBytes text) start stop).findIdx? (· = 0x40)).map (start + ·)

/-- Personal data that credentials cover, or that ends with a password of a URL, is dropped. -/
def isShadowed (text : String) (matches' : List SecretRedactionMatch)
    (matched : SecretRedactionMatch) : Bool :=
  let urlPasswords := sortPairs ((matches'.filter fun m => m.patternId = "url_password").map
    fun m => (m.stop, m.start))
  let covered := cover (sortPairs ((matches'.filter fun m => !isPii m.patternId).map
    fun m => (m.start, m.stop)))
  let fully := ((covered.dropWhile fun range => range.2 ≤ matched.start).head?).any
    fun range => range.1 ≤ matched.start ∧ matched.stop ≤ range.2
  let password := matched.patternId = "email_address"
    ∧ (findAt text matched.start matched.stop).any fun place =>
      ((urlPasswords.dropWhile fun range => range.1 < place).head?).any
        fun range => range.1 = place ∧ range.2 ≤ matched.start ∧ matched.start < range.1
  isPii matched.patternId && (fully || decide password)

def discardShadowedPii (text : String) (matches' : List SecretRedactionMatch) :
    List SecretRedactionMatch :=
  matches'.filter fun matched => !isShadowed text matches' matched

/-! ## String literals -/

/-- A string literal: its places in the source, its decoded text, and the pairs of source and
decoded offsets of its characters. -/
structure JsonString where
  quote : ℕ
  stop : ℕ
  text : String
  boundaries : List (ℕ × ℕ)

/-- The closing quote, past escapes. -/
def closingQuote (bytes : List UInt8) : ℕ → ℕ → Option ℕ
  | 0, _ => none
  | fuel + 1, cursor =>
    match bytes[cursor]? with
    | none => none
    | some byte =>
      if byte = quoteByte then some cursor
      else if byte = backslashByte then closingQuote bytes fuel (cursor + 2)
      else closingQuote bytes fuel (cursor + 1)

/-- The bytes that a character takes in the source. -/
def sourceWidth (bytes : List UInt8) (source : ℕ) (c : Char) : ℕ :=
  if bytes[source]? = some backslashByte then
    if bytes[source + 1]? = some 0x75 then if c.utf8Size = 4 then 12 else 6 else 2
  else c.utf8Size

def boundariesFrom (bytes : List UInt8) (source decoded : ℕ) : List Char → List (ℕ × ℕ)
  | [] => [(source, decoded)]
  | c :: chars =>
    (source, decoded)
      :: boundariesFrom bytes (source + sourceWidth bytes source c) (decoded + c.utf8Size) chars

def JsonString.read (environment : Environment) (input : String) (quote : ℕ) :
    Option JsonString :=
  (closingQuote (asBytes input) ((asBytes input).length + 1) (quote + 1)).bind fun cursor =>
    ((slice input quote (cursor + 1)).bind environment.parseString).bind fun text =>
      let boundaries := boundariesFrom (asBytes input) (quote + 1) 0 text.toList
      if (boundaries.getLast?.map Prod.fst) = some cursor then
        some ⟨quote, cursor + 1, text, boundaries⟩
      else none

/-- The decoded offset of a place in the source, outward to whole characters. -/
def JsonString.decodedOffset (token : JsonString) (source : ℕ) (atEnd : Bool) : Option ℕ :=
  match token.boundaries.find? (·.1 = source) with
  | some boundary => some boundary.2
  | none =>
    let index := token.boundaries.countP (·.1 < source)
    if 0 < index ∧ index < token.boundaries.length then
      (token.boundaries[if atEnd then index else index - 1]?).map Prod.snd
    else none

def JsonString.sourceOffset (token : JsonString) (decoded : ℕ) : Option ℕ :=
  (token.boundaries.find? (·.2 = decoded)).map Prod.fst

/-! ## The walk -/

def startsWithChar (c : Char) (text : String) : Bool := (trimStart text).toList.head? = some c

def endsWithChar (c : Char) (text : String) : Bool :=
  (text.toList.rdropWhile isWhitespace).getLast? = some c

section

variable (environment : Environment) (input : String)

def alreadyRedacted (text : String) (matched : SecretRedactionMatch) : Bool :=
  (slice text matched.start matched.stop).any fun value =>
    if matched.patternId = "url_password" then value = redactionPlaceholder "url_password"
    else environment.isSecretRedactionPlaceholder value

/-- Bring a raw match to the decoded text of a token. -/
def addIncoming (token : JsonString) (found : List SecretRedactionMatch)
    (matched : SecretRedactionMatch) : Option (List SecretRedactionMatch) :=
  if alreadyRedacted environment input matched then some found
  else if matched.start < token.quote + 1 then
    if matched.patternId = "url_password" ∧ matched.start = token.quote
        ∧ (slice input 0 token.quote).any (endsWithChar ':') then some found
    else none
  else
    (token.decodedOffset matched.start false).bind fun localStart =>
      if token.stop - 1 < matched.stop then
        let yaml := ((asBytes input)[matched.start]? = some 0x7C
            ∨ (asBytes input)[matched.start]? = some 0x3E)
          ∧ matched.patternId ∈ environment.secretKeyCodes
        if (yaml ∨ matched.patternId = "url_password")
            ∧ found.any (fun candidate => candidate.patternId = matched.patternId
              ∧ candidate.start = localStart) then some found
        else none
      else
        (token.decodedOffset matched.stop true).map fun localStop =>
          found ++ [⟨matched.patternId, localStart, localStop⟩]

/-- The code of a match, by its value. -/
def recode (text : String) (matched : SecretRedactionMatch) : Option SecretRedactionMatch :=
  (slice text matched.start matched.stop).map fun value =>
    { matched with patternId := environment.keyValueRedactionCode matched.patternId value }

/-- The matches of a token that are retained. -/
def retainedMatches (token : JsonString) (incoming : List SecretRedactionMatch) :
    Option (List SecretRedactionMatch) :=
  let decoded := (environment.redactGitCaptureText token.text).matches'.filter fun matched =>
    !alreadyRedacted environment token.text matched
  (incoming.foldlM (addIncoming environment input token) decoded).bind fun found =>
    (found.mapM (recode environment token.text)).map fun found =>
      sortMatches (discardShadowedPii token.text found)

/-- The decoded text with its matches replaced. -/
def rewriteFrom (text : String) : ℕ → String → List SecretRedactionMatch → Option String
  | consumed, rewritten, [] =>
    (slice text consumed (asBytes text).length).map fun part => rewritten ++ part
  | consumed, rewritten, matched :: rest =>
    if consumed ≤ matched.start then
      (slice text consumed matched.start).bind fun part =>
        rewriteFrom text (max consumed matched.stop)
          (rewritten ++ part ++ redactionPlaceholder matched.patternId) rest
    else rewriteFrom text (max consumed matched.stop) rewritten rest

/-- The matches that are reported, in the source. -/
def sourceMatch (token : JsonString) (matched : SecretRedactionMatch) :
    Option SecretRedactionMatch :=
  (token.sourceOffset matched.start).bind fun start =>
    (token.sourceOffset matched.stop).map fun stop => ⟨matched.patternId, start, stop⟩

structure WalkState where
  cursor : ℕ
  nextMatch : ℕ
  output : String
  applied : List SecretRedactionMatch
  reasons : List String
  previousString : Option (ℕ × ℕ)

/-- The report of a key and its value, with the offset of the key. -/
def pairReport (previousString : Option (ℕ × ℕ)) (quote stop : ℕ) :
    Option (List SecretRedactionMatch × List String) :=
  match previousString with
  | none => some ([], [])
  | some (keyStart, keyEnd) =>
    (slice input keyEnd quote).bind fun middle =>
      if startsWithChar ':' middle then
        (slice input keyStart stop).map fun pair =>
          let report := environment.redactGitCaptureText pair
          let shifted := report.matches'.map fun m =>
            { m with start := m.start + keyStart, stop := m.stop + keyStart }
          (shifted.filter fun m => keyEnd < m.stop, report.redactedReasons)
      else some ([], [])

/-- The literal in the output: the same one when nothing is replaced. -/
def replacementLiteral (token : JsonString) (literal : String)
    (retained : List SecretRedactionMatch) : Option String :=
  if retained = [] then some literal
  else (rewriteFrom token.text 0 "" retained).bind environment.printString

/-- One string literal. -/
def walkString (whole : List SecretRedactionMatch) (state : WalkState) (quote : ℕ) :
    Option WalkState :=
  (JsonString.read environment input quote).bind fun token =>
    (pairReport environment input state.previousString quote token.stop).bind fun pair =>
      let raw := (whole.drop state.nextMatch).takeWhile fun m => m.start < token.stop
      (retainedMatches environment input token (raw ++ pair.1)).bind fun retained =>
        (retained.mapM (sourceMatch token)).bind fun applied =>
          (slice input state.cursor quote).bind fun gap =>
            (slice input quote token.stop).bind fun literal =>
              (replacementLiteral environment token literal retained).bind fun replacement =>
                let output := state.output ++ gap ++ replacement
                if maxScanBytes < (asBytes output).length then none
                else some
                  { cursor := token.stop
                    nextMatch := state.nextMatch + raw.length
                    output := output
                    applied := state.applied ++ applied
                    reasons := state.reasons
                      ++ (environment.redactGitCaptureText token.text).redactedReasons ++ pair.2
                    previousString := some (quote, token.stop) }

/-- The next quote. -/
def findQuote (cursor : ℕ) : Option ℕ :=
  (((asBytes input).drop cursor).findIdx? (· = quoteByte)).map (cursor + ·)

/-- The loop; each round passes a literal, so `fuel` is the number of bytes. -/
def walk (whole : List SecretRedactionMatch) : ℕ → WalkState → Option WalkState
  | 0, _ => none
  | fuel + 1, state =>
    match findQuote input state.cursor with
    | none => some state
    | some quote => (walkString environment input whole state quote).bind (walk whole fuel)

/-- A key without a string value whose pair has a match past the key. -/
def danglingPair (previousString : Option (ℕ × ℕ)) : Option Bool :=
  match previousString with
  | none => some false
  | some (keyStart, keyEnd) =>
    (slice input keyEnd (asBytes input).length).bind fun rest =>
      (slice input keyStart (asBytes input).length).map fun pair =>
        startsWithChar ':' rest && (environment.redactGitCaptureText pair).matches'.any
          fun m => keyEnd < m.stop + keyStart

/-- The text is one that the walk rewrites. -/
def startsJson (text : String) : Bool :=
  startsWithChar (Char.ofNat 0x7B) text || startsWithChar '[' text

/-- What is reported after the walk. -/
def finish (whole : List SecretRedactionMatch) (state : WalkState) : Option SecretRedactionReport :=
  if state.nextMatch = whole.length then
    (danglingPair environment input state.previousString).bind fun dangling =>
      if dangling then none
      else
        (slice input state.cursor (asBytes input).length).bind fun rest =>
          let output := state.output ++ rest
          if environment.sameRecordClasses input output then
            let applied := sortMatches state.applied
            let reasons := state.reasons.filter fun reason => applied.any (·.patternId = reason)
            some
              { content := output
                redacted := applied ≠ []
                redactedReasons := (reasons.insertionSort fun a b => strCmp a b ≠ .gt).destutter
                  (· ≠ ·)
                matches' := applied }
          else none
  else none

def preserveJsonStrings (original : SecretRedactionReport) : Option SecretRedactionReport :=
  if !original.redacted || !startsJson input then some original
  else if environment.decodeRecords input then
    let whole := sortMatches original.matches'
    (walk environment input whole ((asBytes input).length + 1)
      ⟨0, 0, "", [], original.redactedReasons, none⟩).bind (finish environment input whole)
  else none

end

end JsonRedaction
