/-
# What ask reads in a text

The tests that `src/core/ask.rs` and `src/core/ask_clustering.rs` apply to the text of a
passage: its terms, its polarity, its numeric literals and the setting it states.  Admission,
clustering and composition share them, and the two sides of a conflict are not empty because
of it.

The Unicode classes and the parsers of numeric and ordering claims are parameters.
-/
import EideticEngine.AskOrdering
import EideticEngine.F32
import EideticEngine.Provenance
import EideticEngine.StableSort
import EideticEngine.TextOrder

namespace Ask

open RustText (isControl isWhitespace trim splitWhitespace strCmp splitOnceChar)
open Provenance (toAsciiLowercase)

/-- The tests of texts that are taken as they come. -/
structure AskRules where
  isUppercase : Char → Bool
  isAlphabetic : Char → Bool
  isAlphanumeric : Char → Bool
  isNumeric : Char → Bool
  /-- `numeric::conflicts`. -/
  numericConflicts : String → Bool → String → Bool → Bool
  /-- `numeric::settings_compatible`. -/
  settingsCompatible : String → String → Bool
  /-- The UUIDs of provenance URIs. -/
  uuids : Provenance.UuidCrate (Fin (2 ^ 128))

/-- The operations of `f32` that only ask uses. -/
class AskF32 (F : Type) extends F32 F where
  toBits : F → ℕ
  toBits_injective : Function.Injective toBits
  ln : F → F

/-- The logarithm is exact at one. -/
instance : AskF32 ℚ where
  toBits := Encodable.encode
  toBits_injective := Encodable.encode_injective
  ln x := x - 1

/-! ## Terms and polarity -/

/-- `str::split` at the characters with a property. -/
def splitChars (p : Char → Bool) (text : String) : List String :=
  (text.toList.splitOnP p).map String.ofList

/-- `str::trim_end_matches` with a set of characters. -/
def trimEndChars (chars : List Char) (text : String) : String :=
  String.ofList (text.toList.rdropWhile (· ∈ chars))

def stopwords : List String :=
  ["a", "an", "the", "is", "are", "was", "were", "be", "been", "being", "have", "has", "had",
    "do", "does", "did", "will", "would", "could", "should", "may", "might", "shall", "can", "to",
    "of", "in", "for", "on", "with", "at", "by", "from", "as", "or", "and", "but", "not", "it",
    "its", "this", "that", "these", "those", "so", "if", "then", "than", "also", "up", "into",
    "about", "such", "only", "each",
    "what", "which", "who", "whom", "whose", "when", "where", "why", "how", "must", "need"]

def negationWords : List String :=
  ["not", "never", "no", "neither", "nor", "cannot", "can't", "won't", "doesn't", "isn't",
    "aren't", "wasn't", "weren't", "didn't", "don't", "impossible", "incorrect", "wrong", "false",
    "invalid"]

def apostrophe : Char := Char.ofNat 0x27

section Rules

variable (rules : AskRules)

/-- The terms of a text, sorted and without repetition. -/
def tokenizeForAsk (text : String) : List String :=
  let tokens := ((splitChars (fun c => !rules.isAlphanumeric c && c ≠ '_') text).filter
    (· ≠ "")).map toAsciiLowercase
  (StableSort.sortBy strCmp
    (tokens.filter fun t => 1 < t.utf8ByteSize ∧ t ∉ stopwords)).destutter (· ≠ ·)

/-- Whether a negation word occurs. -/
def hasNegation (text : String) : Bool :=
  negationWords.any fun negation =>
    negation ∈ splitChars (fun c => !rules.isAlphabetic c && c ≠ apostrophe)
      (toAsciiLowercase text)

end Rules

/-- The trust that a class of sources carries. -/
def trustTilt {F : Type} [F32 F] (trustClass : String) : F :=
  if trustClass = "human_explicit" then F32.lit 1
  else if trustClass = "peer_human_attested" then F32.lit (92 / 100)
  else if trustClass = "agent_validated" then F32.lit (85 / 100)
  else if trustClass = "agent_assertion" then F32.lit (70 / 100)
  else if trustClass = "cass_evidence" then F32.lit (55 / 100)
  else if trustClass = "legacy_import" then F32.lit (40 / 100)
  else F32.lit (60 / 100)

section Topic

variable (F : Type) [F32 F]

/-- The Jaccard similarity of two sets of terms. -/
def jaccardSimilarity (a b : List String) : F :=
  if a = [] ∧ b = [] then F32.lit 0
  else
    let intersection := (a.toFinset ∩ b.toFinset).card
    let union := (a.toFinset ∪ b.toFinset).card
    if union = 0 then F32.lit 0 else F32.div (F32.castNat intersection) (F32.castNat union)

/-- Whether two passages are about one topic.  The binary search in the sorted terms finds
what they contain. -/
def sameConflictTopic (left right : List String) : Bool :=
  2 ≤ (left.filter (· ∈ right)).length
    && F32.le (F32.lit (1 / 2)) (jaccardSimilarity F left right)

/-- A positive count is not less than half of itself. -/
def HalvesCounts : Prop :=
  ∀ n : ℕ, 0 < n → F32.le (F32.lit (1 / 2) : F) (F32.div (F32.castNat n) (F32.castNat n)) = true

variable {F}

/-- **A passage that shares a topic with another shares it with itself.** -/
theorem sameConflictTopic_self (hF : HalvesCounts F) {left right : List String}
    (h : sameConflictTopic F left right = true) : sameConflictTopic F left left = true := by
  unfold sameConflictTopic at h ⊢
  rw [Bool.and_eq_true, decide_eq_true_eq] at h ⊢
  have hs : (left.filter (· ∈ right)).length ≤ left.length := List.length_filter_le _ _
  have hse : left.filter (· ∈ left) = left := by
    rw [List.filter_eq_self]
    intro t ht
    exact decide_eq_true ht
  have hl : 2 ≤ left.length := h.1.trans hs
  have hne : left ≠ [] := by
    rintro rfl
    simp at hl
  have hc : 0 < left.toFinset.card := by
    rw [Finset.card_pos]
    exact ⟨left.head hne, List.mem_toFinset.mpr (List.head_mem hne)⟩
  refine ⟨by rw [hse]; exact hl, ?_⟩
  unfold jaccardSimilarity
  rw [if_neg fun hn => hne hn.1, Finset.inter_self, Finset.union_self]
  simp only
  rw [if_neg hc.ne']
  exact hF _ hc

end Topic

/-! ## Literals and settings -/

/-- The characters that separate literals, apart from blanks. -/
def literalSeparators : List Char := ",;()[]\x7b\x7d\"'`".toList

def sentenceEnds : List Char := ".!?".toList

/-- The tokens with a digit, in order. -/
def numericLiterals (rules : AskRules) (text : String) : List String :=
  ((splitChars (fun c => isWhitespace c || c ∈ literalSeparators) text).filter
    fun token => token.toList.any rules.isNumeric).map (trimEndChars sentenceEnds)

/-- Whether two passages name the same literals, or one of them names none. -/
def sameNumericContext (rules : AskRules) (left right : String) : Bool :=
  numericLiterals rules left = [] || numericLiterals rules right = []
    || numericLiterals rules left = numericLiterals rules right

theorem sameNumericContext_self (rules : AskRules) (text : String) :
    sameNumericContext rules text text = true := by
  simp [sameNumericContext]

/-- A setting that a passage states. -/
structure CategoricalSetting where
  subject : List String
  value : String
  exactValue : Bool

def isAsciiAlphabetic (c : Char) : Bool := c.isAlpha

def isAsciiAlphanumeric (c : Char) : Bool := c.isAlphanum

/-- Words that qualify a statement. -/
def qualifiers : List String :=
  ["if", "unless", "when", "except", "either", "or", "and", "may", "might", "could", "can",
    "possible", "potential", "recommended", "preferred", "supported", "compatible", "perhaps",
    "probably", "apparently", "usually", "sometimes", "proposed", "planned", "hypothetical",
    "alternative", "optional", "expected", "assumed", "example"]

/-- The named settings. -/
def settingFields : List String :=
  ["backend", "engine", "mode", "format", "profile", "codec", "driver", "provider", "algorithm",
    "encoding", "protocol", "runtime"]

/-- Values that say nothing. -/
def openValues : List String :=
  ["unknown", "unspecified", "unavailable", "undetermined", "unset", "unconfigured", "pending",
    "tbd", "either"]

/-- The characters that rule a word out of a subject. -/
def subjectBreaks : List Char := ",;:!?\"'`()".toList

/-- The subject, the value and whether the subject is a machine key: `key=value`, or a named
setting that ends in `is VALUE`. -/
def settingParts (text : String) (words : List String) :
    Option (List String × String × Bool) :=
  match splitOnceChar '=' text with
  | some (key, value) =>
    let key := trim key
    if key.toList.head?.any (fun c => isAsciiAlphabetic c || c = '_')
        ∧ key.toList.all (fun c => isAsciiAlphanumeric c || c ∈ ['_', '-', '.']) then
      some (["=", key], trim value, true)
    else none
  | none =>
    -- The value is the last word, the copula the one before it.
    match words.reverse with
    | value :: copula :: field :: front =>
      let subject := (field :: front).reverse
      if eqIgnoreAsciiCase copula "is" = false then none
      else if subject.any fun word =>
          eqIgnoreAsciiCase word "is" || eqIgnoreAsciiCase word "are"
            || word.toList.any (· ∈ subjectBreaks) || word.toList.getLast? = some '.' then none
      else if toAsciiLowercase field ∉ settingFields then none
      else some (subject, value, false)
    | _ => none

/-- The value without its quotes, and whether it had them. -/
def unquote (rawValue : String) : Option (String × Bool) :=
  match rawValue.toList with
  | [] => none
  | quote :: rest =>
    if quote ∈ quoteMarks then
      if rest.getLast? = some quote then some (String.ofList rest.dropLast, true) else none
    else some (rawValue, false)

/-- The single setting that a passage states, if it states one. -/
def categoricalSetting (rules : AskRules) (text : String) : Option CategoricalSetting :=
  if hasNegation rules text || text.toList.any isControl then none
  else
    let text := trimEndChars sentenceEnds (trim text)
    let words := splitWhitespace text
    if words.any fun word => toAsciiLowercase word ∈ qualifiers then none
    else do
      let (subject, rawValue, machineKey) ← settingParts text words
      let (value, quoted) ← unquote rawValue
      if value.toList.head?.any isAsciiAlphabetic
          ∧ value.toList.all (fun c => isAsciiAlphanumeric c || c ∈ ['_', '-', '.'])
          ∧ toAsciiLowercase value ∉ openValues then
        some ⟨subject, value, machineKey || quoted⟩
      else none

/-- Two values for one subject. -/
def categoricalSettingsConflict : Option CategoricalSetting → Option CategoricalSetting → Bool
  | some left, some right =>
    left.subject = right.subject
      && if left.exactValue && right.exactValue then left.value ≠ right.value
        else !eqIgnoreAsciiCase left.value right.value
  | _, _ => false

def categoricalSettingsCompatible :
    Option CategoricalSetting → Option CategoricalSetting → Bool
  | none, none => true
  | some left, some right =>
    left.subject = right.subject && !categoricalSettingsConflict (some left) (some right)
  | _, _ => false

/-- Whether two passages state alternatives. -/
def numericConflict (rules : AskRules) (left right : String) : Bool :=
  orderingConflicts left right
    || rules.numericConflicts left (hasNegation rules left) right (hasNegation rules right)

end Ask
