/-
# Search queries

The query parser of `src/search/query.rs` and its printer.  Every text parses: a clause is a
term or a quoted phrase, with a leading `-` when it excludes, and malformed syntax becomes an
ordinary term.  The printed form of a parsed query parses back to the same query.
-/
import EideticEngine.RustText

namespace SearchQuery

open RustText (isControl isWhitespace)

/-! ## The parser -/

/-- One clause of a query. -/
inductive SearchQueryClause
  | term (value : String)
  | phrase (value : String)
  | excludedTerm (value : String)
  | excludedPhrase (value : String)
  deriving DecidableEq, Repr

/-- `is_query_separator`. -/
def isQuerySeparator (c : Char) : Bool := isWhitespace c || isControl c

/-- `skip_separators`. -/
def skipSeparators (chars : List Char) : List Char := chars.dropWhile isQuerySeparator

/-- The loop of `parse_bare`: the characters up to a separator or a quote, with what is left.
An escaped quote ends the term and is dropped. -/
def parseBareTail : List Char → List Char × List Char
  | [] => ([], [])
  | next :: chars =>
    if isQuerySeparator next || next == '"' then ([], next :: chars)
    else if next = '\\' ∧ chars.head? = some '"' then ([], chars.tail)
    else ((next :: (parseBareTail chars).1), (parseBareTail chars).2)

/-- `parse_bare`: a leading escape keeps a literal `-` or a literal escape. -/
def parseBare : List Char → List Char × List Char
  | '\\' :: '-' :: chars => ('-' :: (parseBareTail chars).1, (parseBareTail chars).2)
  | '\\' :: '\\' :: chars => ('\\' :: (parseBareTail chars).1, (parseBareTail chars).2)
  | chars => parseBareTail chars

/-- `parse_unclosed_quoted_bare`: the same reading after a quote that nothing closes. -/
def parseUnclosedQuotedBare : List Char → List Char × List Char
  | [] => ([], [])
  | next :: chars =>
    if isQuerySeparator next then ([], next :: chars)
    else if next = '"' then ([], next :: chars)
    else if next = '\\' then
      if chars.head? = some '"' then ([], chars.tail)
      else ((next :: (parseUnclosedQuotedBare chars).1), (parseUnclosedQuotedBare chars).2)
    else ((next :: (parseUnclosedQuotedBare chars).1), (parseUnclosedQuotedBare chars).2)

/-- `remaining_contains_closing_quote`, from an `escaped` state. -/
def remainingContainsClosingQuote : Bool → List Char → Bool
  | _, [] => false
  | true, _ :: chars => remainingContainsClosingQuote false chars
  | false, next :: chars =>
    if next = '\\' then remainingContainsClosingQuote true chars
    else if next = '"' then true
    else remainingContainsClosingQuote false chars

/-- `push_quoted_printable`: what is pushed, and whether it ends in a space that stands for
control characters. -/
def pushQuotedPrintable (character : Char) (lastWasNormalizedSpace : Bool) : List Char × Bool :=
  if isControl character then
    if !lastWasNormalizedSpace then ([' '], true) else ([], lastWasNormalizedSpace)
  else ([character], false)

/-- `parse_quoted`, up to the closing quote. -/
def parseQuoted : Bool → List Char → List Char × List Char
  | _, [] => ([], [])
  | _, '"' :: chars => ([], chars)
  | _, ['\\'] => (['\\'], [])
  | last, '\\' :: escaped :: chars =>
    let pushed := pushQuotedPrintable escaped last
    let read := parseQuoted pushed.2 chars
    (pushed.1 ++ read.1, read.2)
  | last, other :: chars =>
    let pushed := pushQuotedPrintable other last
    let read := parseQuoted pushed.2 chars
    (pushed.1 ++ read.1, read.2)

/-- The clause of a value, the end of `parse_clause`. -/
def clauseOf (excluded quoted : Bool) (value : List Char) : Option SearchQueryClause :=
  if excluded && !quoted && value.isEmpty then some (.term "-")
  else if value.isEmpty then none
  else match excluded, quoted with
    | false, false => some (.term (String.ofList value))
    | false, true => some (.phrase (String.ofList value))
    | true, false => some (.excludedTerm (String.ofList value))
    | true, true => some (.excludedPhrase (String.ofList value))

/-- `parse_clause` after the exclusion marker. -/
def parseClauseBody (excluded : Bool) (chars : List Char) :
    Option SearchQueryClause × List Char :=
  match chars with
  | '"' :: chars =>
    if !remainingContainsClosingQuote false chars then
      let read := parseUnclosedQuotedBare chars
      if excluded && read.1.isEmpty then (some (.term "-"), read.2)
      else if read.1.isEmpty then (none, read.2)
      else if excluded then (some (.excludedTerm (String.ofList read.1)), read.2)
      else (some (.term (String.ofList read.1)), read.2)
    else
      let read := parseQuoted false chars
      (clauseOf excluded true read.1, read.2)
  | chars =>
    let read := parseBare chars
    (clauseOf excluded false read.1, read.2)

/-- `parse_clause`: the clause at the start of a text, if there is one, and what is left. -/
def parseClause : List Char → Option SearchQueryClause × List Char
  | '-' :: chars => parseClauseBody true chars
  | chars => parseClauseBody false chars

/-! ## The parser makes progress -/

theorem length_parseBareTail_le (chars : List Char) :
    (parseBareTail chars).2.length ≤ chars.length := by
  induction chars with
  | nil => simp [parseBareTail]
  | cons next chars ih =>
    unfold parseBareTail
    split
    · simp
    · split
      · simp only [List.length_tail, List.length_cons]
        omega
      · simp only [List.length_cons]
        omega

/-- The two loops that read a bare term are one. -/
theorem parseUnclosedQuotedBare_eq (chars : List Char) :
    parseUnclosedQuotedBare chars = parseBareTail chars := by
  induction chars with
  | nil => rfl
  | cons next chars ih =>
    unfold parseUnclosedQuotedBare parseBareTail
    rw [ih]
    by_cases hs : isQuerySeparator next = true
    · simp [hs]
    · by_cases hq : next = '"'
      · simp [hq]
      · by_cases he : next = '\\' <;> simp [hs, hq, he]

theorem length_parseQuoted_le (l : Bool) (chars : List Char) :
    (parseQuoted l chars).2.length ≤ chars.length := by
  fun_induction parseQuoted l chars with
  | case1 => simp
  | case2 => simp
  | case3 => simp
  | case4 l es chars p read ih =>
    have hr : read.2.length ≤ chars.length := ih
    simp only [List.length_cons]
    omega
  | case5 l other chars _ _ _ p read ih =>
    have hr : read.2.length ≤ chars.length := ih
    simp only [List.length_cons]
    omega

/-- A bare term takes the character it starts with. -/
theorem length_parseBareTail_lt {next : Char} {chars : List Char}
    (hs : isQuerySeparator next = false) (hq : next ≠ '"') :
    (parseBareTail (next :: chars)).2.length < (next :: chars).length := by
  have hle := length_parseBareTail_le chars
  unfold parseBareTail
  rw [if_neg (by simp [hs, hq])]
  split
  · simp only [List.length_tail, List.length_cons]
    omega
  · simp only [List.length_cons]
    omega

theorem length_parseBare_lt {next : Char} {chars : List Char}
    (hs : isQuerySeparator next = false) (hq : next ≠ '"') :
    (parseBare (next :: chars)).2.length < (next :: chars).length := by
  unfold parseBare
  split
  · rename_i r heq
    rw [heq]
    have := length_parseBareTail_le r
    simp only [List.length_cons]
    omega
  · rename_i r heq
    rw [heq]
    have := length_parseBareTail_le r
    simp only [List.length_cons]
    omega
  · exact length_parseBareTail_lt hs hq

theorem length_parseBare_le (chars : List Char) : (parseBare chars).2.length ≤ chars.length := by
  unfold parseBare
  split
  · rename_i r
    have := length_parseBareTail_le r
    simp only [List.length_cons]
    omega
  · rename_i r
    have := length_parseBareTail_le r
    simp only [List.length_cons]
    omega
  · exact length_parseBareTail_le _

theorem length_parseClauseBody_le (ex : Bool) (chars : List Char) :
    (parseClauseBody ex chars).2.length ≤ chars.length := by
  unfold parseClauseBody
  split
  · rename_i r
    have hb := length_parseBareTail_le r
    have hq := length_parseQuoted_le false r
    rw [parseUnclosedQuotedBare_eq]
    simp only [List.length_cons]
    split_ifs <;> simp only <;> omega
  · exact length_parseBare_le _

/-- `parse_clause` takes at least one character off a text that does not start with a
separator. -/
theorem length_parseClause_lt {next : Char} {chars : List Char}
    (hs : isQuerySeparator next = false) :
    (parseClause (next :: chars)).2.length < (next :: chars).length := by
  unfold parseClause
  split
  · rename_i r heq
    rw [heq]
    have := length_parseClauseBody_le true r
    simp only [List.length_cons]
    omega
  · unfold parseClauseBody
    split
    · rename_i r heq
      rw [heq]
      have hb := length_parseBareTail_le r
      have hq := length_parseQuoted_le false r
      rw [parseUnclosedQuotedBare_eq]
      simp only [List.length_cons]
      split_ifs <;> simp only <;> omega
    · rename_i hn
      exact length_parseBare_lt hs fun h => hn chars (by rw [h])

/-- `parse_search_query`: the clauses of a text, in order. -/
def parseChars (chars : List Char) : List SearchQueryClause :=
  match _h : skipSeparators chars with
  | [] => []
  | next :: rest =>
    (parseClause (next :: rest)).1.toList ++ parseChars (parseClause (next :: rest)).2
termination_by chars.length
decreasing_by
  have hsep : isQuerySeparator next = false := by
    have := List.head?_dropWhile_not isQuerySeparator chars
    unfold skipSeparators at _h
    rw [_h] at this
    simpa using this
  have hle : (skipSeparators chars).length ≤ chars.length :=
    (List.dropWhile_suffix _).length_le
  rw [_h] at hle
  exact lt_of_lt_of_le (length_parseClause_lt hsep) hle

/-- `parse_search_query`. -/
def parseSearchQuery (input : String) : List SearchQueryClause := parseChars input.toList

/-! ## The printer -/

/-- The loop of `write_quoted`. -/
def writeQuotedLoop : Bool → List Char → List Char
  | _, [] => []
  | last, character :: value =>
    if character = '"' then '\\' :: '"' :: writeQuotedLoop false value
    else if character = '\\' then '\\' :: '\\' :: writeQuotedLoop false value
    else if isControl character then
      if !last then ' ' :: writeQuotedLoop true value else writeQuotedLoop last value
    else character :: writeQuotedLoop false value

/-- `write_quoted`. -/
def writeQuoted (value : String) : List Char :=
  '"' :: (writeQuotedLoop false value.toList ++ ['"'])

/-- The loop of `write_printable_unquoted`. -/
def writeUnquotedLoop : Bool → List Char → List Char
  | _, [] => []
  | last, character :: value =>
    if isControl character then
      if !last then ' ' :: writeUnquotedLoop true value else writeUnquotedLoop last value
    else character :: writeUnquotedLoop false value

/-- `write_printable_unquoted`. -/
def writePrintableUnquoted (value : String) (escapeExclusion : Bool) : List Char :=
  (if (escapeExclusion && ['-'].isPrefixOf value.toList && value != "-")
      || ['\\', '-'].isPrefixOf value.toList || ['\\', '\\'].isPrefixOf value.toList
    then ['\\'] else [])
    ++ writeUnquotedLoop false value.toList

/-- The printed form of a clause. -/
def SearchQueryClause.display : SearchQueryClause → List Char
  | .term value => writePrintableUnquoted value true
  | .phrase value => writeQuoted value
  | .excludedTerm value => '-' :: writePrintableUnquoted value false
  | .excludedPhrase value => '-' :: writeQuoted value

/-- The printed form of the clauses, with a space between two of them. -/
def displayChars : List SearchQueryClause → List Char
  | [] => []
  | [clause] => clause.display
  | clause :: clauses => clause.display ++ ' ' :: displayChars clauses

/-- `ParsedSearchQuery::to_string`. -/
def display (clauses : List SearchQueryClause) : String := String.ofList (displayChars clauses)

/-! ## What a parsed clause holds -/

/-- A character that a bare term may hold. -/
def IsBare (c : Char) : Prop := isQuerySeparator c = false ∧ c ≠ '"'

/-- What the value of a parsed clause meets: it is not empty, a term has no separator and no
quote, and a phrase has no control character. -/
def SearchQueryClause.WellFormed : SearchQueryClause → Prop
  | .term value => value.toList ≠ [] ∧ ∀ c ∈ value.toList, IsBare c
  | .excludedTerm value => value.toList ≠ [] ∧ ∀ c ∈ value.toList, IsBare c
  | .phrase value => value.toList ≠ [] ∧ ∀ c ∈ value.toList, isControl c = false
  | .excludedPhrase value => value.toList ≠ [] ∧ ∀ c ∈ value.toList, isControl c = false

theorem IsBare.not_control {c : Char} (h : IsBare c) : isControl c = false := by
  have hs := h.1
  simp only [isQuerySeparator, Bool.or_eq_false_iff] at hs
  exact hs.2

theorem isBare_dash : IsBare '-' := ⟨by decide, by decide⟩

theorem isBare_escape : IsBare '\\' := ⟨by decide, by decide⟩

theorem wellFormed_dash : (SearchQueryClause.term "-").WellFormed := by
  refine ⟨by decide, ?_⟩
  intro c hc
  have hd : c = '-' := by simpa using hc
  rw [hd]
  exact isBare_dash

theorem isBare_of_mem_parseBareTail {chars : List Char} {c : Char}
    (h : c ∈ (parseBareTail chars).1) : IsBare c := by
  induction chars with
  | nil => simp [parseBareTail] at h
  | cons next chars ih =>
    unfold parseBareTail at h
    split at h
    · simp at h
    · rename_i hs
      split at h
      · simp at h
      · rcases List.mem_cons.1 h with rfl | hm
        · simpa [IsBare] using hs
        · exact ih hm

theorem isBare_of_mem_parseBare {chars : List Char} {c : Char} (h : c ∈ (parseBare chars).1) :
    IsBare c := by
  unfold parseBare at h
  split at h
  · rcases List.mem_cons.1 h with rfl | hm
    · exact isBare_dash
    · exact isBare_of_mem_parseBareTail hm
  · rcases List.mem_cons.1 h with rfl | hm
    · exact isBare_escape
    · exact isBare_of_mem_parseBareTail hm
  · exact isBare_of_mem_parseBareTail h

theorem not_control_of_mem_pushQuotedPrintable {ch c : Char} {l : Bool}
    (h : c ∈ (pushQuotedPrintable ch l).1) : isControl c = false := by
  unfold pushQuotedPrintable at h
  split at h
  · split at h
    · have hs : c = ' ' := by simpa using h
      rw [hs]
      decide
    · simp at h
  · rename_i hc
    have hsa : c = ch := by simpa using h
    rw [hsa]
    simpa using hc

theorem not_control_of_mem_parseQuoted {l : Bool} {chars : List Char} {c : Char}
    (h : c ∈ (parseQuoted l chars).1) : isControl c = false := by
  fun_induction parseQuoted l chars with
  | case1 => simp at h
  | case2 => simp at h
  | case3 =>
    have he : c = '\\' := by simpa using h
    rw [he]
    decide
  | case4 l es chars p read ih =>
    rcases List.mem_append.1 h with hp | hr
    · exact not_control_of_mem_pushQuotedPrintable hp
    · exact ih hr
  | case5 l other chars _ _ _ p read ih =>
    rcases List.mem_append.1 h with hp | hr
    · exact not_control_of_mem_pushQuotedPrintable hp
    · exact ih hr

theorem wellFormed_clauseOf_bare {ex : Bool} {value : List Char}
    {cl : SearchQueryClause} (hb : ∀ c ∈ value, IsBare c)
    (h : clauseOf ex false value = some cl) : cl.WellFormed := by
  unfold clauseOf at h
  split at h
  · obtain rfl := Option.some.inj h
    exact wellFormed_dash
  · split at h
    · cases h
    · rename_i hne
      have hv : value ≠ [] := by simpa using hne
      cases ex with
      | false =>
        obtain rfl := Option.some.inj h
        exact ⟨by simpa using hv, by simpa using hb⟩
      | true =>
        obtain rfl := Option.some.inj h
        exact ⟨by simpa using hv, by simpa using hb⟩

theorem wellFormed_clauseOf_quoted {ex : Bool} {value : List Char}
    {cl : SearchQueryClause} (hp : ∀ c ∈ value, isControl c = false)
    (h : clauseOf ex true value = some cl) : cl.WellFormed := by
  unfold clauseOf at h
  rw [if_neg (by simp)] at h
  split at h
  · cases h
  · rename_i hne
    have hv : value ≠ [] := by simpa using hne
    cases ex with
    | false =>
      obtain rfl := Option.some.inj h
      exact ⟨by simpa using hv, by simpa using hp⟩
    | true =>
      obtain rfl := Option.some.inj h
      exact ⟨by simpa using hv, by simpa using hp⟩

/-- An unclosed quote gives the clause of a bare term. -/
theorem parseClauseBody_unclosed (ex : Bool) {chars : List Char}
    (h : remainingContainsClosingQuote false chars = false) :
    parseClauseBody ex ('"' :: chars)
      = (clauseOf ex false (parseBareTail chars).1, (parseBareTail chars).2) := by
  unfold parseClauseBody clauseOf
  simp only [h, parseUnclosedQuotedBare_eq]
  cases ex <;> cases hv : (parseBareTail chars).1 <;> simp

theorem wellFormed_parseClauseBody {ex : Bool} {chars : List Char}
    {cl : SearchQueryClause} (h : (parseClauseBody ex chars).1 = some cl) :
    cl.WellFormed := by
  by_cases hq : ∃ r, chars = '"' :: r
  · obtain ⟨r, rfl⟩ := hq
    cases hcl : remainingContainsClosingQuote false r with
    | false =>
      rw [parseClauseBody_unclosed ex hcl] at h
      exact wellFormed_clauseOf_bare (fun c hc => isBare_of_mem_parseBareTail hc) h
    | true =>
      unfold parseClauseBody at h
      simp only [hcl] at h
      exact wellFormed_clauseOf_quoted (fun c hc => not_control_of_mem_parseQuoted hc) h
  · unfold parseClauseBody at h
    split at h
    · exact absurd ⟨_, rfl⟩ hq
    · exact wellFormed_clauseOf_bare (fun c hc => isBare_of_mem_parseBare hc) h

theorem wellFormed_parseClause {chars : List Char} {c : SearchQueryClause}
    (h : (parseClause chars).1 = some c) : c.WellFormed := by
  unfold parseClause at h
  split at h
  · exact wellFormed_parseClauseBody h
  · exact wellFormed_parseClauseBody h

/-- Every clause of a parsed query is well formed. -/
theorem wellFormed_of_mem_parseChars {chars : List Char} {c : SearchQueryClause}
    (h : c ∈ parseChars chars) : c.WellFormed := by
  fun_induction parseChars chars with
  | case1 => simp at h
  | case2 chars next r _ ih =>
    rcases List.mem_append.1 h with hf | hr
    · exact wellFormed_parseClause (Option.mem_toList.1 hf)
    · exact ih hr

/-! ## Reading back what was printed -/

/-- What may stand after a printed clause: the end of the text, or a space. -/
def AtClauseEnd (rest : List Char) : Prop := rest = [] ∨ ∃ tail, rest = ' ' :: tail

theorem AtClauseEnd.head?_ne {r : List Char} (h : AtClauseEnd r) {c : Char} (hc : c ≠ ' ') :
    r.head? ≠ some c := by
  rcases h with rfl | ⟨tail, rfl⟩
  · simp
  · simpa using hc.symm

theorem writeUnquotedLoop_eq {value : List Char} (h : ∀ c ∈ value, isControl c = false)
    (l : Bool) : writeUnquotedLoop l value = value := by
  induction value generalizing l with
  | nil => rfl
  | cons ch value ih =>
    unfold writeUnquotedLoop
    rw [if_neg (by simp [h ch List.mem_cons_self]),
      ih (fun c hc => h c (List.mem_cons_of_mem _ hc))]

/-- The characters a quoted character is written as. -/
def quotedChar (c : Char) : List Char :=
  if c = '"' ∨ c = '\\' then ['\\', c] else [c]

theorem writeQuotedLoop_eq {value : List Char} (h : ∀ c ∈ value, isControl c = false)
    (l : Bool) : writeQuotedLoop l value = value.flatMap quotedChar := by
  induction value generalizing l with
  | nil => rfl
  | cons ch value ih =>
    have hr := ih (fun c hc => h c (List.mem_cons_of_mem _ hc)) false
    have hco := h ch List.mem_cons_self
    unfold writeQuotedLoop
    rw [List.flatMap_cons, hr]
    by_cases hq : ch = '"'
    · simp [quotedChar, hq]
    · by_cases he : ch = '\\'
      · simp [quotedChar, he]
      · simp [quotedChar, hq, he, hco]

/-- A bare value is read up to the end of its clause. -/
theorem parseBareTail_append {value r : List Char} (h : ∀ c ∈ value, IsBare c)
    (he : AtClauseEnd r) : parseBareTail (value ++ r) = (value, r) := by
  induction value with
  | nil =>
    rcases he with rfl | ⟨tail, rfl⟩
    · rfl
    · simp [parseBareTail, show isQuerySeparator ' ' = true from by decide]
  | cons next value ih =>
    have hr := ih fun c hc => h c (List.mem_cons_of_mem _ hc)
    have hb := h next List.mem_cons_self
    -- an escape is never followed by a quote here
    have hh : (value ++ r).head? ≠ some '"' := by
      cases value with
      | nil => exact he.head?_ne (by decide)
      | cons s value =>
        have hs := (h s (by simp)).2
        simpa using hs
    rw [List.cons_append]
    unfold parseBareTail
    rw [if_neg (by simp [hb.1, hb.2]), if_neg (fun hq => hh hq.2), hr]

theorem remainingContainsClosingQuote_quoted (value r : List Char) :
    remainingContainsClosingQuote false (value.flatMap quotedChar ++ '"' :: r) = true := by
  induction value with
  | nil => simp [remainingContainsClosingQuote]
  | cons c value ih =>
    rw [List.flatMap_cons, List.append_assoc]
    by_cases hq : c = '"'
    · simpa [quotedChar, hq, remainingContainsClosingQuote] using ih
    · by_cases he : c = '\\'
      · simpa [quotedChar, he, remainingContainsClosingQuote] using ih
      · simpa [quotedChar, hq, he, remainingContainsClosingQuote] using ih

/-- A printed phrase is read up to its closing quote. -/
theorem parseQuoted_quoted {value : List Char} (h : ∀ c ∈ value, isControl c = false)
    (l : Bool) (r : List Char) :
    parseQuoted l (value.flatMap quotedChar ++ '"' :: r) = (value, r) := by
  induction value generalizing l with
  | nil => simp [parseQuoted]
  | cons c value ih =>
    have hr := ih (fun d hd => h d (List.mem_cons_of_mem _ hd)) false
    have hc := h c List.mem_cons_self
    rw [List.flatMap_cons, List.append_assoc]
    by_cases hs : c = '"' ∨ c = '\\'
    · rw [quotedChar, if_pos hs, List.cons_append, List.cons_append, List.nil_append]
      simp [parseQuoted, pushQuotedPrintable, hc, hr]
    · rw [quotedChar, if_neg hs, List.cons_append, List.nil_append]
      obtain ⟨hq, he⟩ := not_or.1 hs
      rw [parseQuoted.eq_def]
      split
      · contradiction
      · rename_i heq
        exact absurd (List.cons.inj heq).1 hq
      · rename_i heq
        exact absurd (List.cons.inj heq).1 he
      · rename_i heq
        exact absurd (List.cons.inj heq).1 he
      · rename_i heq
        obtain ⟨rfl, rfl⟩ := List.cons.inj heq
        simp [pushQuotedPrintable, hc, hr]

/-- A value that starts with `-` or an escape is read back from its escaped form. -/
theorem parseBare_escaped {first : Char} {value r : List Char}
    (hf : first = '-' ∨ first = '\\') (h : ∀ c ∈ value, IsBare c) (he : AtClauseEnd r) :
    parseBare ('\\' :: first :: (value ++ r)) = (first :: value, r) := by
  rcases hf with rfl | rfl
  · simp [parseBare, parseBareTail_append h he]
  · simp [parseBare, parseBareTail_append h he]

/-- A value without a leading escape is read back as it stands. -/
theorem parseBare_plain {value r : List Char} (h : ∀ c ∈ value, IsBare c)
    (he : AtClauseEnd r) (hd : ¬['\\', '-'] <+: value) (hes : ¬['\\', '\\'] <+: value) :
    parseBare (value ++ r) = (value, r) := by
  rw [← parseBareTail_append h he]
  -- the text does not start with two characters that make an escape
  have hst : ∀ s tail, s = '-' ∨ s = '\\' → value ++ r ≠ '\\' :: s :: tail := by
    intro s tail hs heq
    rcases value with _ | ⟨first, _ | ⟨other, value⟩⟩
    · rw [List.nil_append] at heq
      exact he.head?_ne (by decide : '\\' ≠ ' ') (by rw [heq]; rfl)
    · obtain ⟨-, hr⟩ := List.cons.inj heq
      have hne : s ≠ ' ' := by rcases hs with rfl | rfl <;> decide
      have hh : r.head? = some s := congrArg List.head? hr
      exact he.head?_ne hne hh
    · obtain ⟨rfl, ht⟩ := List.cons.inj heq
      obtain ⟨rfl, -⟩ := List.cons.inj ht
      rcases hs with rfl | rfl
      · exact hd (by simp)
      · exact hes (by simp)
  unfold parseBare
  split
  · rename_i tail heq
    exact absurd heq (hst _ _ (Or.inl rfl))
  · rename_i tail heq
    exact absurd heq (hst _ _ (Or.inr rfl))
  · rfl

/-- What `write_printable_unquoted` writes for a bare value: the value, escaped when it would
not be read back as it stands. -/
theorem writePrintableUnquoted_cases {value : String} (hne : value.toList ≠ [])
    (h : ∀ c ∈ value.toList, IsBare c) (ee : Bool) :
    (∃ first tail, value.toList = first :: tail ∧ (first = '-' ∨ first = '\\') ∧
        writePrintableUnquoted value ee = '\\' :: value.toList) ∨
      (writePrintableUnquoted value ee = value.toList ∧
        ¬['\\', '-'] <+: value.toList ∧ ¬['\\', '\\'] <+: value.toList ∧
        (ee = true → value ≠ "-" → value.toList.head? ≠ some '-')) := by
  have hl : writeUnquotedLoop false value.toList = value.toList :=
    writeUnquotedLoop_eq (fun c hc => (h c hc).not_control) false
  obtain ⟨first, tail, hv⟩ := List.exists_cons_of_ne_nil hne
  unfold writePrintableUnquoted
  rw [hl]
  split
  · rename_i hp
    left
    refine ⟨first, tail, hv, ?_, rfl⟩
    simp only [hv, Bool.or_eq_true, Bool.and_eq_true, List.isPrefixOf_iff_prefix,
      List.cons_prefix_cons] at hp
    rcases hp with (⟨⟨-, hd, -⟩, -⟩ | ⟨he, -⟩) | ⟨he, -⟩
    · exact Or.inl hd.symm
    · exact Or.inr he.symm
    · exact Or.inr he.symm
  · rename_i hp
    right
    simp only [Bool.or_eq_true, Bool.and_eq_true, List.isPrefixOf_iff_prefix, not_or, not_and,
      bne_iff_ne, ne_eq, not_not] at hp
    refine ⟨rfl, hp.1.2, hp.2, ?_⟩
    intro hes hd hh
    refine hd (hp.1.1 ⟨hes, ?_⟩)
    rw [hv] at hh ⊢
    obtain rfl := Option.some.inj hh
    simp

theorem parseBare_writePrintableUnquoted {value : String} {r : List Char}
    (hne : value.toList ≠ []) (h : ∀ c ∈ value.toList, IsBare c) (ee : Bool)
    (hen : AtClauseEnd r) :
    parseBare (writePrintableUnquoted value ee ++ r) = (value.toList, r) := by
  rcases writePrintableUnquoted_cases hne h ee with
    ⟨first, tail, hv, hf, hw⟩ | ⟨hw, hd, he, -⟩
  · rw [hw, hv]
    exact parseBare_escaped hf (fun c hc => h c (by simp [hv, hc])) hen
  · rw [hw]
    exact parseBare_plain h hen hd he

/-- A printed term does not start with a quote or a separator, and one that is not the dash
alone does not start with the exclusion marker. -/
theorem head_writePrintableUnquoted {value : String} (hne : value.toList ≠ [])
    (h : ∀ c ∈ value.toList, IsBare c) (ee : Bool) :
    ∃ next tail, writePrintableUnquoted value ee = next :: tail ∧ IsBare next ∧
      (ee = true → value ≠ "-" → next ≠ '-') := by
  obtain ⟨first, tail, hv⟩ := List.exists_cons_of_ne_nil hne
  rcases writePrintableUnquoted_cases hne h ee with
    ⟨-, -, -, -, hw⟩ | ⟨hw, -, -, hh⟩
  · exact ⟨_, _, hw, isBare_escape, fun _ _ => by decide⟩
  · rw [hv] at hw hh
    refine ⟨first, tail, hw, h first (by simp [hv]), ?_⟩
    intro he hd hf
    exact hh he hd (by rw [hf]; rfl)

/-- A text that does not start with a quote holds a bare clause. -/
theorem parseClauseBody_bare (ex : Bool) {chars : List Char}
    (h : chars.head? ≠ some '"') :
    parseClauseBody ex chars = (clauseOf ex false (parseBare chars).1, (parseBare chars).2) := by
  unfold parseClauseBody
  split
  · exact absurd rfl h
  · rfl

/-- A text that does not start with the exclusion marker holds a clause that does not
exclude. -/
theorem parseClause_included {chars : List Char} (h : chars.head? ≠ some '-') :
    parseClause chars = parseClauseBody false chars := by
  unfold parseClause
  split
  · exact absurd rfl h
  · rfl

theorem parseClauseBody_writePrintableUnquoted (ex : Bool) {value : String}
    {r : List Char} (hne : value.toList ≠ []) (h : ∀ c ∈ value.toList, IsBare c)
    (ee : Bool) (hen : AtClauseEnd r) :
    parseClauseBody ex (writePrintableUnquoted value ee ++ r)
      = (some (if ex then .excludedTerm value else .term value), r) := by
  obtain ⟨next, tail, hw, hn, -⟩ := head_writePrintableUnquoted hne h ee
  rw [parseClauseBody_bare ex (by rw [hw]; simpa using hn.2),
    parseBare_writePrintableUnquoted hne h ee hen]
  have he : value.toList.isEmpty = false := by simpa using hne
  cases ex <;> simp [clauseOf, he]

theorem parseClauseBody_writeQuoted (ex : Bool) {value : String} (r : List Char)
    (hne : value.toList ≠ []) (h : ∀ c ∈ value.toList, isControl c = false) :
    parseClauseBody ex (writeQuoted value ++ r)
      = (some (if ex then .excludedPhrase value else .phrase value), r) := by
  have he : value.toList.isEmpty = false := by simpa using hne
  have ht : writeQuoted value ++ r
      = '"' :: (value.toList.flatMap quotedChar ++ '"' :: r) := by
    simp [writeQuoted, writeQuotedLoop_eq h]
  rw [ht]
  simp only [parseClauseBody, remainingContainsClosingQuote_quoted, parseQuoted_quoted h]
  cases ex <;> simp [clauseOf, he]

/-- **A printed clause is read back, whatever follows it.** -/
theorem parseClause_display {cl : SearchQueryClause} (h : cl.WellFormed)
    {r : List Char} (he : AtClauseEnd r) :
    parseClause (cl.display ++ r) = (some cl, r) := by
  cases cl with
  | term value =>
    by_cases hd : value = "-"
    · -- the dash alone is an exclusion marker with nothing behind it
      subst hd
      have hp : (SearchQueryClause.term "-").display = ['-'] := by decide
      have hr : parseBare r = ([], r) := by
        simpa using parseBare_plain (fun c hc => absurd hc List.not_mem_nil) he (by simp) (by simp)
      rw [hp]
      change parseClauseBody true r = _
      rw [parseClauseBody_bare true (he.head?_ne (by decide)), hr]
      rfl
    · obtain ⟨next, tail, hw, -, hn⟩ := head_writePrintableUnquoted h.1 h.2 true
      rw [SearchQueryClause.display, parseClause_included (by rw [hw]; simpa using hn rfl hd),
        parseClauseBody_writePrintableUnquoted false h.1 h.2 true he]
      rfl
  | excludedTerm value =>
    exact parseClauseBody_writePrintableUnquoted true h.1 h.2 false he
  | phrase value =>
    rw [SearchQueryClause.display, parseClause_included (by simp [writeQuoted]),
      parseClauseBody_writeQuoted false r h.1 h.2]
    rfl
  | excludedPhrase value =>
    exact parseClauseBody_writeQuoted true r h.1 h.2

/-- A printed clause starts with a character that separates nothing. -/
theorem head_display {c : SearchQueryClause} (h : c.WellFormed) :
    ∃ next tail, c.display = next :: tail ∧ isQuerySeparator next = false := by
  cases c with
  | term value =>
    obtain ⟨next, tail, hw, hn, -⟩ := head_writePrintableUnquoted h.1 h.2 true
    exact ⟨next, tail, hw, hn.1⟩
  | phrase value => exact ⟨'"', _, rfl, by decide⟩
  | excludedTerm value => exact ⟨'-', _, rfl, by decide⟩
  | excludedPhrase value => exact ⟨'-', _, rfl, by decide⟩

theorem skipSeparators_cons {next : Char} (h : isQuerySeparator next = false)
    (tail : List Char) : skipSeparators (next :: tail) = next :: tail := by
  rw [skipSeparators, List.dropWhile_cons_of_neg (by simp [h])]

/-- One turn of the loop over a printed clause. -/
theorem parseChars_display {c : SearchQueryClause} (h : c.WellFormed)
    {r : List Char} (he : AtClauseEnd r) :
    parseChars (c.display ++ r) = c :: parseChars r := by
  obtain ⟨next, tail, hp, hn⟩ := head_display h
  have hr := parseClause_display h he
  rw [hp, List.cons_append] at hr ⊢
  rw [parseChars.eq_def]
  split
  · rename_i hs
    rw [skipSeparators_cons hn] at hs
    cases hs
  · rename_i first r' hs
    rw [skipSeparators_cons hn] at hs
    rw [← hs, hr]
    rfl

theorem parseChars_nil : parseChars [] = [] := by
  rw [parseChars.eq_def]
  rfl

theorem parseChars_space (chars : List Char) : parseChars (' ' :: chars) = parseChars chars := by
  have hs : skipSeparators (' ' :: chars) = skipSeparators chars :=
    List.dropWhile_cons_of_pos (by decide)
  rw [parseChars.eq_def, parseChars.eq_def chars]
  rw [hs]

/-- **Printed clauses are read back.** -/
theorem parseChars_displayChars {cs : List SearchQueryClause}
    (h : ∀ cl ∈ cs, cl.WellFormed) : parseChars (displayChars cs) = cs := by
  induction cs with
  | nil => exact parseChars_nil
  | cons cl cs ih =>
    have hcl := h cl List.mem_cons_self
    have hre := ih fun c hc => h c (List.mem_cons_of_mem _ hc)
    cases cs with
    | nil =>
      have hr := parseChars_display hcl (Or.inl rfl)
      rw [List.append_nil, parseChars_nil] at hr
      exact hr
    | cons s cs =>
      rw [displayChars, parseChars_display hcl (Or.inr ⟨_, rfl⟩), parseChars_space, hre]
      simp

/-! ## The printed form -/

theorem not_control_of_mem_writeQuotedLoop {l : Bool} {value : List Char} {c : Char}
    (h : c ∈ writeQuotedLoop l value) : isControl c = false := by
  induction value generalizing l with
  | nil => simp [writeQuotedLoop] at h
  | cons ch value ih =>
    unfold writeQuotedLoop at h
    split_ifs at h with hquote hescape hcontrol hlast
    · rcases List.mem_cons.1 h with rfl | h
      · decide
      · rcases List.mem_cons.1 h with rfl | h
        · decide
        · exact ih h
    · rcases List.mem_cons.1 h with rfl | h
      · decide
      · rcases List.mem_cons.1 h with rfl | h
        · decide
        · exact ih h
    · rcases List.mem_cons.1 h with rfl | h
      · decide
      · exact ih h
    · exact ih h
    · rcases List.mem_cons.1 h with rfl | h
      · simpa using hcontrol
      · exact ih h

theorem not_control_of_mem_writeUnquotedLoop {l : Bool} {value : List Char} {c : Char}
    (h : c ∈ writeUnquotedLoop l value) : isControl c = false := by
  induction value generalizing l with
  | nil => simp [writeUnquotedLoop] at h
  | cons ch value ih =>
    unfold writeUnquotedLoop at h
    split_ifs at h with hcontrol hlast
    · rcases List.mem_cons.1 h with rfl | h
      · decide
      · exact ih h
    · exact ih h
    · rcases List.mem_cons.1 h with rfl | h
      · simpa using hcontrol
      · exact ih h

theorem not_control_of_mem_writeQuoted {value : String} {c : Char} (h : c ∈ writeQuoted value) :
    isControl c = false := by
  rcases List.mem_cons.1 h with rfl | h
  · decide
  · rcases List.mem_append.1 h with h | h
    · exact not_control_of_mem_writeQuotedLoop h
    · obtain rfl : c = '"' := by simpa using h
      decide

theorem not_control_of_mem_writePrintableUnquoted {value : String} {ee : Bool}
    {c : Char} (h : c ∈ writePrintableUnquoted value ee) : isControl c = false := by
  rcases List.mem_append.1 h with h | h
  · split at h
    · obtain rfl : c = '\\' := by simpa using h
      decide
    · simp at h
  · exact not_control_of_mem_writeUnquotedLoop h

/-- The printer writes no control character. -/
theorem SearchQueryClause.not_control_of_mem_display {cl : SearchQueryClause} {c : Char}
    (h : c ∈ cl.display) : isControl c = false := by
  cases cl with
  | term value => exact not_control_of_mem_writePrintableUnquoted h
  | phrase value => exact not_control_of_mem_writeQuoted h
  | excludedTerm value =>
    rcases List.mem_cons.1 h with rfl | h
    · decide
    · exact not_control_of_mem_writePrintableUnquoted h
  | excludedPhrase value =>
    rcases List.mem_cons.1 h with rfl | h
    · decide
    · exact not_control_of_mem_writeQuoted h

theorem not_control_of_mem_displayChars {cs : List SearchQueryClause} {c : Char}
    (h : c ∈ displayChars cs) : isControl c = false := by
  fun_induction displayChars cs with
  | case1 => simp at h
  | case2 cl => exact cl.not_control_of_mem_display h
  | case3 cl cs _ ih =>
    rcases List.mem_append.1 h with h | h
    · exact cl.not_control_of_mem_display h
    · rcases List.mem_cons.1 h with rfl | h
      · decide
      · exact ih h

/-- **Parsing a printed query changes nothing.** The printed form of a parsed query has no
control character and parses to the same query, for every text. -/
theorem parseSearchQuery_display (input : String) :
    (∀ c ∈ (display (parseSearchQuery input)).toList, isControl c = false) ∧
      parseSearchQuery (display (parseSearchQuery input)) = parseSearchQuery input := by
  constructor
  · intro c hc
    rw [display, String.toList_ofList] at hc
    exact not_control_of_mem_displayChars hc
  · unfold display parseSearchQuery
    rw [String.toList_ofList]
    exact parseChars_displayChars fun cl hcl => wellFormed_of_mem_parseChars hcl

end SearchQuery
