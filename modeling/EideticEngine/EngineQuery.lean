/-
# The query text of the lexical engine

`lexical_engine_query` of `src/search/query.rs`: the rewriting of an agent's query before the
lexical engine parses it.  Command-line options lose their dashes, a colon that belongs to no
field prefix separates words, and quoted or escaped text is copied.

The rewriting is a scanner with lookahead.  Its colons are field prefixes that the query
already had.
-/
import EideticEngine.CursorScan
import EideticEngine.ListRules
import EideticEngine.RustText

namespace EngineQuery

open RustText (isWhitespace)
open CursorScan (Scanner)

/-! ## The rewriting -/

/-- The characters that end the token of an option. -/
def endsToken (c : Char) : Bool := isWhitespace c || c == '(' || c == ')' || c == '"'

/-- `char::is_alphanumeric`, which holds of the ASCII letters and digits, and of no blank and
no ASCII punctuation. -/
structure Alphanumeric where
  test : Char → Bool
  of_ascii : ∀ c, c.isAlphanum = true → test c = true
  not_endsToken : ∀ c, test c = true → endsToken c = false
  not_plus : test '+' = false
  not_dash : test '-' = false

/-- The variables of the loop. -/
structure Rewrite where
  out : List Char := []
  inQuote : Bool := false
  escaped : Bool := false
  atTokenStart : Bool := true
  tokenStart : ℕ := 0
  fieldAllowed : Bool := true
  deriving DecidableEq

/-- The fields of the index. -/
def fieldNames : List (List Char) := ["id".toList, "content".toList, "title".toList]

/-- `str::trim_start_matches(['+', '-'])`. -/
def trimSigns (text : List Char) : List Char := text.dropWhile fun c => c == '+' || c == '-'

/-- The colon after the token read so far is a field prefix. -/
def Rewrite.realField (s : Rewrite) (rest : List Char) : Bool :=
  s.fieldAllowed && decide (trimSigns (s.out.drop s.tokenStart) ∈ fieldNames)
    && rest.head? != some ':'

/-- The branch of a colon. -/
def Rewrite.colon (s : Rewrite) (rest : List Char) : Rewrite :=
  let out := s.out ++ [if s.realField rest then ':' else ' ']
  { s with out := out, fieldAllowed := false, atTokenStart := true, tokenStart := out.length }

/-- A short flag cluster: at most three ASCII letters or digits, of which one byte is one
character. -/
def isShortFlag (word : List Char) : Bool :=
  1 ≤ word.length && word.length ≤ 3 && word.all Char.isAlphanum

/-- The branch of a dash at the start of a token.  `rest` starts with the dash. -/
def Rewrite.dash (alphanumeric : Alphanumeric) (s : Rewrite) (rest : List Char) :
    Rewrite × List Char :=
  let dashes := rest.length - (rest.dropWhile (· == '-')).length
  let word := (rest.takeWhile fun c => !endsToken c).drop dashes
  let shortFlag := dashes == 1 && isShortFlag word
  let longOption := 2 ≤ dashes && word.head?.any alphanumeric.test
  if shortFlag || longOption then
    ({ s with fieldAllowed := false, atTokenStart := false }, rest.drop dashes)
  else if 2 ≤ dashes && word.isEmpty
      && (rest.drop dashes).head?.all fun next => isWhitespace next || next == ')' then
    -- a bare `--` ends the options of a command line and names nothing
    ({ s with fieldAllowed := false, atTokenStart := false }, rest.drop dashes)
  else
    ({ s with out := s.out ++ rest.take dashes, atTokenStart := false }, rest.drop dashes)

/-- The branch of every other character. -/
def Rewrite.plain (s : Rewrite) (ch : Char) : Rewrite :=
  let out := s.out ++ [ch]
  if isWhitespace ch || ch == '(' || ch == ')' then
    { s with out := out, atTokenStart := true, fieldAllowed := true, tokenStart := out.length }
  else if ch = '+' ∧ s.atTokenStart then { s with out := out, tokenStart := out.length }
  else { s with out := out, atTokenStart := false }

/-- One turn of the loop. -/
def step (alphanumeric : Alphanumeric) (s : Rewrite) (ch : Char) (rest : List Char) :
    Rewrite × List Char :=
  if s.escaped then ({ s with out := s.out ++ [ch], escaped := false }, rest)
  else if ch = '\\' then
    ({ s with out := s.out ++ [ch], escaped := true, atTokenStart := false, fieldAllowed := false },
      rest)
  else if ch = '"' then
    ({ s with
        inQuote := !s.inQuote, out := s.out ++ [ch], atTokenStart := false, fieldAllowed := false },
      rest)
  else if s.inQuote then ({ s with out := s.out ++ [ch] }, rest)
  else if ch = ':' then (s.colon rest, rest)
  else if ch = '-' ∧ s.atTokenStart then s.dash alphanumeric (ch :: rest)
  else (s.plain ch, rest)

/-! ## Runs of dashes -/

/-- A text that starts with a dash is a run of dashes and what follows it. -/
theorem exists_dashes (r : List Char) :
    ∃ n after, '-' :: r = List.replicate (n + 1) '-' ++ after ∧ after.head? ≠ some '-' := by
  induction r with
  | nil => exact ⟨0, [], rfl, by simp⟩
  | cons c r ih =>
    by_cases hd : c = '-'
    · subst hd
      obtain ⟨n, after, heq, ha⟩ := ih
      exact ⟨n + 1, after, by rw [heq]; rfl, ha⟩
    · exact ⟨0, c :: r, rfl, by simpa using hd⟩

/-- What the token of an option holds after its dashes. -/
def wordOf (after : List Char) : List Char := after.takeWhile fun c => !endsToken c

/-- Whether `n` dashes at the start of a token are dropped. -/
def dropsDashes (alphanumeric : Alphanumeric) (n : ℕ) (after : List Char) : Bool :=
  (n == 1 && isShortFlag (wordOf after)) || (2 ≤ n && (wordOf after).head?.any alphanumeric.test)
    || (2 ≤ n && (wordOf after).isEmpty
      && after.head?.all fun next => isWhitespace next || next == ')')

theorem dropWhile_dashes {n : ℕ} {after : List Char} (h : after.head? ≠ some '-') :
    (List.replicate n '-' ++ after).dropWhile (· == '-') = after := by
  rw [List.dropWhile_append_of_pos (by simp)]
  cases after with
  | nil => rfl
  | cons c after =>
    have hc : c ≠ '-' := by simpa using h
    simp [hc]

theorem takeWhile_dashes (n : ℕ) (after : List Char) :
    (List.replicate n '-' ++ after).takeWhile (fun c => !endsToken c)
      = List.replicate n '-' ++ wordOf after := by
  rw [List.takeWhile_append_of_pos]
  · rfl
  · intro c hc
    rw [List.eq_of_mem_replicate hc]
    decide

/-- The branch of a dash by the number of dashes. -/
theorem Rewrite.dash_eq (a : Alphanumeric) (s : Rewrite) (n : ℕ) {after : List Char}
    (h : after.head? ≠ some '-') :
    s.dash a (List.replicate n '-' ++ after) = (if dropsDashes a n after then
          { s with fieldAllowed := false, atTokenStart := false }
        else { s with out := s.out ++ List.replicate n '-', atTokenStart := false }, after) := by
  have hd : (List.replicate n '-' ++ after).length - after.length = n := by simp
  unfold Rewrite.dash dropsDashes
  simp only [dropWhile_dashes h, takeWhile_dashes, hd]
  rw [List.drop_left' (by simp), List.take_left' (by simp), List.drop_left' (by simp)]
  cases hf : (n == 1 && isShortFlag (wordOf after)) ||
      (decide (2 ≤ n) && (wordOf after).head?.any a.test)
  · simp only [Bool.false_or, Bool.false_eq_true, if_false]
    split <;> rfl
  · simp

theorem step_suffix (a : Alphanumeric) (s : Rewrite) (ch : Char) (r : List Char) :
    (step a s ch r).2 <:+ r := by
  unfold step
  split_ifs with hescaped hescape hquote hinQuote hcolon hdash
  · exact List.suffix_rfl
  · exact List.suffix_rfl
  · exact List.suffix_rfl
  · exact List.suffix_rfl
  · exact List.suffix_rfl
  · obtain ⟨n, after, heq, ha⟩ := exists_dashes r
    rw [hdash.1, heq, Rewrite.dash_eq a s (n + 1) ha]
    refine ⟨List.replicate n '-', ?_⟩
    rw [List.replicate_succ, List.cons_append] at heq
    exact (List.cons.inj heq).2.symm
  · exact List.suffix_rfl

/-- The loop. -/
def scanner (alphanumeric : Alphanumeric) : Scanner Rewrite Char :=
  ⟨step alphanumeric, step_suffix alphanumeric⟩

/-- The characters of the rewritten query. -/
def rewrite (alphanumeric : Alphanumeric) (query : List Char) : List Char :=
  ((scanner alphanumeric).run {} query).out

/-- `lexical_engine_query`. -/
def lexicalEngineQuery (alphanumeric : Alphanumeric) (query : String) : String :=
  if !query.toList.any fun c => c == '-' || c == ':' then query
  else
    let out := String.ofList (rewrite alphanumeric query.toList)
    if out = query then query else out

/-! ## Quotes and escapes -/

/-- Whether a text is inside quotes, and whether an escape is open. -/
structure Mode where
  inQuote : Bool := false
  escaped : Bool := false
  deriving DecidableEq

/-- The mode after a character. -/
def Mode.next (m : Mode) (c : Char) : Mode :=
  if m.escaped then { m with escaped := false }
  else if c = '\\' then { m with escaped := true }
  else if c = '"' then { m with inQuote := !m.inQuote }
  else m

/-- The character is quoted or escaped, or it is the quote or the escape itself. -/
def Mode.protects (m : Mode) (c : Char) : Bool :=
  m.escaped || c == '\\' || c == '"' || m.inQuote

/-- The mode at the end of a text. -/
def modeAfter (text : List Char) : Mode := text.foldl Mode.next {}

/-- A text that leaves no quote and no escape open. -/
def Open (text : List Char) : Prop := modeAfter text = {}

/-- The quoted and escaped characters of a text that starts in a mode, in order. -/
def protectedFrom : Mode → List Char → List Char
  | _, [] => []
  | m, c :: text =>
    if m.protects c then c :: protectedFrom (m.next c) text else protectedFrom (m.next c) text

/-- The quoted and escaped text, in order. -/
def protectedText (text : List Char) : List Char := protectedFrom {} text

theorem protectedFrom_append (m : Mode) (text tail : List Char) :
    protectedFrom m (text ++ tail)
      = protectedFrom m text ++ protectedFrom (text.foldl Mode.next m) tail := by
  induction text generalizing m with
  | nil => rfl
  | cons c text ih =>
    rw [List.cons_append, protectedFrom, protectedFrom, List.foldl_cons, ih]
    split <;> simp

theorem modeAfter_append (text tail : List Char) :
    modeAfter (text ++ tail) = tail.foldl Mode.next (modeAfter text) :=
  List.foldl_append

theorem protectedText_append (text tail : List Char) :
    protectedText (text ++ tail) = protectedText text ++ protectedFrom (modeAfter text) tail :=
  protectedFrom_append {} text tail

/-- A character that is neither a quote nor an escape. -/
def IsText (c : Char) : Prop := c ≠ '\\' ∧ c ≠ '"'

theorem Mode.next_open {c : Char} (h : IsText c) : Mode.next {} c = {} := by
  simp [Mode.next, h.1, h.2]

theorem Mode.not_protects_open {c : Char} (h : IsText c) : Mode.protects {} c = false := by
  simp [Mode.protects, h.1, h.2]

/-- Text without quotes and escapes changes no mode. -/
theorem foldl_next_open {text : List Char} (h : ∀ c ∈ text, IsText c) :
    text.foldl Mode.next {} = {} := by
  induction text with
  | nil => rfl
  | cons c text ih =>
    rw [List.foldl_cons, Mode.next_open (h c List.mem_cons_self)]
    exact ih fun d hd => h d (List.mem_cons_of_mem _ hd)

theorem protectedFrom_open {text : List Char} (h : ∀ c ∈ text, IsText c) :
    protectedFrom {} text = [] := by
  induction text with
  | nil => rfl
  | cons c text ih =>
    have hc := h c List.mem_cons_self
    rw [protectedFrom, Mode.not_protects_open hc, Mode.next_open hc]
    exact ih fun d hd => h d (List.mem_cons_of_mem _ hd)

theorem Open.append {text tail : List Char} (ho : Open text) (h : ∀ c ∈ tail, IsText c) :
    Open (text ++ tail) := by
  unfold Open
  rw [modeAfter_append, ho, foldl_next_open h]

/-! ## What a turn of the loop does -/

/-- A character that starts a new token. -/
def isBoundary (c : Char) : Bool := isWhitespace c || c == '(' || c == ')'

/-- The mode of the loop. -/
def Rewrite.mode (s : Rewrite) : Mode := ⟨s.inQuote, s.escaped⟩

/-- A place of the rewriting. -/
abbrev Place := Scanner.Place Rewrite Char

/-- What a turn of the loop does. -/
inductive Turn (alphanumeric : Alphanumeric) : Place → Place → Prop
  /-- Quoted or escaped text is copied. -/
  | copy {seen rest : List Char} {s s' : Rewrite} {ch : Char}
      (hprotects : s.mode.protects ch = true) (hout : s'.out = s.out ++ [ch])
      (hmode : s'.mode = s.mode.next ch) (hstart : s'.atTokenStart = false)
      (hfield : s'.fieldAllowed = false) (htoken : s'.tokenStart = s.tokenStart) :
      Turn alphanumeric ⟨seen, s, ch :: rest⟩ ⟨seen ++ [ch], s', rest⟩
  | colon {seen rest : List Char} {s : Rewrite} (hopen : s.mode = {}) :
      Turn alphanumeric ⟨seen, s, ':' :: rest⟩ ⟨seen ++ [':'], s.colon rest, rest⟩
  /-- The dashes of an option are dropped. -/
  | drop {seen rest : List Char} {s : Rewrite} {n : ℕ} (hopen : s.mode = {})
      (hstart : s.atTokenStart = true) (hhead : rest.head? ≠ some '-')
      (hdrop : dropsDashes alphanumeric (n + 1) rest = true) :
      Turn alphanumeric ⟨seen, s, List.replicate (n + 1) '-' ++ rest⟩
        ⟨seen ++ List.replicate (n + 1) '-',
          { s with fieldAllowed := false, atTokenStart := false }, rest⟩
  /-- Other dashes are kept. -/
  | keep {seen rest : List Char} {s : Rewrite} {n : ℕ} (hopen : s.mode = {})
      (hstart : s.atTokenStart = true) (hhead : rest.head? ≠ some '-')
      (hdrop : dropsDashes alphanumeric (n + 1) rest = false) :
      Turn alphanumeric ⟨seen, s, List.replicate (n + 1) '-' ++ rest⟩
        ⟨seen ++ List.replicate (n + 1) '-',
          { s with out := s.out ++ List.replicate (n + 1) '-', atTokenStart := false }, rest⟩
  | boundary {seen rest : List Char} {s : Rewrite} {ch : Char} (hopen : s.mode = {})
      (hch : isBoundary ch = true) :
      Turn alphanumeric ⟨seen, s, ch :: rest⟩
        ⟨seen ++ [ch],
          { s with
            out := s.out ++ [ch]
            atTokenStart := true
            fieldAllowed := true
            tokenStart := (s.out ++ [ch]).length }, rest⟩
  | plus {seen rest : List Char} {s : Rewrite} (hopen : s.mode = {})
      (hstart : s.atTokenStart = true) :
      Turn alphanumeric ⟨seen, s, '+' :: rest⟩
        ⟨seen ++ ['+'],
          { s with out := s.out ++ ['+'], tokenStart := (s.out ++ ['+']).length }, rest⟩
  | other {seen rest : List Char} {s : Rewrite} {ch : Char} (hopen : s.mode = {})
      (htext : IsText ch) (hcolon : ch ≠ ':') (hch : isBoundary ch = false)
      (hsign : ch = '+' ∨ ch = '-' → s.atTokenStart = false) :
      Turn alphanumeric ⟨seen, s, ch :: rest⟩
        ⟨seen ++ [ch], { s with out := s.out ++ [ch], atTokenStart := false }, rest⟩

variable {alphanumeric : Alphanumeric}

/-- A character that starts a token is none of those with a branch of their own. -/
theorem ne_of_isBoundary {c d : Char} (h : isBoundary c = true) (hd : isBoundary d = false) :
    c ≠ d := by
  rintro rfl
  rw [h] at hd
  cases hd

theorem isText_of_isBoundary {c : Char} (h : isBoundary c = true) : IsText c :=
  ⟨ne_of_isBoundary h (by decide), ne_of_isBoundary h (by decide)⟩

/-- The turn at a place, by the character there. -/
theorem turn_step (a : Alphanumeric) (s : Rewrite) (ch : Char) (se r : List Char)
    (hfl : s.mode ≠ {} → s.atTokenStart = false ∧ s.fieldAllowed = false) :
    ∃ read, ch :: r = read ++ (step a s ch r).2 ∧ Turn a ⟨se, s, ch :: r⟩
        ⟨se ++ read, (step a s ch r).1, (step a s ch r).2⟩ := by
  unfold step
  split_ifs with hescaped hescape hquote hinQuote hcolon hdash
  · have hm : s.mode ≠ {} := by
      intro h
      have := congrArg Mode.escaped h
      simp [Rewrite.mode, hescaped] at this
    obtain ⟨hs, hf⟩ := hfl hm
    exact ⟨[ch], rfl, .copy (by simp [Mode.protects, Rewrite.mode, hescaped]) rfl
      (by simp [Mode.next, Rewrite.mode, hescaped]) hs hf rfl⟩
  · exact ⟨[ch], rfl, .copy (by simp [Mode.protects, hescape]) rfl
      (by simp [Mode.next, Rewrite.mode, hescaped, hescape]) rfl rfl rfl⟩
  · exact ⟨[ch], rfl, .copy (by simp [Mode.protects, hquote]) rfl
      (by simp [Mode.next, Rewrite.mode, hescaped, hquote]) rfl rfl rfl⟩
  · have hm : s.mode ≠ {} := by
      intro h
      have := congrArg Mode.inQuote h
      simp [Rewrite.mode, hinQuote] at this
    obtain ⟨hs, hf⟩ := hfl hm
    exact ⟨[ch], rfl, .copy (by simp [Mode.protects, Rewrite.mode, hinQuote]) rfl
      (by simp [Mode.next, Rewrite.mode, hescaped, hescape, hquote]) hs hf rfl⟩
  · have ho : s.mode = {} := by simp [Rewrite.mode, hescaped, hinQuote]
    subst hcolon
    exact ⟨[':'], rfl, .colon ho⟩
  · have ho : s.mode = {} := by simp [Rewrite.mode, hescaped, hinQuote]
    obtain ⟨rfl, hs⟩ := hdash
    obtain ⟨n, after, heq, ha⟩ := exists_dashes r
    refine ⟨List.replicate (n + 1) '-', ?_⟩
    rw [heq, Rewrite.dash_eq a s (n + 1) ha]
    refine ⟨rfl, ?_⟩
    cases hd : dropsDashes a (n + 1) after with
    | true => exact .drop ho hs ha hd
    | false => exact .keep ho hs ha hd
  · have ho : s.mode = {} := by simp [Rewrite.mode, hescaped, hinQuote]
    refine ⟨[ch], rfl, ?_⟩
    unfold Rewrite.plain
    split_ifs with hboundary hplus
    · exact .boundary ho hboundary
    · obtain ⟨rfl, hs⟩ := hplus
      exact .plus ho hs
    · refine .other ho ⟨hescape, hquote⟩ hcolon (by simpa [isBoundary] using hboundary) ?_
      rintro (rfl | rfl)
      · simpa using hplus
      · simpa using hdash

theorem turn_of_moves {p q : Place}
    (hf : p.state.mode ≠ {} → p.state.atTokenStart = false ∧ p.state.fieldAllowed = false)
    (h : (scanner alphanumeric).Moves p q) : Turn alphanumeric p q := by
  obtain ⟨hs, hr⟩ := h
  rename_i se read r r' s s' ch
  obtain ⟨re', hr', ht⟩ := turn_step alphanumeric s ch se r hf
  change step alphanumeric s ch r = (s', r') at hs
  rw [hs] at hr' ht
  rw [List.append_cancel_right (hr.symm.trans hr')]
  exact ht

/-! ## The invariant of the loop -/

/-- What holds at every place of the rewriting: the text read and the text written are in the
mode of the loop and have the same quoted and escaped text, and a token starts outside quotes
and escapes only. -/
structure Steady (p : Place) : Prop where
  seen_mode : modeAfter p.seen = p.state.mode
  out_mode : modeAfter p.state.out = p.state.mode
  protected_eq : protectedText p.state.out = protectedText p.seen
  flags : p.state.mode ≠ {} → p.state.atTokenStart = false ∧ p.state.fieldAllowed = false
  tokenStart_le : p.state.tokenStart ≤ p.state.out.length
  tokenStart_eq : p.state.atTokenStart = true → p.state.tokenStart = p.state.out.length

/-- Reading and writing text outside quotes keeps the modes and the protected text. -/
theorem Steady.advance {se : List Char} {s : Rewrite} {r : List Char}
    (h : Steady ⟨se, s, r⟩) (ho : s.mode = {}) {read w : List Char}
    (hr : ∀ c ∈ read, IsText c) (hw : ∀ c ∈ w, IsText c) :
    modeAfter (se ++ read) = {} ∧ modeAfter (s.out ++ w) = {} ∧
      protectedText (s.out ++ w) = protectedText (se ++ read) := by
  have hs : modeAfter se = {} := h.seen_mode.trans ho
  have hou : modeAfter s.out = {} := h.out_mode.trans ho
  refine ⟨Open.append hs hr, Open.append hou hw, ?_⟩
  rw [protectedText_append, protectedText_append, hs, hou, protectedFrom_open hr,
    protectedFrom_open hw, h.protected_eq]

theorem isText_dashes {n : ℕ} : ∀ c ∈ List.replicate n '-', IsText c := by
  intro c hc
  rw [List.eq_of_mem_replicate hc]
  exact ⟨by decide, by decide⟩

theorem isText_singleton {ch : Char} (h : IsText ch) : ∀ c ∈ [ch], IsText c := by
  intro c hc
  rw [List.mem_singleton.1 hc]
  exact h

/-- A turn keeps the invariant. -/
theorem Steady.turn {p q : Place} (h : Steady p) (htu : Turn alphanumeric p q) : Steady q := by
  cases htu with
  | copy hp hou hmo hst hf hto =>
    rename_i se r s s' ch
    have hs : modeAfter se = s.mode := h.seen_mode
    have hm : modeAfter s.out = s.mode := h.out_mode
    have heq : protectedText s.out = protectedText se := h.protected_eq
    have hle : s.tokenStart ≤ s.out.length := h.tokenStart_le
    refine ⟨?_, ?_, ?_, fun _ => ⟨hst, hf⟩, ?_, ?_⟩
    · simp only [modeAfter_append, hs, hmo, List.foldl_cons, List.foldl_nil]
    · simp only [hou, modeAfter_append, hm, hmo, List.foldl_cons, List.foldl_nil]
    · simp only [hou, protectedText_append, hs, hm, heq]
    · simp only [hou, hto, List.length_append]
      omega
    · intro htr
      simp [hst] at htr
  | colon ho =>
    rename_i se r s
    have hw : ∀ c ∈ [if s.realField r then ':' else ' '], IsText c := by
      apply isText_singleton
      split
      · exact ⟨by decide, by decide⟩
      · exact ⟨by decide, by decide⟩
    obtain ⟨hs, hou, heq⟩ := h.advance ho
      (isText_singleton (show IsText ':' from ⟨by decide, by decide⟩)) hw
    exact ⟨hs.trans ho.symm, hou.trans ho.symm, heq, fun hne => absurd ho hne, le_rfl, fun _ => rfl⟩
  | drop ho hst hh hd =>
    obtain ⟨hs, hou, heq⟩ := h.advance ho isText_dashes (fun c hc => absurd hc List.not_mem_nil)
    rw [List.append_nil] at hou heq
    exact ⟨hs.trans ho.symm, hou.trans ho.symm, heq, fun hne => absurd ho hne,
      h.tokenStart_le, fun htr => by cases htr⟩
  | keep ho hst hh hd =>
    rename_i se r s n
    have hle : s.tokenStart ≤ s.out.length := h.tokenStart_le
    obtain ⟨hs, hou, heq⟩ := h.advance ho isText_dashes (isText_dashes (n := n + 1))
    refine ⟨hs.trans ho.symm, hou.trans ho.symm, heq, fun hne => absurd ho hne,
      ?_, fun htr => by cases htr⟩
    simp only [List.length_append]
    omega
  | boundary ho hch =>
    have ht := isText_singleton (isText_of_isBoundary hch)
    obtain ⟨hs, hou, heq⟩ := h.advance ho ht ht
    exact ⟨hs.trans ho.symm, hou.trans ho.symm, heq, fun hne => absurd ho hne, le_rfl, fun _ => rfl⟩
  | plus ho hst =>
    have ht := isText_singleton (show IsText '+' from ⟨by decide, by decide⟩)
    obtain ⟨hs, hou, heq⟩ := h.advance ho ht ht
    exact ⟨hs.trans ho.symm, hou.trans ho.symm, heq, fun hne => absurd ho hne, le_rfl, fun _ => rfl⟩
  | other ho ht hco hch hsi =>
    rename_i se r s ch
    have hle : s.tokenStart ≤ s.out.length := h.tokenStart_le
    obtain ⟨hs, hou, heq⟩ := h.advance ho (isText_singleton ht) (isText_singleton ht)
    refine ⟨hs.trans ho.symm, hou.trans ho.symm, heq, fun hne => absurd ho hne,
      ?_, fun htr => by cases htr⟩
    simp only [List.length_append]
    omega

variable {query : List Char} {p : Place}

/-- The invariant holds at every place. -/
theorem steady_of_reaches (h : (scanner alphanumeric).Reaches {} query p) : Steady p := by
  refine h.invariant ⟨rfl, rfl, rfl, fun hne => absurd rfl hne, le_rfl, fun _ => rfl⟩ ?_
  intro p q _ hp hm
  exact hp.turn (turn_of_moves hp.flags hm)

/-- **Invariant rule of the rewriting.** -/
theorem invariant_of_turns {P : Place → Prop} (h : (scanner alphanumeric).Reaches {} query p)
    (hst : P ⟨[], {}, query⟩)
    (ht : ∀ p q, (scanner alphanumeric).Reaches {} query p →
      (scanner alphanumeric).Reaches {} query q → Steady p → P p → Turn alphanumeric p q → P q) :
    P p := by
  refine h.invariant hst ?_
  intro p q hr hp hm
  have hs := steady_of_reaches hr
  exact ht p q hr (hr.tail hm) hs hp (turn_of_moves hs.flags hm)

/-- The rewriting reaches the end of its query. -/
theorem reaches_rewrite (a : Alphanumeric) (qu : List Char) :
    ∃ s : Rewrite, (scanner a).Reaches {} qu ⟨qu, s, []⟩ ∧ s.out = rewrite a qu :=
  ⟨_, (scanner a).reaches_run {} qu, rfl⟩

/-- A text without dashes and colons is copied. -/
theorem rewrite_eq_self (h : ∀ c ∈ query, c ≠ '-' ∧ c ≠ ':') :
    rewrite alphanumeric query = query := by
  obtain ⟨s, hr, ho⟩ := reaches_rewrite alphanumeric query
  rw [← ho]
  refine invariant_of_turns (P := fun p => p.state.out = p.seen) hr rfl ?_
  intro p q _ hq _ hp ht
  have hs : ∀ c ∈ q.seen, c ≠ '-' ∧ c ≠ ':' := by
    intro c hc
    refine h c ?_
    rw [← hq.append_eq]
    exact List.mem_append_left _ hc
  cases ht with
  | copy _ ho' => simp_all
  | colon => exact absurd rfl (hs ':' (by simp)).2
  | drop => exact absurd rfl (hs '-' (by simp)).1
  | keep => exact absurd rfl (hs '-' (by simp)).1
  | boundary => simp_all
  | plus => simp_all
  | other => simp_all

/-- The early return and the comparison at the end change nothing. -/
theorem toList_lexicalEngineQuery (a : Alphanumeric) (qu : String) :
    (lexicalEngineQuery a qu).toList = rewrite a qu.toList := by
  unfold lexicalEngineQuery
  split
  · rename_i hn
    have hco : rewrite a qu.toList = qu.toList := by
      apply rewrite_eq_self
      simpa using hn
    exact hco.symm
  · simp only
    split
    · rename_i heq
      have hc := congrArg String.toList heq
      rw [String.toList_ofList] at hc
      exact hc.symm
    · rw [String.toList_ofList]

/-! ## Cutting the query at a boundary -/

theorem isBoundary_endsToken {c : Char} (h : isBoundary c = true) : endsToken c = true := by
  unfold isBoundary at h
  unfold endsToken
  rw [h, Bool.true_or]

theorem wordOf_append {c : Char} (h : endsToken c = true) (b after : List Char) :
    wordOf (b ++ c :: after) = wordOf b := by
  unfold wordOf
  induction b with
  | nil => simp [h]
  | cons d b ih =>
    rw [List.cons_append, List.takeWhile_cons, List.takeWhile_cons, ih]

theorem head?_append_cons {α : Type*} (b after : List α) (c : α) :
    (b ++ c :: after).head? = (b ++ [c]).head? := by
  cases b <;> rfl

/-- The lookahead of the rewriting does not go past the end of a token. -/
theorem stopsAt_boundary (a : Alphanumeric) {c : Char} (h : isBoundary c = true) :
    (scanner a).StopsAt c := by
  have hc : c ≠ ':' := ne_of_isBoundary h (by decide)
  have hd : c ≠ '-' := ne_of_isBoundary h (by decide)
  have ht := isText_of_isBoundary h
  constructor
  · intro s first b after
    change ∃ s' b', step a s first (b ++ c :: after) = _ ∧ step a s first (b ++ [c]) = _
    unfold step
    split_ifs with hescaped hescape hquote hinQuote hcolon' hdash'
    · exact ⟨_, b, rfl, rfl⟩
    · exact ⟨_, b, rfl, rfl⟩
    · exact ⟨_, b, rfl, rfl⟩
    · exact ⟨_, b, rfl, rfl⟩
    · have hsa : s.colon (b ++ c :: after) = s.colon (b ++ [c]) := by
        unfold Rewrite.colon Rewrite.realField
        rw [head?_append_cons b after c]
      exact ⟨_, b, rfl, by rw [hsa]⟩
    · obtain ⟨n, r, heq, hr⟩ := exists_dashes b
      have hh : ∀ tail, (r ++ c :: tail).head? ≠ some '-' := by
        intro tail
        cases r with
        | nil => simpa using hd
        | cons d r => simpa using hr
      have hdr : ∀ tail, dropsDashes a (n + 1) (r ++ c :: tail)
          = dropsDashes a (n + 1) (r ++ [c]) := by
        intro tail
        unfold dropsDashes
        simp only [wordOf_append (isBoundary_endsToken h), head?_append_cons r tail c]
      have hs : ∀ tail, s.dash a (first :: (b ++ c :: tail))
          = (if dropsDashes a (n + 1) (r ++ [c]) then
              { s with fieldAllowed := false, atTokenStart := false }
            else { s with out := s.out ++ List.replicate (n + 1) '-', atTokenStart := false },
            r ++ c :: tail) := by
        intro tail
        rw [hdash'.1, ← List.cons_append, heq, List.append_assoc,
          Rewrite.dash_eq a s (n + 1) (hh tail), hdr tail]
      exact ⟨_, r, hs after, hs []⟩
    · exact ⟨_, b, rfl, rfl⟩
  · intro s after
    change step a s c after = ((step a s c []).1, after)
    unfold step
    cases s.escaped with
    | true => rfl
    | false =>
      cases s.inQuote <;> simp [ht.1, ht.2, hc, hd]

/-- A token starts after the text: the text is empty, or its last character is a blank or a
parenthesis outside quotes and escapes. -/
def AtTokenStart (text : List Char) : Prop :=
  text = [] ∨ ∃ before c, text = before ++ [c] ∧ Open before ∧ isBoundary c = true

/-- The state at the start of a token whose rewriting begins after `out`. -/
def freshState (out : List Char) : Rewrite := { out := out, tokenStart := out.length }

/-- The turn at a boundary makes the state fresh. -/
theorem run_boundary (a : Alphanumeric) {b : List Char} {c : Char}
    (ho : Open b) (hc : isBoundary c = true) :
    ∃ out, Open out ∧ (scanner a).run {} (b ++ [c]) = freshState (out ++ [c]) := by
  obtain ⟨s, hs⟩ := (stopsAt_boundary a hc).reaches {} b
  have hp := hs []
  have hst := steady_of_reaches hp
  have hm : s.mode = {} := hst.seen_mode.symm.trans ho
  obtain ⟨hq, he⟩ : s.inQuote = false ∧ s.escaped = false := by
    simpa [Rewrite.mode] using hm
  have hne : ∀ d, isBoundary d = false → c ≠ d := fun d hd => ne_of_isBoundary hc hd
  have hste : (scanner a).step s c [] = ({ s with
            out := s.out ++ [c]
            atTokenStart := true
            fieldAllowed := true
            tokenStart := (s.out ++ [c]).length }, []) := by
    change step a s c [] = _
    unfold step Rewrite.plain
    unfold isBoundary at hc
    simp [hq, he, hc, hne '\\' (by decide), hne '"' (by decide), hne ':' (by decide),
      hne '-' (by decide)]
  refine ⟨s.out, hst.out_mode.trans hm, ?_⟩
  rw [← hp.run_eq, Scanner.run_cons, hste, Scanner.run_nil]
  simp [freshState, hq, he]

theorem rewrite_nil : rewrite alphanumeric [] = [] := by
  simp [rewrite]

/-- **The rewriting of a query starts with the rewriting of its text up to a token.** -/
theorem reaches_token (a : Alphanumeric) {b : List Char} (h : AtTokenStart b) (after : List Char) :
    (scanner a).Reaches {} (b ++ after) ⟨b, freshState (rewrite a b), after⟩ := by
  rcases h with rfl | ⟨b, c, rfl, ho, hc⟩
  · rw [rewrite_nil]
    exact Scanner.Reaches.refl _ _ _
  · have hr := (stopsAt_boundary a hc).reaches_after {} b after
    obtain ⟨out, -, hru⟩ := run_boundary a ho hc
    have hou : rewrite a (b ++ [c]) = out ++ [c] := by
      unfold rewrite
      rw [hru]
      rfl
    rw [hou, ← hru]
    simpa using hr

/-- A token that starts in the query starts in its rewriting. -/
theorem AtTokenStart.rewrite {b : List Char} (h : AtTokenStart b) :
    AtTokenStart (rewrite alphanumeric b) := by
  rcases h with rfl | ⟨b, c, rfl, ho, hc⟩
  · exact Or.inl rewrite_nil
  · obtain ⟨out, hou, hr⟩ := run_boundary alphanumeric ho hc
    refine Or.inr ⟨out, c, ?_, hou, hc⟩
    unfold EngineQuery.rewrite
    rw [hr]
    rfl

/-! ## Field prefixes -/

/-- The signs before a field name. -/
def IsSign (c : Char) : Prop := c = '+' ∨ c = '-'

/-- The token at a place has been copied so far. -/
def CopiesToken (alphanumeric : Alphanumeric) (p : Place) : Prop :=
  ∃ before pluses, AtTokenStart before ∧ (∀ c ∈ pluses, c = '+') ∧
    p.seen = before ++ (pluses ++ p.state.out.drop p.state.tokenStart) ∧
    p.state.out
      = rewrite alphanumeric before ++ (pluses ++ p.state.out.drop p.state.tokenStart)

/-- Copied text goes on with what is read and written alike. -/
theorem CopiesToken.append {se r r' text : List Char} {s s' : Rewrite}
    (h : CopiesToken alphanumeric ⟨se, s, r⟩) (hle : s.tokenStart ≤ s.out.length)
    (ho : s'.out = s.out ++ text) (ht : s'.tokenStart = s.tokenStart) :
    CopiesToken alphanumeric ⟨se ++ text, s', r'⟩ := by
  obtain ⟨b, ps, hb, hp, hs, heq⟩ := h
  have hd : s'.out.drop s'.tokenStart = s.out.drop s.tokenStart ++ text := by
    rw [ho, ht, List.drop_append_of_le_length hle]
  refine ⟨b, ps, hb, hp, ?_, ?_⟩
  · change se = _ at hs
    change se ++ text = _
    rw [hd, hs]
    simp
  · change s.out = _ at heq
    change s'.out = _
    rw [hd, ho]
    nth_rewrite 1 [heq]
    simp

/-- While a field prefix may follow, the token has been copied. -/
theorem copiesToken_of_reaches (h : (scanner alphanumeric).Reaches {} query p)
    (hf : p.state.fieldAllowed = true) : CopiesToken alphanumeric p := by
  revert hf
  refine invariant_of_turns (P := fun p => p.state.fieldAllowed = true →
    CopiesToken alphanumeric p) h ?_ ?_
  · intro _
    exact ⟨[], [], Or.inl rfl, by simp, rfl, by simp [rewrite_nil]⟩
  · intro p q hfr hr hs ih htu hf
    cases htu with
    | copy _ _ _ _ hfa =>
      simp only at hf
      rw [hfa] at hf
      cases hf
    | colon => cases hf
    | drop => cases hf
    | keep => exact (ih hf).append hs.tokenStart_le rfl rfl
    | boundary ho hch =>
      rename_i se r s ch
      have hst : AtTokenStart (se ++ [ch]) := Or.inr ⟨se, ch, rfl, hs.seen_mode.trans ho, hch⟩
      have ht := reaches_token alphanumeric hst r
      rw [hr.append_eq] at ht
      have hpl := hr.unique ht rfl
      have hsta := congrArg (fun p => p.state.out) hpl
      refine ⟨se ++ [ch], [], hst, by simp, by simp, ?_⟩
      simpa [freshState] using hsta
    | plus ho hst =>
      rename_i se r s
      obtain ⟨b, ps, hb, hp, hse, hou⟩ := ih hf
      have heq : s.tokenStart = s.out.length := hs.tokenStart_eq hst
      simp only [heq, List.drop_length, List.append_nil] at hse hou
      refine ⟨b, ps ++ ['+'], hb, ?_, ?_, ?_⟩
      · intro c hc
        rcases List.mem_append.1 hc with hc | hc
        · exact hp c hc
        · exact List.mem_singleton.1 hc
      · simp [hse]
      · simp [← List.append_assoc, ← hou]
    | other => exact (ih hf).append hs.tokenStart_le rfl rfl

/-- A text is its leading signs and what is left without them. -/
theorem exists_signs (text : List Char) :
    ∃ signs, (∀ c ∈ signs, IsSign c) ∧ text = signs ++ trimSigns text := by
  refine ⟨text.takeWhile fun c => c == '+' || c == '-', ?_, (List.takeWhile_append_dropWhile).symm⟩
  intro c hc
  have := List.mem_takeWhile_imp hc
  simpa [IsSign] using this

/-- A colon that is kept follows a field name at the start of a copied token. -/
theorem field_of_realField {se r : List Char} {s : Rewrite}
    (h : (scanner alphanumeric).Reaches {} query ⟨se, s, ':' :: r⟩)
    (hr : s.realField r = true) :
    ∃ b signs field, se = b ++ (signs ++ field) ∧ AtTokenStart b ∧
      (∀ c ∈ signs, IsSign c) ∧ field ∈ fieldNames ∧ r.head? ≠ some ':' ∧
      s.out = rewrite alphanumeric b ++ (signs ++ field) := by
  simp only [Rewrite.realField, Bool.and_eq_true, decide_eq_true_eq, bne_iff_ne, ne_eq] at hr
  obtain ⟨⟨ha, hn⟩, hsi⟩ := hr
  obtain ⟨b, ps, hb, hp, hs, ho⟩ := copiesToken_of_reaches h ha
  obtain ⟨signs, hsig, ht⟩ := exists_signs (s.out.drop s.tokenStart)
  refine ⟨b, ps ++ signs, _, ?_, hb, ?_, hn, hsi, ?_⟩
  · change se = _ at hs
    rw [hs]
    nth_rewrite 1 [ht]
    simp
  · intro c hc
    rcases List.mem_append.1 hc with hc | hc
    · exact Or.inl (hp c hc)
    · exact hsig c hc
  · change s.out = _ at ho
    nth_rewrite 1 [ho]
    nth_rewrite 1 [ht]
    simp

theorem snoc_eq_append_cons {α : Type*} {x b after : List α} {c d : α}
    (h : x ++ [c] = b ++ d :: after) :
    (∃ a', x = b ++ d :: a' ∧ after = a' ++ [c]) ∨ (b = x ∧ c = d ∧ after = []) := by
  rcases ListRules.append_eq_append_cons h with ho | ⟨mid, hb, hn⟩
  · exact Or.inl ho
  · cases mid with
    | nil =>
      obtain ⟨hc, ha⟩ := List.cons.inj hn
      exact Or.inr ⟨by simpa using hb, hc, ha.symm⟩
    | cons e mid =>
      have hl := congrArg List.length hn
      simp at hl

/-- A text of the rewriting ends in a field prefix that the query had: the same token with the
same prefix, at the place of the query whose rewriting comes before it. -/
def HadField (alphanumeric : Alphanumeric) (query out : List Char) : Prop :=
  ∃ before signs field after, query = before ++ (signs ++ field) ++ ':' :: after ∧
    AtTokenStart before ∧ (∀ c ∈ signs, IsSign c) ∧ field ∈ fieldNames ∧
    after.head? ≠ some ':' ∧ out = rewrite alphanumeric before ++ (signs ++ field)

/-- Every colon written outside quotes and escapes is a field prefix that the query had. -/
theorem hadField_of_reaches (h : (scanner alphanumeric).Reaches {} query p)
    {b after : List Char} (hou : p.state.out = b ++ ':' :: after)
    (hop : Open b) : HadField alphanumeric query b := by
  revert b after
  refine invariant_of_turns (P := fun p => ∀ {b after : List Char},
    p.state.out = b ++ ':' :: after → Open b → HadField alphanumeric query b) h ?_ ?_
  · intro b after hou
    simp at hou
  · intro p q hr hne hst ih ht b after hou hb
    -- a character that is not a colon leaves the colons as they were
    have hsn : ∀ {x : List Char} {ch : Char}, ch ≠ ':' → x ++ [ch] = b ++ ':' :: after →
        ∃ a', x = b ++ ':' :: a' := by
      intro x ch hch heq
      rcases snoc_eq_append_cons heq with ⟨a', ho, -⟩ | ⟨-, hc, -⟩
      · exact ⟨a', ho⟩
      · exact absurd hc hch
    cases ht with
    | copy hp hw hm hs hf hto =>
      rename_i se r s s' ch
      rw [hw] at hou
      rcases snoc_eq_append_cons hou with ⟨a', ho, -⟩ | ⟨rfl, rfl, -⟩
      · exact ih ho hb
      · -- a copied colon is quoted or escaped
        have hm : s.mode = {} := hst.out_mode.symm.trans hb
        rw [hm] at hp
        exact absurd hp (by decide)
    | colon hop =>
      rename_i se r s
      rcases snoc_eq_append_cons hou with ⟨a', ho, -⟩ | ⟨rfl, hc, -⟩
      · exact ih ho hb
      · have hre : s.realField r = true := by
          by_contra hsplit
          rw [if_neg hsplit] at hc
          exact absurd hc (by decide)
        obtain ⟨start, signs, field, hse, hs, hsig, hf, hsi, hw⟩ := field_of_realField hr hre
        refine ⟨start, signs, field, r, ?_, hs, hsig, hf, hsi, hw⟩
        rw [← hr.append_eq, hse]
    | drop => exact ih hou hb
    | keep hop hs hh hd =>
      rename_i se r s n
      rcases ListRules.append_eq_append_cons hou with ⟨a', ho, -⟩ | ⟨mid, -, hn⟩
      · exact ih ho hb
      · have hme : ':' ∈ List.replicate (n + 1) '-' := by
          rw [hn]
          simp
        exact absurd (List.eq_of_mem_replicate hme) (by decide)
    | boundary hop hch =>
      obtain ⟨a', ho⟩ := hsn (ne_of_isBoundary hch (by decide)) hou
      exact ih ho hb
    | plus =>
      obtain ⟨a', ho⟩ := hsn (by decide) hou
      exact ih ho hb
    | other hop hte hc =>
      obtain ⟨a', ho⟩ := hsn hc hou
      exact ih ho hb

/-- **The rewriting never invents a field prefix.** Quoted and escaped text is copied in order,
and a colon of the output that is neither quoted nor escaped follows a field name, with at most
signs before it, at the start of a token that had this single-colon prefix in the query. -/
theorem lexicalEngineQuery_fields (alphanumeric : Alphanumeric) (query : String) :
    protectedText (lexicalEngineQuery alphanumeric query).toList = protectedText query.toList ∧
      ∀ out rest, (lexicalEngineQuery alphanumeric query).toList = out ++ ':' :: rest → Open out →
        ∃ before signs field after, query.toList = before ++ (signs ++ field) ++ ':' :: after ∧
          AtTokenStart before ∧ (∀ c ∈ signs, IsSign c) ∧ field ∈ fieldNames ∧
          after.head? ≠ some ':' ∧
          out = (lexicalEngineQuery alphanumeric (String.ofList before)).toList
            ++ (signs ++ field) ∧
          AtTokenStart (lexicalEngineQuery alphanumeric (String.ofList before)).toList := by
  obtain ⟨s, hr, hou⟩ := reaches_rewrite alphanumeric query.toList
  rw [toList_lexicalEngineQuery, ← hou]
  constructor
  · exact (steady_of_reaches hr).protected_eq
  · intro out rest hc ho
    obtain ⟨before, signs, field, after, hq, hs, hsig, hf, hsi, hw⟩ := hadField_of_reaches hr hc ho
    refine ⟨before, signs, field, after, hq, hs, hsig, hf, hsi, ?_⟩
    rw [toList_lexicalEngineQuery, String.toList_ofList]
    exact ⟨hw, hs.rewrite⟩

end EngineQuery
