/-
# Provenance URIs (`src/models/provenance.rs`)

A provenance URI names the source of a memory under one of the recognised schemes.  Parsing
trims the text, lower-cases the scheme and reads the body as the scheme asks; printing gives a
canonical text.  What is accepted prints to a text that is accepted again and prints the same;
only a file span of one line loses its end.
-/
import EideticEngine.PositionalDigits
import EideticEngine.TextScan
import EideticEngine.TypedIdText

namespace Provenance

open RustText PositionalDigits

/-! ## UUIDs -/

/-- The characters of a printed UUID. -/
def uuidChars : List Char := "0123456789abcdef-".toList

/-- The crate `uuid`: `Uuid::parse_str`, `Display` in the hyphenated lower-case form, and
`get_version_num`. -/
structure UuidCrate (Uuid : Type) where
  parseStr : String → Option Uuid
  toText : Uuid → String
  versionNum : Uuid → ℕ
  mem_uuidChars : ∀ uuid, ∀ c ∈ (toText uuid).toList, c ∈ uuidChars

variable {Uuid : Type}

/-! ## Line spans -/

/-- `ProvenanceUriError`. -/
inductive ProvenanceUriError where
  | empty
  | missingScheme (input : String)
  | unknownScheme (input scheme : String)
  | emptyBody (input scheme : String)
  | invalidWebBody (input : String)
  | invalidAgentMail (input : String)
  | invalidJournalId (input : String)
  | invalidExternalBody (input : String)
  | invalidFragment (input fragment : String)
  | zeroLineNumber
  | invertedLineRange (start endLine : ℕ)
  | invalidMemoryId (input : String) (source : ParseIdError)
  deriving DecidableEq

/-- `LineSpan`. -/
structure LineSpan where
  start : ℕ
  endLine : Option ℕ
  deriving DecidableEq, Repr

namespace LineSpan

/-- `LineSpan::single`. -/
def single (start : ℕ) : Except ProvenanceUriError LineSpan :=
  if start = 0 then .error .zeroLineNumber else .ok ⟨start, none⟩

/-- `LineSpan::range`. -/
def range (start endLine : ℕ) : Except ProvenanceUriError LineSpan :=
  if start = 0 ∨ endLine = 0 then .error .zeroLineNumber
  else if endLine < start then .error (.invertedLineRange start endLine)
  else .ok ⟨start, some endLine⟩

/-- `LineSpan::fragment`. -/
def fragment (span : LineSpan) : String :=
  match span.endLine with
  | some endLine =>
    if endLine ≠ span.start then "L" ++ toString span.start ++ "-" ++ toString endLine
    else "L" ++ toString span.start
  | none => "L" ++ toString span.start

/-- `LineSpan::range_fragment`. -/
def rangeFragment (span : LineSpan) : String :=
  match span.endLine with
  | some endLine => "L" ++ toString span.start ++ "-" ++ toString endLine
  | none => "L" ++ toString span.start

end LineSpan

/-! ## URIs and their text -/

/-- `ProvenanceUri`. -/
inductive ProvenanceUri where
  | cassSession (session : String) (span : Option LineSpan)
  | file (path : String) (span : Option LineSpan)
  | eeMemory (id : MemoryId)
  | web (url : String)
  | agentMail (thread : String) (message : Option String)
  | external (scheme body : String)
  deriving DecidableEq

/-- `Display` of a URI. -/
def ProvenanceUri.toText : ProvenanceUri → String
  | cassSession session span =>
    "cass-session" ++ "://" ++ (session ++ (span.elim "" fun span => "#" ++ span.rangeFragment))
  | file path span =>
    "file" ++ "://" ++ (path ++ (span.elim "" fun span => "#" ++ span.fragment))
  | eeMemory id => "ee-mem" ++ "://" ++ id.toText
  | web url => url
  | agentMail thread message =>
    "agent-mail" ++ "://" ++ (thread ++ (message.elim "" fun message => "/" ++ message))
  | external scheme body => scheme ++ "://" ++ body

/-! ## Parsing -/

/-- `REGISTERED_EXTERNAL_SCHEMES`. -/
def registeredExternalSchemes : List String :=
  ["ee", "manual", "bench-run", "git-sha", "flamegraph", "ee-reflect", "journal", "sec-filing",
    "earnings-call", "analyst-note", "case", "pacer", "westlaw", "ga4", "mixpanel", "campaign",
    "interview", "linear", "notion", "cve", "mitre", "incident", "pubmed", "guideline", "emr",
    "crm", "salesforce", "gong"]

/-- `external_scheme_name`. -/
def externalSchemeName (scheme : String) : String :=
  (registeredExternalSchemes.find? fun candidate => candidate = scheme).getD "external"

/-- `char::is_ascii_control`. -/
def isAsciiControl (c : Char) : Bool := c.toNat < 32 || c.toNat = 127

/-- `contains_control_or_whitespace`. -/
def containsControlOrWhitespace (value : String) : Bool :=
  value.toList.any fun c => isAsciiControl c || isWhitespace c

/-- `str::to_ascii_lowercase`. -/
def toAsciiLowercase (text : String) : String := String.ofList (text.toList.map Char.toLower)

/-- `parse_line_number`. -/
def parseLineNumber (input text : String) : Except ProvenanceUriError ℕ :=
  if text = "" then .error (.invalidFragment input text)
  else
    match parseU64 text with
    | none => .error (.invalidFragment input text)
    | some n => .ok n

/-- `parse_line_fragment`. -/
def parseLineFragment (input fragment : String) : Except ProvenanceUriError LineSpan :=
  match stripTextPrefix "L" fragment with
  | none => .error (.invalidFragment input fragment)
  | some rest =>
    match splitOnceChar '-' rest with
    | some (startText, endText) =>
      match parseLineNumber input startText with
      | .error e => .error e
      | .ok start =>
        match parseLineNumber input ((stripTextPrefix "L" endText).getD endText) with
        | .error e => .error e
        | .ok endLine => LineSpan.range start endLine
    | none =>
      match parseLineNumber input rest with
      | .error e => .error e
      | .ok start => LineSpan.single start

/-- `split_fragment`. -/
def splitFragment (input body scheme : String) :
    Except ProvenanceUriError (String × Option LineSpan) :=
  match splitOnceChar '#' body with
  | some (value, fragment) =>
    if value = "" then .error (.emptyBody input scheme)
    else
      match parseLineFragment input fragment with
      | .error e => .error e
      | .ok span => .ok (value, some span)
  | none => .ok (body, none)

/-- `parse_cass_session`. -/
def parseCassSession (input body : String) : Except ProvenanceUriError ProvenanceUri :=
  if body = "" then .error (.emptyBody input "cass-session")
  else (splitFragment input body "cass-session").map fun parts => .cassSession parts.1 parts.2

/-- `parse_file`. -/
def parseFile (input body : String) : Except ProvenanceUriError ProvenanceUri :=
  if body = "" then .error (.emptyBody input "file")
  else (splitFragment input body "file").map fun parts => .file parts.1 parts.2

/-- `parse_ee_memory`. -/
def parseEeMemory (input body : String) : Except ProvenanceUriError ProvenanceUri :=
  if body = "" then .error (.emptyBody input "ee-mem")
  else
    match TypedId.fromStr "mem" body with
    | .error source => .error (.invalidMemoryId input source)
    | .ok id => .ok (.eeMemory id)

/-- `parse_web`. -/
def parseWeb (input scheme body : String) : Except ProvenanceUriError ProvenanceUri :=
  let name := if scheme = "https" then "https" else "http"
  if body = "" then .error (.emptyBody input name)
  else if !body.toList.any fun c => !isWhitespace c then .error (.emptyBody input name)
  else if containsControlOrWhitespace body then .error (.invalidWebBody input)
  else if (body.toList.findIdx fun c => c = '/' ∨ c = '?' ∨ c = '#') = 0 then
    .error (.invalidWebBody input)
  else .ok (.web (scheme ++ "://" ++ body))

/-- `parse_agent_mail`. -/
def parseAgentMail (input body : String) : Except ProvenanceUriError ProvenanceUri :=
  if body = "" then .error (.emptyBody input "agent-mail")
  else if containsControlOrWhitespace body then .error (.invalidAgentMail input)
  else
    match splitOnceChar '/' body with
    | some (thread, message) =>
      if thread = "" ∨ message = "" then .error (.invalidAgentMail input)
      else .ok (.agentMail thread (some message))
    | none => .ok (.agentMail body none)

/-- `parse_external`. -/
def parseExternal (input scheme body : String) : Except ProvenanceUriError ProvenanceUri :=
  if body = "" ∨ !body.toList.any (fun c => !isWhitespace c) then
    .error (.emptyBody input (externalSchemeName scheme))
  else if body.toList.any isAsciiControl then .error (.invalidExternalBody input)
  else .ok (.external scheme body)

section

variable (uuids : UuidCrate Uuid)

/-- `parse_journal`. -/
def parseJournal (input body : String) : Except ProvenanceUriError ProvenanceUri :=
  if body = "" then .error (.emptyBody input "journal")
  else
    match ((stripTextPrefix "jrn_" body).bind uuids.parseStr).filter fun uuid =>
        uuids.versionNum uuid = 7 with
    | none => .error (.invalidJournalId input)
    | some uuid => .ok (.external "journal" ("jrn_" ++ uuids.toText uuid))

/-- The match of `from_str` over the lower-cased scheme. -/
def parseBody (input rawScheme body : String) : Except ProvenanceUriError ProvenanceUri :=
  let scheme := toAsciiLowercase rawScheme
  if scheme = "cass-session" then parseCassSession input body
  else if scheme = "file" then parseFile input body
  else if scheme = "ee-mem" then parseEeMemory input body
  else if scheme = "http" ∨ scheme = "https" then parseWeb input scheme body
  else if scheme = "agent-mail" then parseAgentMail input body
  else if scheme = "journal" then parseJournal uuids input body
  else if scheme ∈ registeredExternalSchemes then parseExternal input scheme body
  else .error (.unknownScheme input rawScheme)

/-- `FromStr::from_str` of a URI. -/
def fromStr (input : String) : Except ProvenanceUriError ProvenanceUri :=
  let trimmed := trim input
  if trimmed = "" then .error .empty
  else
    match splitAtText "://" trimmed with
    | none => .error (.missingScheme input)
    | some (rawScheme, body) => parseBody uuids input rawScheme body

end

/-! ## Spans round trip -/

/-- A span that the parser accepts: lines from 1, below `2 ^ 64`, in order. -/
structure LineSpan.Valid (span : LineSpan) : Prop where
  start_pos : 0 < span.start
  start_lt : span.start < 2 ^ 64
  end_le : ∀ endLine ∈ span.endLine, span.start ≤ endLine ∧ endLine < 2 ^ 64

/-- A span of one line without its end. -/
def LineSpan.collapse (span : LineSpan) : LineSpan :=
  if span.endLine = some span.start then ⟨span.start, none⟩ else span

/-- A collapsed span is valid. -/
theorem LineSpan.Valid.collapse {s : LineSpan} (h : s.Valid) : s.collapse.Valid := by
  unfold LineSpan.collapse
  split
  · exact ⟨h.start_pos, h.start_lt, by simp⟩
  · exact h

/-- The collapsing spelling is the other one, of the collapsed span. -/
theorem LineSpan.fragment_eq (s : LineSpan) : s.fragment = s.collapse.rangeFragment := by
  obtain ⟨start, el⟩ := s
  cases el with
  | none => rfl
  | some el =>
    by_cases heq : el = start
    · subst heq
      simp [LineSpan.fragment, LineSpan.collapse, LineSpan.rangeFragment]
    · simp [LineSpan.fragment, LineSpan.collapse, LineSpan.rangeFragment, heq]

theorem LineSpan.collapse_collapse (s : LineSpan) : s.collapse.collapse = s.collapse := by
  by_cases heq : s.endLine = some s.start
  · simp [LineSpan.collapse, heq]
  · simp [LineSpan.collapse, heq]

theorem parseLineNumber_eq_ok {inp text : String} {n : ℕ}
    (h : parseLineNumber inp text = .ok n) : n < 2 ^ 64 := by
  unfold parseLineNumber at h
  split at h
  · cases h
  · split at h
    · cases h
    · rename_i m hm
      cases h
      exact parseU64_lt hm

theorem parseLineNumber_toString (inp : String) {n : ℕ} (h : n < 2 ^ 64) :
    parseLineNumber inp (toString n) = .ok n := by
  unfold parseLineNumber
  have hne : toString n ≠ "" := by
    intro he
    exact toList_toString_ne_nil n (by rw [he]; rfl)
  rw [if_neg hne, parseU64_toString h]

/-- Every span that is read is valid. -/
theorem valid_of_parseLineFragment {inp fragment : String} {s : LineSpan}
    (h : parseLineFragment inp fragment = .ok s) : s.Valid := by
  unfold parseLineFragment at h
  split at h
  · cases h
  · split at h
    · split at h
      · cases h
      · rename_i start hst
        split at h
        · cases h
        · rename_i el hen
          unfold LineSpan.range at h
          split_ifs at h with hzero hinverted
          cases h
          refine ⟨Nat.pos_of_ne_zero fun hs => hzero (Or.inl hs), parseLineNumber_eq_ok hst, ?_⟩
          intro e he
          cases he
          exact ⟨Nat.le_of_not_lt hinverted, parseLineNumber_eq_ok hen⟩
    · split at h
      · cases h
      · rename_i start hst
        unfold LineSpan.single at h
        split_ifs at h with hzero
        cases h
        exact ⟨Nat.pos_of_ne_zero hzero, parseLineNumber_eq_ok hst, by simp⟩

theorem dash_notMem_toString (n : ℕ) : '-' ∉ (toString n).toList := by
  intro hm
  exact absurd (isDigit_of_mem_toString hm) (by decide)

/-- A number does not start with the letter `L`. -/
theorem stripTextPrefix_toString (n : ℕ) : stripTextPrefix "L" (toString n) = none := by
  unfold stripTextPrefix
  rw [if_neg]
  intro hp
  obtain ⟨r, hr⟩ := List.isPrefixOf_iff_prefix.mp hp
  have hm : 'L' ∈ (toString n).toList := by
    rw [← hr]
    simp
  exact absurd (isDigit_of_mem_toString hm) (by decide)

/-- **A printed span is read back.** -/
theorem parseLineFragment_rangeFragment (inp : String) {s : LineSpan} (h : s.Valid) :
    parseLineFragment inp s.rangeFragment = .ok s := by
  obtain ⟨start, el⟩ := s
  have hp := h.start_pos
  have hlt := h.start_lt
  simp only at hp hlt
  unfold parseLineFragment LineSpan.rangeFragment
  cases el with
  | none =>
    simp only
    rw [stripTextPrefix_append]
    simp only
    rw [splitOnceChar_eq_none_iff.mpr (dash_notMem_toString start)]
    simp only [parseLineNumber_toString inp hlt, LineSpan.single, hp.ne', if_false]
  | some el =>
    obtain ⟨hle, he⟩ := h.end_le el rfl
    simp only at hle
    have hs : splitOnceChar '-' (toString start ++ "-" ++ toString el)
        = some (toString start, toString el) :=
      splitOnceChar_eq_some_iff.mpr ⟨rfl, dash_notMem_toString start⟩
    have he0 : ¬ (start = 0 ∨ el = 0) := by omega
    simp only [String.append_assoc] at hs ⊢
    rw [stripTextPrefix_append]
    simp only [hs, parseLineNumber_toString inp hlt, stripTextPrefix_toString,
      Option.getD_none, parseLineNumber_toString inp he, LineSpan.range, if_neg he0,
      hle.not_gt, if_false]

/-! ## What a body may be -/

/-- The body of a session or file URI. -/
structure SpannedBody (value : String) (span : Option LineSpan) : Prop where
  nonempty : value ≠ ""
  no_hash : '#' ∉ value.toList
  span_valid : ∀ s ∈ span, LineSpan.Valid s
  last : span = none → ∀ c ∈ value.toList.getLast?, isWhitespace c = false

theorem spannedBody_of_splitFragment {inp b sc value : String} {sp : Option LineSpan}
    (hne : b ≠ "") (hl : ∀ c ∈ b.toList.getLast?, isWhitespace c = false)
    (h : splitFragment inp b sc = .ok (value, sp)) : SpannedBody value sp := by
  unfold splitFragment at h
  split at h
  · rename_i f fragment hsp
    split at h
    · cases h
    · rename_i hf
      split at h
      · cases h
      · rename_i s hs
        cases h
        refine ⟨hf, (splitOnceChar_eq_some_iff.mp hsp).2, ?_, by simp⟩
        intro t ht
        cases ht
        exact valid_of_parseLineFragment hs
  · rename_i hsp
    cases h
    exact ⟨hne, splitOnceChar_eq_none_iff.mp hsp, by simp, fun _ => hl⟩

/-- A printed body is split again. -/
theorem SpannedBody.splitFragment {value : String} {s : Option LineSpan}
    (h : SpannedBody value s) (inp sc : String) :
    splitFragment inp (value ++ s.elim "" fun s => "#" ++ s.rangeFragment) sc
      = .ok (value, s) := by
  unfold Provenance.splitFragment
  cases s with
  | none =>
    rw [Option.elim_none, String.append_empty, splitOnceChar_eq_none_iff.mpr h.no_hash]
  | some s =>
    have hs : splitOnceChar '#' (value ++ "#" ++ s.rangeFragment)
        = some (value, s.rangeFragment) :=
      splitOnceChar_eq_some_iff.mpr ⟨rfl, h.no_hash⟩
    rw [Option.elim_some, ← String.append_assoc, hs]
    simp only [h.nonempty, if_false, parseLineFragment_rangeFragment inp (h.span_valid s rfl)]

/-- The schemes that the parser knows. -/
def knownSchemes : List String :=
  ["cass-session", "file", "ee-mem", "http", "https", "agent-mail"] ++ registeredExternalSchemes

/-- The schemes and the digits, one by one. -/
theorem scheme_table :
    knownSchemes.all (fun scheme => toAsciiLowercase scheme == scheme
        && !scheme.toList.contains ':' && (scheme.toList.head?.any fun c => !isWhitespace c))
          = true ∧
      registeredExternalSchemes.all (fun s => s ≠ "cass-session" ∧ s ≠ "file" ∧ s ≠ "ee-mem" ∧
        ¬ (s = "http" ∨ s = "https") ∧ s ≠ "agent-mail") = true ∧
      (∀ d : Fin 32, isWhitespace (TypedId.digitChar d) = false) ∧
      uuidChars.all (fun c => !isWhitespace c) = true := by
  decide +kernel

/-- A known scheme is in lower case, starts with a letter and has no colon. -/
theorem knownSchemes_spec {scheme : String} (h : scheme ∈ knownSchemes) :
    toAsciiLowercase scheme = scheme ∧ ':' ∉ scheme.toList ∧
      ∃ c rest, scheme.toList = c :: rest ∧ isWhitespace c = false := by
  have hs := List.all_eq_true.mp scheme_table.1 scheme h
  simp only [Bool.and_eq_true, beq_iff_eq, Bool.not_eq_true', List.contains_eq_mem,
    decide_eq_false_iff_not, Option.any_eq_true] at hs
  obtain ⟨⟨hlower, hcolon⟩, c, hhead, hblank⟩ := hs
  refine ⟨hlower, hcolon, c, scheme.toList.tail, ?_, hblank⟩
  exact (List.head?_eq_some_iff.mp hhead).elim fun rest hrest => by rw [hrest]; rfl

section

variable (uuids : UuidCrate Uuid)

/-- **A printed text reaches the parser of its scheme** with its body. -/
theorem fromStr_of_known {s b : String} (hs : s ∈ knownSchemes)
    (hl : ∀ c ∈ b.toList.getLast?, isWhitespace c = false) :
    fromStr uuids (s ++ "://" ++ b)
      = parseBody uuids (s ++ "://" ++ b) s b := by
  obtain ⟨-, hco, first, r, hch, hbl⟩ := knownSchemes_spec hs
  have ht : (s ++ "://" ++ b).toList = s.toList ++ "://".toList ++ b.toList := by
    simp
  have htr : trim (s ++ "://" ++ b) = s ++ "://" ++ b := by
    apply trim_eq_self
    · intro c hc
      rw [ht, hch] at hc
      cases hc
      exact hbl
    · intro c hc
      rw [ht, List.getLast?_append] at hc
      cases hb : b.toList.getLast? with
      | some l =>
        rw [hb] at hc
        exact hl c (by rw [hb]; exact hc)
      | none =>
        rw [hb, Option.none_or, List.getLast?_append] at hc
        cases hc
        decide
  have hne : s ++ "://" ++ b ≠ "" := by
    intro he
    have hn := congrArg String.toList he
    rw [ht, hch] at hn
    cases hn
  have hsp : splitAtText "://" (s ++ "://" ++ b) = some (s, b) := by
    unfold splitAtText
    rw [ht]
    have hp : "://".toList = ':' :: ['/', '/'] := rfl
    rw [hp, splitAtPattern_append hco]
    simp
  unfold fromStr
  simp only [htr, hne, if_false, hsp]

/-- What is accepted was split into a scheme and a body that does not end in a blank. -/
theorem exists_body_of_fromStr {inp : String} {uri : ProvenanceUri}
    (h : fromStr uuids inp = .ok uri) :
    ∃ rs b, (∀ c ∈ b.toList.getLast?, isWhitespace c = false) ∧
      parseBody uuids inp rs b = .ok uri := by
  unfold fromStr at h
  simp only at h
  split at h
  · cases h
  · split at h
    · cases h
    · rename_i rs b hs
      refine ⟨rs, b, ?_, h⟩
      intro c hc
      unfold splitAtText at hs
      obtain ⟨ps, hp, heq⟩ := Option.map_eq_some_iff.mp hs
      cases heq
      have ht := splitAtPattern_eq_some hp
      refine isWhitespace_getLast_trim (s := inp) ?_
      rw [String.toList_ofList] at hc
      rw [ht, List.getLast?_append, hc]
      rfl

/-! ## Each scheme prints what it reads -/

/-- The value that a printed URI is read as: a file span of one line loses its end. -/
def ProvenanceUri.collapse : ProvenanceUri → ProvenanceUri
  | .file path (some span) => .file path (some span.collapse)
  | uri => uri

theorem ProvenanceUri.toText_collapse (uri : ProvenanceUri) : uri.collapse.toText = uri.toText := by
  cases uri with
  | file p s =>
    cases s with
    | none => rfl
    | some s =>
      simp only [collapse, toText, Option.elim_some, LineSpan.fragment_eq,
        LineSpan.collapse_collapse]
  | cassSession session s => rfl
  | eeMemory id => rfl
  | web url => rfl
  | agentMail t message => rfl
  | external sc b => rfl

/-- The text of a span ends in a digit. -/
theorem getLast_rangeFragment (s : LineSpan) :
    ∀ c ∈ s.rangeFragment.toList.getLast?, isWhitespace c = false := by
  have hd : ∀ n : ℕ, ∀ c ∈ (toString n).toList.getLast?, isWhitespace c = false := by
    intro n c hc
    exact isWhitespace_of_isDigit (isDigit_of_mem_toString (List.mem_of_mem_getLast? hc))
  intro c hc
  unfold LineSpan.rangeFragment at hc
  split at hc
  · rw [String.toList_append, List.getLast?_append_of_ne_nil _ (toList_toString_ne_nil _)] at hc
    exact hd _ c hc
  · rw [String.toList_append, List.getLast?_append_of_ne_nil _ (toList_toString_ne_nil _)] at hc
    exact hd _ c hc

theorem SpannedBody.getLast {value : String} {s : Option LineSpan} (h : SpannedBody value s) :
    ∀ c ∈ (value ++ s.elim "" fun s => "#" ++ s.rangeFragment).toList.getLast?,
      isWhitespace c = false := by
  cases s with
  | none =>
    rw [Option.elim_none, String.append_empty]
    exact h.last rfl
  | some s =>
    have hne : s.rangeFragment.toList ≠ [] := by
      unfold LineSpan.rangeFragment
      split <;> simp
    intro c hc
    rw [Option.elim_some, String.toList_append, String.toList_append,
      List.getLast?_append_of_ne_nil _ (by simp),
      List.getLast?_append_of_ne_nil _ hne] at hc
    exact getLast_rangeFragment s c hc

theorem cassSession_stable {inp b : String} {uri : ProvenanceUri}
    (hl : ∀ c ∈ b.toList.getLast?, isWhitespace c = false)
    (h : parseCassSession inp b = .ok uri) :
    fromStr uuids uri.toText = .ok uri.collapse := by
  unfold parseCassSession at h
  split at h
  · cases h
  · rename_i hne
    cases hs : splitFragment inp b "cass-session" with
    | error e =>
      rw [hs] at h
      cases h
    | ok ps =>
      rw [hs] at h
      cases h
      have hb := spannedBody_of_splitFragment hne hl hs
      have hn : ps.1 ++ (ps.2.elim "" fun s => "#" ++ s.rangeFragment) ≠ "" := by
        intro he
        exact hb.nonempty (String.append_eq_empty_iff.mp he).1
      unfold ProvenanceUri.toText
      rw [fromStr_of_known uuids (by decide) hb.getLast]
      have hsc : toAsciiLowercase "cass-session" = "cass-session" := by decide
      simp only [parseBody, hsc, if_true, parseCassSession, hn, if_false, hb.splitFragment]
      rfl

theorem file_stable {inp b : String} {uri : ProvenanceUri}
    (hl : ∀ c ∈ b.toList.getLast?, isWhitespace c = false)
    (h : parseFile inp b = .ok uri) :
    fromStr uuids uri.toText = .ok uri.collapse := by
  unfold parseFile at h
  split at h
  · cases h
  · rename_i hne
    cases hsp : splitFragment inp b "file" with
    | error e =>
      rw [hsp] at h
      cases h
    | ok ps =>
      rw [hsp] at h
      cases h
      -- the text is that of the collapsed span, which is read back as it is
      have hb : SpannedBody ps.1 (ps.2.map LineSpan.collapse) := by
        have hr := spannedBody_of_splitFragment hne hl hsp
        refine ⟨hr.nonempty, hr.no_hash, ?_, fun hno => hr.last (by simpa using hno)⟩
        intro s hs
        obtain ⟨t, ht, rfl⟩ := Option.map_eq_some_iff.mp hs
        exact (hr.span_valid t ht).collapse
      have hte : (ProvenanceUri.file ps.1 ps.2).toText = "file" ++ "://" ++ (ps.1
          ++ ((ps.2.map LineSpan.collapse).elim "" fun sp => "#" ++ sp.rangeFragment)) := by
        cases ps.2 with
        | none => rfl
        | some sp =>
          simp only [ProvenanceUri.toText, Option.elim_some, Option.map_some, LineSpan.fragment_eq]
      have hc : (ProvenanceUri.file ps.1 ps.2).collapse
          = .file ps.1 (ps.2.map LineSpan.collapse) := by
        cases ps.2 <;> rfl
      have hn : ps.1 ++ ((ps.2.map LineSpan.collapse).elim "" fun sp =>
          "#" ++ sp.rangeFragment) ≠ "" := by
        intro he
        exact hb.nonempty (String.append_eq_empty_iff.mp he).1
      have hsc : toAsciiLowercase "file" = "file" := by decide
      have ho : ¬ "file" = "cass-session" := by decide
      rw [hte, hc, fromStr_of_known uuids (by decide) hb.getLast]
      simp only [parseBody, hsc, ho, if_true, if_false, parseFile, hn, hb.splitFragment]
      rfl

theorem eeMemory_stable {inp b : String} {uri : ProvenanceUri} (h : parseEeMemory inp b = .ok uri) :
    fromStr uuids uri.toText = .ok uri.collapse := by
  unfold parseEeMemory at h
  split at h
  · cases h
  · split at h
    · cases h
    · rename_i id hid
      cases h
      have hr : TypedId.fromStr "mem" id.toText = .ok id :=
        TypedId.fromStr_toText (by decide) id
      have hch : ∀ c ∈ encodeCrockford id.inner, isWhitespace c = false := by
        intro c hc
        rw [TypedId.encodeCrockford_eq] at hc
        obtain ⟨d, hd, rfl⟩ := List.mem_map.mp hc
        exact scheme_table.2.2.1 ⟨d, digitsOf_lt (by decide) _ _ d hd⟩
      have hne : encodeCrockford id.inner ≠ [] := by
        intro hni
        have hl := congrArg List.length hni
        rw [TypedId.encodeCrockford_eq, List.length_map, length_digitsOf] at hl
        cases hl
      have hla : ∀ c ∈ id.toText.toList.getLast?, isWhitespace c = false := by
        intro c hc
        unfold TypedId.toText at hc
        rw [String.toList_append, String.toList_ofList, List.getLast?_append_of_ne_nil _ hne] at hc
        exact hch c (List.mem_of_mem_getLast? hc)
      have hn : id.toText ≠ "" := by
        intro he
        rw [TypedId.toText, String.append_eq_empty_iff] at he
        exact hne (by simpa using congrArg String.toList he.2)
      have hs : toAsciiLowercase "ee-mem" = "ee-mem" := by decide
      have ho : ¬ "ee-mem" = "cass-session" ∧ ¬ "ee-mem" = "file" := by decide
      unfold ProvenanceUri.toText
      rw [fromStr_of_known uuids (by decide) hla]
      simp only [parseBody, hs, ho.1, ho.2, if_true, if_false, parseEeMemory, hn, hr]
      rfl

theorem web_stable {inp s b : String} {uri : ProvenanceUri}
    (hs : s = "http" ∨ s = "https")
    (hla : ∀ c ∈ b.toList.getLast?, isWhitespace c = false)
    (h : parseWeb inp s b = .ok uri) :
    fromStr uuids uri.toText = .ok uri.collapse := by
  unfold parseWeb at h
  simp only at h
  split_ifs at h with hempty hblank hcontrol hauthority
  cases h
  have hk : s ∈ knownSchemes := by
    rcases hs with rfl | rfl <;> decide
  have hl := (knownSchemes_spec hk).1
  have ho : ¬ s = "cass-session" ∧ ¬ s = "file" ∧ ¬ s = "ee-mem" := by
    rcases hs with rfl | rfl <;> decide
  unfold ProvenanceUri.toText
  rw [fromStr_of_known uuids hk hla]
  simp only [parseBody, hl, ho.1, ho.2.1, ho.2.2, hs, if_true, if_false,
    parseWeb, hempty, hblank, hcontrol, hauthority, Bool.false_eq_true]
  rfl

theorem agentMail_stable {inp b : String} {uri : ProvenanceUri}
    (hl : ∀ c ∈ b.toList.getLast?, isWhitespace c = false)
    (h : parseAgentMail inp b = .ok uri) :
    fromStr uuids uri.toText = .ok uri.collapse := by
  have hs : toAsciiLowercase "agent-mail" = "agent-mail" := by decide
  have ho : ¬ "agent-mail" = "cass-session" ∧ ¬ "agent-mail" = "file" ∧
      ¬ "agent-mail" = "ee-mem" ∧ ¬ ("agent-mail" = "http" ∨ "agent-mail" = "https") := by
    decide
  -- the printed body is the body that was read
  have hp : uri.toText = "agent-mail" ++ "://" ++ b := by
    unfold parseAgentMail at h
    split_ifs at h with hempty hcontrol
    split at h
    · rename_i t message hsp
      split_ifs at h with hparts
      cases h
      rw [(splitOnceChar_eq_some_iff.mp hsp).1]
      simp only [ProvenanceUri.toText, Option.elim_some, String.append_assoc]
    · cases h
      simp [ProvenanceUri.toText]
  have ha : ∀ i', parseAgentMail i' b = .ok uri := by
    intro i'
    unfold parseAgentMail at h ⊢
    split_ifs at h ⊢ with hempty hcontrol
    split at h
    · split_ifs at h ⊢ with hparts
      exact h
    · exact h
  have hc : uri.collapse = uri := by
    unfold parseAgentMail at h
    split_ifs at h with hempty hcontrol
    split at h
    · split_ifs at h with hparts
      cases h
      rfl
    · cases h
      rfl
  rw [hp, hc, fromStr_of_known uuids (by decide) hl]
  simp only [parseBody, hs, ho.1, ho.2.1, ho.2.2.1, ho.2.2.2, if_true, if_false]
  exact ha _

theorem external_stable {inp s b : String} {uri : ProvenanceUri}
    (hr : s ∈ registeredExternalSchemes) (hj : ¬ s = "journal")
    (hla : ∀ c ∈ b.toList.getLast?, isWhitespace c = false)
    (h : parseExternal inp s b = .ok uri) :
    fromStr uuids uri.toText = .ok uri.collapse := by
  unfold parseExternal at h
  split_ifs at h with hempty hcontrol
  cases h
  have hk : s ∈ knownSchemes := List.mem_append_right _ hr
  have hl := (knownSchemes_spec hk).1
  have ho : ¬ s = "cass-session" ∧ ¬ s = "file" ∧ ¬ s = "ee-mem" ∧
      ¬ (s = "http" ∨ s = "https") ∧ ¬ s = "agent-mail" := by
    simpa using List.all_eq_true.mp scheme_table.2.1 s hr
  unfold ProvenanceUri.toText
  rw [fromStr_of_known uuids hk hla]
  simp only [parseBody, hl, ho.1, ho.2.1, ho.2.2.1, ho.2.2.2.1, ho.2.2.2.2,
    hj, hr, if_true, if_false, parseExternal, hempty, hcontrol,
    Bool.false_eq_true]
  rfl

/-- The text of a UUID has no blanks. -/
theorem UuidCrate.isWhitespace_toText (uuid : Uuid) :
    ∀ c ∈ (uuids.toText uuid).toList, isWhitespace c = false := by
  intro c hc
  have ha := List.all_eq_true.mp scheme_table.2.2.2 c (uuids.mem_uuidChars uuid c hc)
  simpa using ha

theorem journal_stable (hr : ∀ uuid, uuids.parseStr (uuids.toText uuid) = some uuid)
    {inp b : String} {uri : ProvenanceUri}
    (h : parseJournal uuids inp b = .ok uri) :
    fromStr uuids uri.toText = .ok uri.collapse := by
  unfold parseJournal at h
  split_ifs at h with hempty
  split at h
  · cases h
  · rename_i u hf
    cases h
    have hv : uuids.versionNum u = 7 := by
      simpa using (Option.filter_eq_some_iff.mp hf).2
    have hl : ∀ c ∈ ("jrn_" ++ uuids.toText u).toList.getLast?, isWhitespace c = false := by
      intro c hc
      have hm := List.mem_of_mem_getLast? hc
      rw [String.toList_append, List.mem_append] at hm
      rcases hm with hm | hm
      · have ha : "jrn_".toList.all (fun c => !isWhitespace c) = true := by decide
        simpa using List.all_eq_true.mp ha c hm
      · exact uuids.isWhitespace_toText u c hm
    have hn : "jrn_" ++ uuids.toText u ≠ "" := by
      intro hni
      exact absurd (String.append_eq_empty_iff.mp hni).1 (by decide)
    have hs : toAsciiLowercase "journal" = "journal" := by decide
    have ho : ¬ "journal" = "cass-session" ∧ ¬ "journal" = "file" ∧ ¬ "journal" = "ee-mem" ∧
        ¬ ("journal" = "http" ∨ "journal" = "https") ∧ ¬ "journal" = "agent-mail" := by
      decide
    unfold ProvenanceUri.toText
    rw [fromStr_of_known uuids (by decide) hl]
    simp only [parseBody, hs, ho.1, ho.2.1, ho.2.2.1, ho.2.2.2.1,
      ho.2.2.2.2, if_true, if_false, parseJournal, hn, stripTextPrefix_append,
      Option.bind_some, hr, Option.filter_some, hv, decide_true]
    rfl

/-- **Provenance URIs normalise in one step.**  Whatever is accepted prints to a text that is
accepted again, as the same value except that a file span of one line loses its end, and that
value prints the same text. -/
theorem provenance_normalizes
    (hround : ∀ uuid, uuids.parseStr (uuids.toText uuid) = some uuid)
    {input : String} {uri : ProvenanceUri} (h : fromStr uuids input = .ok uri) :
    fromStr uuids uri.toText = .ok uri.collapse ∧ uri.collapse.toText = uri.toText := by
  refine ⟨?_, uri.toText_collapse⟩
  obtain ⟨rs, b, hl, hb⟩ := exists_body_of_fromStr uuids h
  unfold parseBody at hb
  simp only at hb
  split_ifs at hb with hcass hfile hmem hweb hmail hjournal hregistered
  · exact cassSession_stable uuids hl hb
  · exact file_stable uuids hl hb
  · exact eeMemory_stable uuids hb
  · exact web_stable uuids hweb hl hb
  · exact agentMail_stable uuids hl hb
  · exact journal_stable uuids hround hb
  · exact external_stable uuids hregistered hjournal hl hb

end

/-! ## A file span of one line -/

/-- `Uuid::get_version_num`, of the number that the bytes spell: the high half of byte 6. -/
def versionNum (uuid : Fin (2 ^ 128)) : ℕ := uuid.val / 16 ^ 19 % 16

/-- `Display` of a UUID: 32 lower-case hexadecimal digits in groups of 8, 4, 4, 4 and 12. -/
def hyphenatedText (uuid : Fin (2 ^ 128)) : String :=
  let digits := (digitsOf 16 32 uuid).map Nat.digitChar
  String.ofList (digits.take 8 ++ '-' :: (digits.drop 8).take 4 ++ '-' :: (digits.drop 12).take 4
    ++ '-' :: (digits.drop 16).take 4 ++ '-' :: digits.drop 20)

theorem mem_uuidChars_hyphenatedText (uuid : Fin (2 ^ 128)) :
    ∀ c ∈ (hyphenatedText uuid).toList, c ∈ uuidChars := by
  have ha : '-' ∈ uuidChars ∧ ∀ d : Fin 16, Nat.digitChar d ∈ uuidChars := by decide +kernel
  have hdi : ∀ c ∈ (digitsOf 16 32 uuid).map Nat.digitChar, c ∈ uuidChars := by
    intro c hc
    obtain ⟨d, hd, rfl⟩ := List.mem_map.mp hc
    exact ha.2 ⟨d, digitsOf_lt (by decide) _ _ d hd⟩
  intro c hc
  unfold hyphenatedText at hc
  simp only [String.toList_ofList, List.mem_append, List.mem_cons] at hc
  rcases hc with (((hc | rfl | hc) | rfl | hc) | rfl | hc) | rfl | hc
  · exact hdi c (List.mem_of_mem_take hc)
  · exact ha.1
  · exact hdi c (List.mem_of_mem_drop (List.mem_of_mem_take hc))
  · exact ha.1
  · exact hdi c (List.mem_of_mem_drop (List.mem_of_mem_take hc))
  · exact ha.1
  · exact hdi c (List.mem_of_mem_drop (List.mem_of_mem_take hc))
  · exact ha.1
  · exact hdi c (List.mem_of_mem_drop hc)

/-- The value of a lower-case hexadecimal digit. -/
def hexDigitValue (c : Char) : ℕ := if c.isDigit then c.toNat - 48 else c.toNat - 87

/-- Reading the hyphenated lower-case form of a UUID, which is one of the forms that
`Uuid::parse_str` reads. -/
def parseHyphenated (text : String) : Option (Fin (2 ^ 128)) :=
  let digits := (text.toList.filter (· ≠ '-')).map hexDigitValue
  let uuid : Fin (2 ^ 128) := Fin.ofNat (2 ^ 128) (valueOf 16 0 digits)
  if hyphenatedText uuid = text then some uuid else none

/-- The crate on UUIDs in the hyphenated form. -/
def hyphenated : UuidCrate (Fin (2 ^ 128)) where
  parseStr := parseHyphenated
  toText := hyphenatedText
  versionNum := versionNum
  mem_uuidChars := mem_uuidChars_hyphenatedText

theorem parseHyphenated_hyphenatedText (u : Fin (2 ^ 128)) :
    parseHyphenated (hyphenatedText u) = some u := by
  have ha : ∀ d : Fin 16, Nat.digitChar d ≠ '-' ∧ hexDigitValue (Nat.digitChar d) = d.val := by
    decide
  have hdi : ∀ d ∈ digitsOf 16 32 u.val,
      Nat.digitChar d ≠ '-' ∧ hexDigitValue (Nat.digitChar d) = d := fun d hd =>
    ha ⟨d, digitsOf_lt (by decide) _ _ d hd⟩
  have hpl : ∀ c ∈ (digitsOf 16 32 u.val).map Nat.digitChar, decide (c ≠ '-') = true := by
    intro c hc
    obtain ⟨d, hd, rfl⟩ := List.mem_map.mp hc
    exact decide_eq_true (hdi d hd).1
  have hf : (hyphenatedText u).toList.filter (· ≠ '-')
      = (digitsOf 16 32 u.val).map Nat.digitChar := by
    unfold hyphenatedText
    simp only [String.toList_ofList]
    generalize (digitsOf 16 32 u.val).map Nat.digitChar = l at hpl
    have hp : ∀ k : List Char, k ⊆ l → k.filter (fun c => decide (c ≠ '-')) = k :=
      fun k hk => List.filter_eq_self.mpr fun c hc => hpl c (hk hc)
    have hda : ∀ k : List Char, ('-' :: k).filter (fun c => decide (c ≠ '-'))
        = k.filter fun c => decide (c ≠ '-') := fun k => by simp
    rw [List.filter_append, List.filter_append, List.filter_append, List.filter_append, hda,
      hda, hda, hda, hp _ (List.take_subset _ _),
      hp _ (List.Subset.trans (List.take_subset _ _) (List.drop_subset _ _)),
      hp _ (List.Subset.trans (List.take_subset _ _) (List.drop_subset _ _)),
      hp _ (List.Subset.trans (List.take_subset _ _) (List.drop_subset _ _)),
      hp _ (List.drop_subset _ _)]
    have hj : ∀ i, (l.drop i).take 4 ++ l.drop (i + 4) = l.drop i := fun i => by
      rw [← List.drop_drop, List.take_append_drop]
    rw [List.append_assoc, List.append_assoc, List.append_assoc, hj 16, hj 12, hj 8,
      List.take_append_drop]
  have hv : valueOf 16 0 (((digitsOf 16 32 u.val).map Nat.digitChar).map hexDigitValue)
      = u.val := by
    have hb : ((digitsOf 16 32 u.val).map Nat.digitChar).map hexDigitValue
        = digitsOf 16 32 u.val := by
      rw [List.map_map]
      conv_rhs => rw [← List.map_id (digitsOf 16 32 u.val)]
      exact List.map_congr_left fun d hd => (hdi d hd).2
    rw [hb, valueOf_digitsOf, Nat.mod_eq_of_lt]
    exact lt_of_lt_of_eq u.isLt (by norm_num)
  have hu : (Fin.ofNat (2 ^ 128) u.val : Fin (2 ^ 128)) = u := Fin.ext (Nat.mod_eq_of_lt u.isLt)
  unfold parseHyphenated
  simp only [hf, hv, hu, if_true]

/-- Blanks around the text, an upper-case scheme, a sign, a leading zero and a second `L`: the
span of one line is printed as that line. -/
theorem provenance_normalizes_file :
    (fromStr hyphenated " FILE://src/lib.rs#L+07-L7 ").toOption
        = some (.file "src/lib.rs" (some ⟨7, some 7⟩)) ∧
      (ProvenanceUri.file "src/lib.rs" (some ⟨7, some 7⟩)).toText = "file://src/lib.rs#L7" ∧
      fromStr hyphenated "file://src/lib.rs#L7" = .ok (.file "src/lib.rs" (some ⟨7, none⟩)) ∧
      (ProvenanceUri.file "src/lib.rs" (some ⟨7, none⟩)).toText = "file://src/lib.rs#L7" := by
  have hr : (fromStr hyphenated " FILE://src/lib.rs#L+07-L7 ").toOption
      = some (.file "src/lib.rs" (some ⟨7, some 7⟩)) := by
    decide +kernel
  have hok : fromStr hyphenated " FILE://src/lib.rs#L+07-L7 "
      = .ok (.file "src/lib.rs" (some ⟨7, some 7⟩)) := by
    cases hc : fromStr hyphenated " FILE://src/lib.rs#L+07-L7 " with
    | error e =>
      rw [hc] at hr
      cases hr
    | ok uri =>
      rw [hc] at hr
      exact congrArg Except.ok (Option.some.inj hr)
  have ht : (ProvenanceUri.file "src/lib.rs" (some ⟨7, some 7⟩)).toText
      = "file://src/lib.rs#L7" := by
    decide +kernel
  obtain ⟨ha, hp⟩ := provenance_normalizes hyphenated parseHyphenated_hyphenatedText hok
  rw [ht] at ha hp
  exact ⟨hr, ht, ha, hp⟩

end Provenance
