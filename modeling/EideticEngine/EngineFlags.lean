/-
# Options in the query of the lexical engine

When `lexical_engine_query` of `src/search/query.rs` lets a command-line option through as an
exclusion.  The dashes of a long option never reach the engine.  A short flag does when a colon
that is no field prefix follows it: the flag is looked for in the token before the token is
split at the colon.
-/
import EideticEngine.EngineQuery

namespace EngineQuery

open RustText (isWhitespace)
open CursorScan (Scanner)

variable {alphanumeric : Alphanumeric} {query : List Char} {p : Place}

/-! ## Moves of the loop -/

theorem Rewrite.mode_eq_open {s : Rewrite} (h : s.mode = {}) :
    s.inQuote = false ∧ s.escaped = false := by
  simpa [Rewrite.mode] using h

/-- A character that no branch but the last one takes. -/
structure IsWordChar (c : Char) : Prop where
  text : IsText c
  not_colon : c ≠ ':'
  not_boundary : isBoundary c = false

theorem moves_other {se r : List Char} {s : Rewrite} {ch : Char} (ho : s.mode = {})
    (hw : IsWordChar ch) (hsi : ch = '+' ∨ ch = '-' → s.atTokenStart = false) :
    (scanner alphanumeric).Moves ⟨se, s, ch :: r⟩
      ⟨se ++ [ch], { s with out := s.out ++ [ch], atTokenStart := false }, r⟩ := by
  refine .step ?_ rfl
  change step alphanumeric s ch r = _
  obtain ⟨hq, he⟩ := Rewrite.mode_eq_open ho
  have hb := hw.not_boundary
  unfold isBoundary at hb
  have hd : ¬(ch = '-' ∧ s.atTokenStart = true) := by
    rintro ⟨rfl, hs⟩
    rw [hsi (Or.inr rfl)] at hs
    cases hs
  have hp : ¬(ch = '+' ∧ s.atTokenStart = true) := by
    rintro ⟨rfl, hs⟩
    rw [hsi (Or.inl rfl)] at hs
    cases hs
  unfold step Rewrite.plain
  simp only [he, hw.text.1, hw.text.2, hq, hw.not_colon, hd, hp, hb, Bool.false_eq_true, if_false]

theorem moves_plus {se r : List Char} {s : Rewrite} (ho : s.mode = {})
    (hs : s.atTokenStart = true) :
    (scanner alphanumeric).Moves ⟨se, s, '+' :: r⟩ ⟨se ++ ['+'],
        { s with out := s.out ++ ['+'], tokenStart := (s.out ++ ['+']).length }, r⟩ := by
  refine .step ?_ rfl
  change step alphanumeric s '+' r = _
  obtain ⟨hq, he⟩ := Rewrite.mode_eq_open ho
  have hb : isWhitespace '+' = false := by decide
  unfold step Rewrite.plain
  simp [he, hq, hs, hb]

theorem moves_colon {se r : List Char} {s : Rewrite} (ho : s.mode = {}) :
    (scanner alphanumeric).Moves ⟨se, s, ':' :: r⟩ ⟨se ++ [':'], s.colon r, r⟩ := by
  refine .step ?_ rfl
  change step alphanumeric s ':' r = _
  obtain ⟨hq, he⟩ := Rewrite.mode_eq_open ho
  unfold step
  simp [he, hq]

theorem moves_dashes {se r : List Char} {s : Rewrite} {n : ℕ} (ho : s.mode = {})
    (hs : s.atTokenStart = true) (hh : r.head? ≠ some '-') :
    (scanner alphanumeric).Moves ⟨se, s, List.replicate (n + 1) '-' ++ r⟩
      ⟨se ++ List.replicate (n + 1) '-', if dropsDashes alphanumeric (n + 1) r then
          { s with fieldAllowed := false, atTokenStart := false }
        else { s with out := s.out ++ List.replicate (n + 1) '-', atTokenStart := false },
        r⟩ := by
  obtain ⟨hq, he⟩ := Rewrite.mode_eq_open ho
  have hd := Rewrite.dash_eq alphanumeric s (n + 1) hh
  rw [List.replicate_succ, List.cons_append] at hd ⊢
  refine .step ?_ (by simp)
  change step alphanumeric s '-' (List.replicate n '-' ++ r) = _
  unfold step
  rw [if_neg (by simp [he]), if_neg (by decide), if_neg (by decide),
    if_neg (by simp [hq]), if_neg (by decide), if_pos ⟨rfl, hs⟩]
  exact hd

/-- Text inside a token is copied. -/
theorem reaches_word {se word r : List Char} {s : Rewrite}
    (h : (scanner alphanumeric).Reaches {} query ⟨se, s, word ++ r⟩) (ho : s.mode = {})
    (hs : s.atTokenStart = false) (hw : ∀ c ∈ word, IsWordChar c) :
    (scanner alphanumeric).Reaches {} query ⟨se ++ word, { s with out := s.out ++ word }, r⟩ := by
  induction word generalizing se s with
  | nil => simpa using h
  | cons c word ih =>
    have hm := h.tail (moves_other ho (hw c List.mem_cons_self) fun _ => hs)
    have hr := ih hm ho rfl fun d hd => hw d (List.mem_cons_of_mem _ hd)
    simpa [hs] using hr

/-- The signs `+` at the start of a token are copied, and the token starts behind them. -/
theorem reaches_pluses {s r out : List Char} {n : ℕ} (h : (scanner alphanumeric).Reaches {} query
      ⟨s, freshState out, List.replicate n '+' ++ r⟩) :
    (scanner alphanumeric).Reaches {} query
      ⟨s ++ List.replicate n '+', freshState (out ++ List.replicate n '+'), r⟩ := by
  induction n generalizing s out with
  | zero => simpa using h
  | succ n ih =>
    rw [List.replicate_succ, List.cons_append] at h
    have hm : (scanner alphanumeric).Reaches {} query
        ⟨s ++ ['+'], freshState (out ++ ['+']), List.replicate n '+' ++ r⟩ :=
      h.tail (moves_plus rfl rfl)
    have hr := ih hm
    simpa [List.replicate_succ] using hr

/-! ## Which colons are kept -/

/-- Dashes only, and two or more of them. -/
def LongDashes (dashes : List Char) : Prop := 2 ≤ dashes.length ∧ ∀ c ∈ dashes, c = '-'

/-- The signs of a long option: two or more dashes behind signs `+`. -/
def OptionDashes (signs : List Char) : Prop := LongDashes (signs.dropWhile (· == '+'))

/-- The colon between two texts is a field prefix: it is a single one, and a field name comes
before it at the start of a token, with at most signs that make no long option. -/
def FieldColon (text rest : List Char) : Prop :=
  rest.head? ≠ some ':' ∧
    ∃ before signs field, text = before ++ (signs ++ field) ∧ AtTokenStart before ∧
      (∀ c ∈ signs, IsSign c) ∧ field ∈ fieldNames ∧ ¬OptionDashes signs

theorem isWordChar_of_isSign {c : Char} (h : IsSign c) : IsWordChar c := by
  rcases h with rfl | rfl
  · exact ⟨⟨by decide, by decide⟩, by decide, by decide⟩
  · exact ⟨⟨by decide, by decide⟩, by decide, by decide⟩

/-- The ASCII letters and digits by their code points. -/
theorem toNat_of_isAlphanum {c : Char} (h : c.isAlphanum = true) :
    48 ≤ c.toNat ∧ c.toNat ≤ 57 ∨ 65 ≤ c.toNat ∧ c.toNat ≤ 90 ∨ 97 ≤ c.toNat ∧ c.toNat ≤ 122 := by
  simp only [Char.isAlphanum, Char.isAlpha, Char.isUpper, Char.isLower, Char.isDigit,
    Bool.or_eq_true, Bool.and_eq_true, decide_eq_true_eq, ge_iff_le,
    UInt32.le_iff_toNat_le] at h
  change ((65 ≤ c.toNat ∧ c.toNat ≤ 90) ∨ (97 ≤ c.toNat ∧ c.toNat ≤ 122)) ∨
    (48 ≤ c.toNat ∧ c.toNat ≤ 57) at h
  omega

theorem ne_of_isAlphanum {c d : Char} (h : c.isAlphanum = true) (hd : d.isAlphanum = false) :
    c ≠ d := by
  rintro rfl
  rw [h] at hd
  cases hd

theorem not_isWhitespace_of_isAlphanum {c : Char} (h : c.isAlphanum = true) :
    isWhitespace c = false := by
  have hr := toNat_of_isAlphanum h
  cases hb : isWhitespace c with
  | false => rfl
  | true =>
    simp only [isWhitespace, Bool.or_eq_true, Bool.and_eq_true, beq_iff_eq, decide_eq_true_eq] at hb
    omega

theorem isWordChar_of_isAlphanum {c : Char} (h : c.isAlphanum = true) : IsWordChar c := by
  refine ⟨⟨ne_of_isAlphanum h (by decide), ne_of_isAlphanum h (by decide)⟩,
    ne_of_isAlphanum h (by decide), ?_⟩
  simp [isBoundary, not_isWhitespace_of_isAlphanum h, ne_of_isAlphanum h (d := '(') (by decide),
    ne_of_isAlphanum h (d := ')') (by decide)]

theorem isAlphanum_of_mem_field {field : List Char} (h : field ∈ fieldNames) :
    ∀ c ∈ field, c.isAlphanum = true := by
  simp only [fieldNames, List.mem_cons, List.not_mem_nil, or_false] at h
  rcases h with rfl | rfl | rfl
  · exact List.all_eq_true.1 (by decide)
  · exact List.all_eq_true.1 (by decide)
  · exact List.all_eq_true.1 (by decide)

theorem IsWordChar.not_endsToken {c : Char} (h : IsWordChar c) : endsToken c = false := by
  have hb := h.not_boundary
  unfold isBoundary at hb
  unfold endsToken
  rw [hb]
  simpa using h.text.2

/-- The word of an option goes on over the characters of a token and over a colon. -/
theorem wordOf_word {word : List Char} (h : ∀ c ∈ word, IsWordChar c) (r : List Char) :
    wordOf (word ++ r) = word ++ wordOf r := by
  unfold wordOf
  rw [List.takeWhile_append_of_pos]
  intro c hc
  simp [(h c hc).not_endsToken]

theorem wordOf_colon (r : List Char) : wordOf (':' :: r) = ':' :: wordOf r := by
  unfold wordOf
  rw [List.takeWhile_cons_of_pos (by decide)]

/-- A word with a colon is no short flag. -/
theorem isShortFlag_colon (word r : List Char) : isShortFlag (word ++ ':' :: r) = false := by
  have hc : (word ++ ':' :: r).all Char.isAlphanum = false := by
    rw [List.all_eq_false]
    exact ⟨':', by simp, by decide⟩
  unfold isShortFlag
  rw [hc, Bool.and_false]

theorem trimSigns_append {signs text : List Char} (h : ∀ c ∈ signs, IsSign c)
    (ht : ∀ c ∈ text.head?, ¬IsSign c) : trimSigns (signs ++ text) = text := by
  unfold trimSigns
  rw [List.dropWhile_append_of_pos]
  · cases text with
    | nil => rfl
    | cons c text =>
      have hc : ¬IsSign c := ht c rfl
      rw [List.dropWhile_cons_of_neg]
      simpa [IsSign] using hc
  · intro c hc
    simpa [IsSign] using h c hc

/-- The first character of a field name is a letter. -/
theorem head_field {field : List Char} (h : field ∈ fieldNames) :
    ∃ c tail, field = c :: tail ∧ c.isAlphanum = true ∧ ¬IsSign c := by
  unfold IsSign
  simp only [fieldNames, List.mem_cons, List.not_mem_nil, or_false] at h
  rcases h with rfl | rfl | rfl
  · exact ⟨'i', ['d'], by decide, by decide, by decide⟩
  · exact ⟨'c', "ontent".toList, by decide, by decide, by decide⟩
  · exact ⟨'t', "itle".toList, by decide, by decide, by decide⟩

theorem exists_pluses (signs : List Char) :
    ∃ n, signs = List.replicate n '+' ++ signs.dropWhile (· == '+') := by
  have hp : signs.takeWhile (· == '+')
      = List.replicate (signs.takeWhile (· == '+')).length '+' := by
    rw [List.eq_replicate_iff]
    refine ⟨rfl, fun c hc => ?_⟩
    simpa using List.mem_takeWhile_imp hc
  refine ⟨(signs.takeWhile (· == '+')).length, ?_⟩
  rw [← hp, List.takeWhile_append_dropWhile]

/-- Whether the dashes of a token that is a field prefix are dropped. -/
theorem dropsDashes_field {n : ℕ} {m field : List Char} (hm : ∀ c ∈ m, IsSign c)
    (hh : m.head? ≠ some '-') (hf : field ∈ fieldNames) (after : List Char) :
    dropsDashes alphanumeric (n + 1) (m ++ (field ++ ':' :: after)) = true ↔ 1 ≤ n ∧ m = [] := by
  have hl : ∀ c ∈ field, IsWordChar c := fun c hc =>
    isWordChar_of_isAlphanum (isAlphanum_of_mem_field hf c hc)
  have hw : wordOf (m ++ (field ++ ':' :: after)) = m ++ field ++ ':' :: wordOf after := by
    rw [wordOf_word (fun c hc => isWordChar_of_isSign (hm c hc)), wordOf_word hl,
      wordOf_colon, List.append_assoc]
  have he : (m ++ field ++ ':' :: wordOf after).isEmpty = false := by simp
  unfold dropsDashes
  rw [hw, isShortFlag_colon, he]
  cases m with
  | nil =>
    obtain ⟨c, tail, rfl, hc, -⟩ := head_field hf
    simp [alphanumeric.of_ascii c hc]
  | cons c m =>
    have hp : c = '+' := by
      rcases hm c List.mem_cons_self with hc | hc
      · exact hc
      · exact absurd (by rw [hc]; rfl) hh
    simp [hp, alphanumeric.not_plus]

theorem longDashes_iff {n : ℕ} {m : List Char} (hh : m.head? ≠ some '-') :
    LongDashes (List.replicate (n + 1) '-' ++ m) ↔ 1 ≤ n ∧ m = [] := by
  constructor
  · rintro ⟨hl, ha⟩
    have hni : m = [] := by
      cases m with
      | nil => rfl
      | cons c m => exact absurd (congrArg some (ha c (by simp))) hh
    subst hni
    simp only [List.append_nil, List.length_replicate] at hl
    exact ⟨by omega, rfl⟩
  · rintro ⟨hn, rfl⟩
    refine ⟨by simp only [List.append_nil, List.length_replicate]; omega, ?_⟩
    intro c hc
    rw [List.append_nil] at hc
    exact List.eq_of_mem_replicate hc

/-- The state at the colon after signs and a field name, behind the signs `+` of a token. -/
theorem state_at_name {se out m field after : List Char}
    (h : (scanner alphanumeric).Reaches {} query ⟨se, freshState out, m ++ (field ++ ':' :: after)⟩)
    (hm : ∀ c ∈ m, IsSign c) (hp : m.head? ≠ some '+') (hf : field ∈ fieldNames) :
    ∃ s, (scanner alphanumeric).Reaches {} query ⟨se ++ (m ++ field), s, ':' :: after⟩ ∧
      (LongDashes m → s.fieldAllowed = false) ∧
      (¬LongDashes m → s.fieldAllowed = true ∧ trimSigns (s.out.drop s.tokenStart) = field) := by
  obtain ⟨first, tail, hn, hfi, hno⟩ := head_field hf
  have hle : ∀ c ∈ field, IsWordChar c := fun c hc =>
    isWordChar_of_isAlphanum (isAlphanum_of_mem_field hf c hc)
  have hh : ∀ c ∈ field.head?, ¬IsSign c := by
    rw [hn]
    intro c hc
    rwa [← Option.some.inj hc]
  cases m with
  | nil =>
    rw [List.nil_append, hn] at h
    have hlet := h.tail (moves_other rfl (isWordChar_of_isAlphanum hfi) fun hs => absurd hs hno)
    have he := reaches_word hlet rfl rfl fun c hc => hle c (by simp [hn, hc])
    have hdr : List.drop out.length (out ++ [first] ++ tail) = field := by
      rw [List.append_assoc, List.drop_left, hn]
      rfl
    refine ⟨{ freshState out with out := out ++ [first] ++ tail, atTokenStart := false }, ?_,
      fun hl => absurd hl.1 (by simp), fun _ => ⟨rfl, ?_⟩⟩
    · simpa [hn, freshState] using he
    · rw [show (freshState out).tokenStart = out.length from rfl, hdr]
      exact trimSigns_append (show ∀ c ∈ ([] : List Char), IsSign c from by simp) hh
  | cons c m =>
    obtain rfl : c = '-' := by
      rcases hm c List.mem_cons_self with hc | hc
      · exact absurd (by rw [hc]; rfl) hp
      · exact hc
    obtain ⟨n, t', hda, hnex⟩ := exists_dashes m
    rw [hda] at h hm ⊢
    have ht : ∀ d ∈ t', IsSign d := fun d hd => hm d (List.mem_append_right _ hd)
    have hw : ∀ d ∈ t' ++ field, IsWordChar d := by
      intro d hd
      rcases List.mem_append.1 hd with hd | hd
      · exact isWordChar_of_isSign (ht d hd)
      · exact hle d hd
    have hne : (t' ++ (field ++ ':' :: after)).head? ≠ some '-' := by
      cases t' with
      | nil =>
        rw [hn]
        intro hc
        exact hno (Or.inr (Option.some.inj hc))
      | cons d t' => simpa using hnex
    rw [List.append_assoc] at h
    have hmo := h.tail (moves_dashes rfl rfl hne)
    rw [longDashes_iff hnex]
    by_cases hl : 1 ≤ n ∧ t' = []
    · rw [if_pos ((dropsDashes_field ht hnex hf after).2 hl), ← List.append_assoc] at hmo
      have he := reaches_word hmo rfl rfl hw
      exact ⟨_, by simpa using he, fun _ => rfl, fun hnot => absurd hl hnot⟩
    · rw [if_neg (fun hdr => hl ((dropsDashes_field ht hnex hf after).1 hdr)),
        ← List.append_assoc] at hmo
      have he := reaches_word hmo rfl rfl hw
      refine ⟨_, by simpa using he, fun hy => absurd hy hl, fun _ => ⟨rfl, ?_⟩⟩
      have hdr : List.drop out.length (out ++ List.replicate (n + 1) '-' ++ (t' ++ field))
          = (List.replicate (n + 1) '-' ++ t') ++ field := by
        rw [List.append_assoc, List.drop_left, List.append_assoc]
      simpa [freshState] using (congrArg trimSigns hdr).trans (trimSigns_append hm hh)

/-- The state at the colon after a field name at the start of a token. -/
theorem state_at_field {b signs field after : List Char} (hst : AtTokenStart b)
    (hsi : ∀ c ∈ signs, IsSign c) (hfi : field ∈ fieldNames) :
    ∃ s, (scanner alphanumeric).Reaches {} (b ++ (signs ++ field) ++ ':' :: after)
        ⟨b ++ (signs ++ field), s, ':' :: after⟩ ∧
      (OptionDashes signs → s.fieldAllowed = false) ∧
      (¬OptionDashes signs →
        s.fieldAllowed = true ∧ trimSigns (s.out.drop s.tokenStart) = field) := by
  obtain ⟨n, hp⟩ := exists_pluses signs
  have hpl : (signs.dropWhile (· == '+')).head? ≠ some '+' := by
    intro hh
    have hn := List.head?_dropWhile_not (· == '+') signs
    simp [hh] at hn
  have hm : ∀ c ∈ signs.dropWhile (· == '+'), IsSign c := fun c hc =>
    hsi c ((List.dropWhile_suffix _).subset hc)
  have ht : (signs ++ field) ++ ':' :: after
      = List.replicate n '+' ++ (signs.dropWhile (· == '+') ++ (field ++ ':' :: after)) := by
    nth_rewrite 1 [hp]
    simp
  have hs : b ++ (signs ++ field)
      = b ++ List.replicate n '+' ++ (signs.dropWhile (· == '+') ++ field) := by
    nth_rewrite 1 [hp]
    simp
  have hf := reaches_token alphanumeric hst ((signs ++ field) ++ ':' :: after)
  rw [← List.append_assoc, ht, hs] at hf
  rw [hs]
  exact state_at_name (reaches_pluses hf) hm hpl hfi

/-- **The colons that the rewriting keeps are the field prefixes of the query.** -/
theorem realField_iff {se r : List Char} {s : Rewrite}
    (h : (scanner alphanumeric).Reaches {} query ⟨se, s, ':' :: r⟩) :
    s.realField r = true ↔ FieldColon se r := by
  have hq : query = se ++ ':' :: r := h.append_eq.symm
  constructor
  · intro hre
    obtain ⟨b, signs, field, hse, hst, hs, hf, hsi, -⟩ := field_of_realField h hre
    refine ⟨hsi, b, signs, field, hse, hst, hs, hf, ?_⟩
    intro ho
    obtain ⟨s', hr, hfa, -⟩ := state_at_field hst hs hf
    rw [← hse, ← hq] at hr
    obtain rfl : s = s' := congrArg Scanner.Place.state (h.unique hr rfl)
    have ha : s.fieldAllowed = true := by
      simp only [Rewrite.realField, Bool.and_eq_true] at hre
      exact hre.1.1
    rw [hfa ho] at ha
    cases ha
  · rintro ⟨hsi, b, signs, field, hse, hst, hs, hf, ho⟩
    obtain ⟨s', hr, -, ht⟩ := state_at_field hst hs hf
    rw [← hse, ← hq] at hr
    obtain rfl : s = s' := congrArg Scanner.Place.state (h.unique hr rfl)
    obtain ⟨ha, hn⟩ := ht ho
    simp only [Rewrite.realField, ha, hn, hf, Bool.and_eq_true, decide_true,
      bne_iff_ne, ne_eq, true_and]
    exact hsi

/-! ## Words of the output -/

/-- A word starts after the text: the text is empty, or its last character is a blank outside
quotes and escapes. -/
def AtBlank (text : List Char) : Prop :=
  text = [] ∨ ∃ before c, text = before ++ [c] ∧ Open before ∧ isWhitespace c = true

/-- No blank-separated token of the text is a dash and a short flag. -/
def NoShortFlag (text : List Char) : Prop :=
  ∀ before word rest, text = before ++ '-' :: (word ++ rest) → AtBlank before →
    isShortFlag word = true → ¬∀ c ∈ rest.head?, isWhitespace c = true

/-- No token of the text starts with two or more dashes and a letter or digit. -/
def NoLongOption (alphanumeric : Alphanumeric) (text : List Char) : Prop :=
  ∀ before n c rest, text = before ++ List.replicate n '-' ++ c :: rest → AtBlank before →
    2 ≤ n → alphanumeric.test c = false

/-- The rewriting starts a word after `text`, which `rest` follows: at the start, after a
blank, and after a colon that is no field prefix. -/
def StartsWord (text rest : List Char) : Prop :=
  AtBlank text ∨ ∃ before, text = before ++ [':'] ∧ Open before ∧ ¬FieldColon before rest

/-- No word of the query starts with a dash, a short flag and a colon that is no field
prefix. -/
def NoSplitFlag (query : List Char) : Prop :=
  ∀ before word rest, query = before ++ '-' :: (word ++ ':' :: rest) →
    StartsWord before ('-' :: (word ++ ':' :: rest)) → isShortFlag word = true →
    FieldColon (before ++ '-' :: word) rest

theorem AtBlank.atTokenStart {text : List Char} (h : AtBlank text) : AtTokenStart text := by
  rcases h with rfl | ⟨b, c, rfl, ho, hc⟩
  · exact Or.inl rfl
  · exact Or.inr ⟨b, c, rfl, ho, by simp [isBoundary, hc]⟩

theorem isText_of_isWhitespace {c : Char} (h : isWhitespace c = true) : IsText c := by
  constructor
  · rintro rfl
    exact absurd h (by decide)
  · rintro rfl
    exact absurd h (by decide)

theorem AtBlank.isOpen {text : List Char} (h : AtBlank text) : Open text := by
  rcases h with rfl | ⟨b, c, rfl, ho, hc⟩
  · rfl
  · exact ho.append (isText_singleton (isText_of_isWhitespace hc))

theorem atBlank_snoc {text : List Char} {c : Char} (h : AtBlank (text ++ [c])) :
    Open text ∧ isWhitespace c = true := by
  rcases h with h | ⟨b, d, heq, ho, hd⟩
  · simp at h
  · obtain ⟨rfl, hcd⟩ := List.append_inj' heq rfl
    obtain rfl : c = d := by simpa using hcd
    exact ⟨ho, hd⟩

theorem AtBlank.rewrite {text : List Char} (h : AtBlank text) :
    AtBlank (rewrite alphanumeric text) := by
  rcases h with rfl | ⟨b, c, rfl, ho, hc⟩
  · exact Or.inl rewrite_nil
  · obtain ⟨out, hou, hr⟩ := run_boundary alphanumeric ho
      (show isBoundary c = true by simp [isBoundary, hc])
    refine Or.inr ⟨out, c, ?_, hou, hc⟩
    unfold EngineQuery.rewrite
    rw [hr]
    rfl

/-! ## Where dashes are written -/

/-- At the start of a token the last character written is neither a dash nor a letter or
digit. -/
theorem last_at_tokenStart (h : (scanner alphanumeric).Reaches {} query p)
    (hs : p.state.atTokenStart = true) {text : List Char} {c : Char}
    (ho : p.state.out = text ++ [c]) : c ≠ '-' ∧ c.isAlphanum = false := by
  revert hs text c
  refine invariant_of_turns (P := fun p => p.state.atTokenStart = true → ∀ {text : List Char}
    {c : Char}, p.state.out = text ++ [c] → c ≠ '-' ∧ c.isAlphanum = false) h ?_ ?_
  · intro _ text c ho
    simp at ho
  · intro p q hr hn hst ih ht hs text c ho
    have hl : ∀ {x : List Char} {d : Char}, x ++ [d] = text ++ [c] → d = c := by
      intro x d heq
      simpa using (List.append_inj' heq rfl).2
    cases ht with
    | copy _ _ _ hf =>
      simp only at hs
      rw [hf] at hs
      cases hs
    | colon hop =>
      rw [← hl ho]
      split
      · decide
      · decide
    | drop => cases hs
    | keep => cases hs
    | boundary hop hch =>
      rw [← hl ho]
      refine ⟨ne_of_isBoundary hch (by decide), ?_⟩
      by_contra hletter
      rw [(isWordChar_of_isAlphanum (by simpa using hletter)).not_boundary] at hch
      cases hch
    | plus =>
      rw [← hl ho]
      decide
    | other => cases hs

/-- At the start of a word of the output either a word starts in the query, or no dash
follows. -/
theorem startsWord_of_atBlank (h : (scanner alphanumeric).Reaches {} query p)
    (hb : AtBlank p.state.out) :
    (p.state.atTokenStart = true ∧ StartsWord p.seen p.rest) ∨ p.rest.head? ≠ some '-' := by
  revert hb
  refine invariant_of_turns (P := fun p => AtBlank p.state.out →
    (p.state.atTokenStart = true ∧ StartsWord p.seen p.rest) ∨ p.rest.head? ≠ some '-') h ?_ ?_
  · intro _
    exact Or.inl ⟨rfl, Or.inl (Or.inl rfl)⟩
  · intro p q hr hn hs ih ht hb
    cases ht with
    | copy hp hw hm hst hf hto =>
      rename_i se r s s' ch
      simp only at hb
      rw [hw] at hb
      obtain ⟨ho, hch⟩ := atBlank_snoc hb
      have hm : s.mode = {} := hs.out_mode.symm.trans ho
      rw [hm, Mode.not_protects_open (isText_of_isWhitespace hch)] at hp
      cases hp
    | colon ho =>
      rename_i se r s
      obtain ⟨-, hch⟩ := atBlank_snoc hb
      have hsp : ¬s.realField r = true := by
        intro hre
        rw [if_pos hre] at hch
        exact absurd hch (by decide)
      refine Or.inl ⟨rfl, Or.inr ⟨se, rfl, hs.seen_mode.trans ho, ?_⟩⟩
      rwa [realField_iff hr] at hsp
    | drop ho hst hh hd => exact Or.inr hh
    | keep ho hst hh hd => exact Or.inr hh
    | boundary ho hch =>
      rename_i se r s ch
      obtain ⟨-, hb'⟩ := atBlank_snoc hb
      exact Or.inl ⟨rfl, Or.inl (Or.inr ⟨se, ch, rfl, hs.seen_mode.trans ho, hb'⟩)⟩
    | plus ho hst =>
      obtain ⟨-, hch⟩ := atBlank_snoc hb
      exact absurd hch (by decide)
    | other ho hte hc hch hsi =>
      obtain ⟨-, hb'⟩ := atBlank_snoc hb
      simp [isBoundary, hb'] at hch

/-! ## Long options -/

theorem snoc_eq_dashes {x b : List Char} {ch : Char} {n : ℕ}
    (h : x ++ [ch] = b ++ List.replicate (n + 1) '-') :
    ch = '-' ∧ x = b ++ List.replicate n '-' := by
  rw [List.replicate_succ', ← List.append_assoc] at h
  obtain ⟨hx, hch⟩ := List.append_inj' h rfl
  exact ⟨by simpa using hch, hx⟩

theorem isText_dash : IsText '-' := ⟨by decide, by decide⟩

/-- Text outside quotes is written in no protected turn. -/
theorem Steady.not_protects {se r : List Char} {s : Rewrite} {ch : Char}
    (h : Steady ⟨se, s, r⟩) (ho : Open s.out) (ht : IsText ch) :
    s.mode.protects ch = false := by
  have hm : s.mode = {} := h.out_mode.symm.trans ho
  rw [hm, Mode.not_protects_open ht]

/-- What follows the dashes at the start of a word of the output: no dash, and after two
dashes no letter or digit. -/
theorem after_dashes (h : (scanner alphanumeric).Reaches {} query p) {b : List Char} {n : ℕ}
    (ho : p.state.out = b ++ List.replicate (n + 1) '-') (hb : AtBlank b) :
    p.rest.head? ≠ some '-' ∧ (1 ≤ n → ∀ c ∈ p.rest.head?, alphanumeric.test c = false) := by
  revert b n
  refine invariant_of_turns (P := fun p => ∀ {b : List Char} {n : ℕ},
    p.state.out = b ++ List.replicate (n + 1) '-' → AtBlank b →
    p.rest.head? ≠ some '-' ∧ (1 ≤ n → ∀ c ∈ p.rest.head?, alphanumeric.test c = false)) h ?_ ?_
  · intro b n ho
    simp [List.replicate_succ] at ho
  · intro p q hr hne hst ih ht b n ho hb
    cases ht with
    | copy hp hw hm hs hfie hto =>
      rename_i se r s s' ch
      simp only at ho
      rw [hw] at ho
      obtain ⟨rfl, hol⟩ := snoc_eq_dashes ho
      have hop : Open s.out := by
        rw [hol]
        exact hb.isOpen.append isText_dashes
      rw [hst.not_protects hop isText_dash] at hp
      cases hp
    | colon hop =>
      obtain ⟨hch, -⟩ := snoc_eq_dashes ho
      split at hch <;> exact absurd hch (by decide)
    | drop hop hs hh hdr =>
      -- at the start of a token no dash has been written
      rename_i se r s m
      have hla : s.out = b ++ List.replicate n '-' ++ ['-'] := by
        rw [List.append_assoc, ← List.replicate_succ']
        exact ho
      exact absurd rfl (last_at_tokenStart hr hs hla).1
    | keep hop hs hh hdr =>
      rename_i se r s m
      refine ⟨hh, fun hn c hc => ?_⟩
      have hlo : 2 ≤ m + 1 := by
        by_contra hshort
        obtain rfl : m = 0 := by omega
        obtain ⟨-, hol⟩ := snoc_eq_dashes ho
        obtain ⟨k, rfl⟩ : ∃ k, n = k + 1 := ⟨n - 1, by omega⟩
        rw [List.replicate_succ', ← List.append_assoc] at hol
        exact absurd rfl (last_at_tokenStart hr hs hol).1
      cases hl : alphanumeric.test c with
      | false => rfl
      | true =>
        obtain ⟨tail, rfl⟩ : ∃ tail, r = c :: tail := by
          cases r with
          | nil => cases hc
          | cons d tail => exact ⟨tail, by rw [Option.some.inj hc]⟩
        have hwo : wordOf (c :: tail) = c :: wordOf tail := by
          unfold wordOf
          rw [List.takeWhile_cons_of_pos (by simp [alphanumeric.not_endsToken c hl])]
        have hdro : dropsDashes alphanumeric (m + 1) (c :: tail) = true := by
          unfold dropsDashes
          simp only [hwo, List.head?_cons, Option.any_some, hl, hlo, decide_true,
            Bool.and_true, Bool.or_true, Bool.true_or]
        rw [hdro] at hdr
        cases hdr
    | boundary hop hch =>
      obtain ⟨hd, -⟩ := snoc_eq_dashes ho
      exact absurd hd (ne_of_isBoundary hch (by decide))
    | plus =>
      obtain ⟨hd, -⟩ := snoc_eq_dashes ho
      exact absurd hd (by decide)
    | other hop hte hco hch hsi =>
      rename_i se r s ch
      obtain ⟨rfl, hol⟩ := snoc_eq_dashes ho
      exfalso
      cases n with
      | zero =>
        have hfi : AtBlank s.out := by
          rw [hol]
          simpa using hb
        rcases startsWord_of_atBlank hr hfi with ⟨hs, -⟩ | hh
        · have hf : s.atTokenStart = false := hsi (Or.inr rfl)
          simp only at hs
          rw [hf] at hs
          cases hs
        · exact hh rfl
      | succ k => exact (ih hol hb).1 rfl

/-- No long option is written. -/
theorem noLongOption_of_reaches (h : (scanner alphanumeric).Reaches {} query p) :
    NoLongOption alphanumeric p.state.out := by
  unfold NoLongOption
  refine invariant_of_turns (P := fun p => ∀ b n c r,
    p.state.out = b ++ List.replicate n '-' ++ c :: r → AtBlank b → 2 ≤ n →
    alphanumeric.test c = false) h ?_ ?_
  · intro b n c r ho
    simp at ho
  · intro p q hr hnex hste ih ht b n c r ho hb hn
    obtain ⟨k, rfl⟩ : ∃ k, n = k + 2 := ⟨n - 2, by omega⟩
    -- the new character is the one that follows the dashes
    have hs : ∀ {ch : Char}, p.state.out ++ [ch] = b ++ List.replicate (k + 2) '-' ++ c :: r →
        (p.rest.head? = some ch ∨ alphanumeric.test ch = false) → alphanumeric.test c = false := by
      intro ch heq hre
      rcases snoc_eq_append_cons heq with ⟨r', hol, -⟩ | ⟨hol, rfl, -⟩
      · exact ih b (k + 2) c r' hol hb hn
      · rcases hre with hh | hno
        · exact (after_dashes hr hol.symm hb).2 (by omega) _ hh
        · exact hno
    cases ht with
    | copy hp hw hmo hst hf hto =>
      simp only at ho
      rw [hw] at ho
      exact hs ho (Or.inl rfl)
    | colon hop =>
      refine hs ho ?_
      split
      · exact Or.inl rfl
      · right
        by_contra hletter
        have he := alphanumeric.not_endsToken ' ' (by simpa using hletter)
        exact absurd he (by decide)
    | drop => exact ih b (k + 2) c r ho hb hn
    | keep hop hst hh hd =>
      rename_i se tail s m
      rcases ListRules.append_eq_append_cons ho with ⟨r', hol, -⟩ | ⟨mid, -, hne⟩
      · exact ih b (k + 2) c r' hol hb hn
      · have hm : c ∈ List.replicate (m + 1) '-' := by
          rw [hne]
          simp
        rw [List.eq_of_mem_replicate hm]
        exact alphanumeric.not_dash
    | boundary => exact hs ho (Or.inl rfl)
    | plus => exact hs ho (Or.inl rfl)
    | other => exact hs ho (Or.inl rfl)

/-! ## Short flags -/

/-- A dash and letters or digits at the start of a word. -/
theorem open_flag {b word : List Char} (hb : AtBlank b)
    (hw : ∀ c ∈ word, c.isAlphanum = true) : Open (b ++ '-' :: word) := by
  refine hb.isOpen.append ?_
  intro c hc
  rcases List.mem_cons.1 hc with rfl | hc
  · exact isText_dash
  · exact (isWordChar_of_isAlphanum (hw c hc)).text

/-- The last word of the output is a dash and letters or digits only when the query has the
same text at the start of a word, and then the token of the query is no short flag. -/
theorem query_of_flag (h : (scanner alphanumeric).Reaches {} query p) {b word : List Char}
    (ho : p.state.out = b ++ '-' :: word) (hb : AtBlank b)
    (hw : ∀ c ∈ word, c.isAlphanum = true) :
    ∃ start, p.seen = start ++ '-' :: word ∧ StartsWord start ('-' :: (word ++ p.rest)) ∧
      isShortFlag (word ++ wordOf p.rest) = false := by
  revert b word
  refine invariant_of_turns (P := fun p => ∀ {b word : List Char},
    p.state.out = b ++ '-' :: word → AtBlank b → (∀ c ∈ word, c.isAlphanum = true) →
    ∃ start, p.seen = start ++ '-' :: word ∧ StartsWord start ('-' :: (word ++ p.rest)) ∧
      isShortFlag (word ++ wordOf p.rest) = false) h ?_ ?_
  · intro b word ho
    simp at ho
  · intro p q hr hne hst ih htu b word ho hb hw
    -- a character that is neither a dash nor a letter or digit ends no such word
    have hn : ∀ {x : List Char} {ch : Char}, x ++ [ch] = b ++ '-' :: word →
        ch ≠ '-' → ch.isAlphanum = false → False := by
      intro x ch heq hd hl
      rcases snoc_eq_append_cons heq with ⟨w', -, rfl⟩ | ⟨-, hch, -⟩
      · rw [hw ch (by simp)] at hl
        cases hl
      · exact hd hch
    cases htu with
    | copy hp hwr hmo hs hfi hto =>
      rename_i se r s s' ch
      exfalso
      simp only at ho
      rw [hwr] at ho
      rcases snoc_eq_append_cons ho with ⟨w', hol, rfl⟩ | ⟨rfl, rfl, -⟩
      · have hop : Open s.out := by
          rw [hol]
          exact open_flag hb fun c hc => hw c (List.mem_append_left _ hc)
        have ht := (isWordChar_of_isAlphanum (hw ch (by simp))).text
        rw [hst.not_protects hop ht] at hp
        cases hp
      · rw [hst.not_protects hb.isOpen isText_dash] at hp
        cases hp
    | colon hop =>
      exfalso
      refine hn ho ?_ ?_
      · split <;> decide
      · split <;> decide
    | drop hop hs hh hdr =>
      rename_i se r s m
      exfalso
      obtain ⟨text, c, hla⟩ : ∃ text c, b ++ '-' :: word = text ++ [c] :=
        (List.eq_nil_or_concat' _).resolve_left (by simp)
      obtain ⟨hd, hl⟩ := last_at_tokenStart hr hs (ho.trans hla)
      exact hn hla.symm hd hl
    | keep hop hs hh hdr =>
      rename_i se r s m
      have hda : s.out ++ List.replicate m '-' ++ ['-'] = b ++ '-' :: word := by
        rw [List.append_assoc, ← List.replicate_succ']
        exact ho
      rcases snoc_eq_append_cons hda with ⟨w', -, rfl⟩ | ⟨hbe, -, rfl⟩
      · exact absurd (hw '-' (by simp)) (by decide)
      · -- a second dash would stand before this one
        obtain rfl : m = 0 := by
          by_contra hm
          obtain ⟨k, rfl⟩ : ∃ k, m = k + 1 := ⟨m - 1, by omega⟩
          rw [hbe, List.replicate_succ', ← List.append_assoc] at hb
          exact absurd (atBlank_snoc hb).2 (by decide)
        obtain rfl : b = s.out := by simpa using hbe
        rcases startsWord_of_atBlank hr hb with ⟨-, hw'⟩ | hh'
        · refine ⟨se, rfl, hw', ?_⟩
          simp only [dropsDashes, Bool.or_eq_false_iff] at hdr
          simpa using hdr.1.1
        · exact absurd rfl hh'
    | boundary hop hch =>
      exfalso
      refine hn ho (ne_of_isBoundary hch (by decide)) ?_
      by_contra hl
      rw [(isWordChar_of_isAlphanum (by simpa using hl)).not_boundary] at hch
      cases hch
    | plus => exact absurd (hn ho (by decide) (by decide)) not_false
    | other hop ht hco hch hsi =>
      rename_i se r s ch
      rcases snoc_eq_append_cons ho with ⟨w', hol, rfl⟩ | ⟨rfl, rfl, -⟩
      · obtain ⟨start, hse, hs, hsh⟩ := ih hol hb fun c hc => hw c (List.mem_append_left _ hc)
        have he := IsWordChar.not_endsToken ⟨ht, hco, hch⟩
        have hwo : wordOf (ch :: r) = ch :: wordOf r := by
          unfold wordOf
          rw [List.takeWhile_cons_of_pos (by simp [he])]
        refine ⟨start, ?_, ?_, ?_⟩
        · change se = _ at hse
          simp [hse]
        · simpa using hs
        · change isShortFlag (w' ++ wordOf (ch :: r)) = false at hsh
          rw [hwo] at hsh
          simpa using hsh
      · exfalso
        rcases startsWord_of_atBlank hr hb with ⟨hs, -⟩ | hh
        · have hf : s.atTokenStart = false := hsi (Or.inr rfl)
          simp only at hs
          rw [hf] at hs
          cases hs
        · exact hh rfl

theorem isAlphanum_of_isShortFlag {word : List Char} (h : isShortFlag word = true) :
    ∀ c ∈ word, c.isAlphanum = true := by
  simp only [isShortFlag, Bool.and_eq_true, List.all_eq_true] at h
  exact h.2

/-- No short flag is written before a blank, when the query has no flag that a colon splits. -/
theorem no_flag_of_reaches (hq : NoSplitFlag query)
    (h : (scanner alphanumeric).Reaches {} query p) {b word r : List Char} {c : Char}
    (hou : p.state.out = b ++ '-' :: word ++ c :: r) (hb : AtBlank b)
    (hfl : isShortFlag word = true) : isWhitespace c = false := by
  revert r c
  refine invariant_of_turns (P := fun p => ∀ {r : List Char} {c : Char},
    p.state.out = b ++ '-' :: word ++ c :: r → isWhitespace c = false) h ?_ ?_
  · intro r c hou
    simp at hou
  · intro p q hr hne hst ih htu r c hou
    have hl := isAlphanum_of_isShortFlag hfl
    cases htu with
    | copy hp hw hmo hs hf hto =>
      rename_i se tail s s' ch
      simp only at hou
      rw [hw] at hou
      rcases snoc_eq_append_cons hou with ⟨r', ho, -⟩ | ⟨ho, rfl, -⟩
      · exact ih ho
      · by_contra hc
        have hop : Open s.out := by
          rw [← ho]
          exact open_flag hb hl
        rw [hst.not_protects hop (isText_of_isWhitespace (by simpa using hc))] at hp
        cases hp
    | colon hop =>
      rename_i se tail s
      rcases snoc_eq_append_cons hou with ⟨r', ho, -⟩ | ⟨ho, hco, -⟩
      · exact ih ho
      · -- the colon after the flag is a field prefix, so it is kept
        obtain ⟨start, hse, hs, -⟩ := query_of_flag hr ho.symm hb hl
        simp only at hse
        have ht : query = start ++ '-' :: (word ++ ':' :: tail) := by
          rw [← hr.append_eq, hse]
          simp
        have hf := hq start word tail ht hs hfl
        rw [← hse] at hf
        rw [if_pos ((realField_iff hr).2 hf)] at hco
        rw [← hco]
        decide
    | drop => exact ih hou
    | keep hop hs hh hd =>
      rename_i se tail s m
      rcases ListRules.append_eq_append_cons hou with ⟨r', ho, -⟩ | ⟨mid, -, hn⟩
      · exact ih ho
      · have hm : c ∈ List.replicate (m + 1) '-' := by
          rw [hn]
          simp
        rw [List.eq_of_mem_replicate hm]
        decide
    | boundary hop hch =>
      rename_i se tail s ch
      rcases snoc_eq_append_cons hou with ⟨r', ho, -⟩ | ⟨ho, rfl, -⟩
      · exact ih ho
      · -- the token ends here, and it is no short flag
        obtain ⟨start, -, -, hsh⟩ := query_of_flag hr ho.symm hb hl
        have he : wordOf (ch :: tail) = [] := by
          simp [wordOf, isBoundary_endsToken hch]
        rw [he, List.append_nil, hfl] at hsh
        cases hsh
    | plus =>
      rcases snoc_eq_append_cons hou with ⟨r', ho, -⟩ | ⟨-, rfl, -⟩
      · exact ih ho
      · decide
    | other hop ht hco hch hsi =>
      rcases snoc_eq_append_cons hou with ⟨r', ho, -⟩ | ⟨-, rfl, -⟩
      · exact ih ho
      · simp only [isBoundary, Bool.or_eq_false_iff] at hch
        exact hch.1.1

/-- A query without a flag that a colon splits gives an output without short flags. -/
theorem noShortFlag_of_noSplitFlag (hq : NoSplitFlag query) :
    NoShortFlag (rewrite alphanumeric query) := by
  obtain ⟨s, hr, ho⟩ := reaches_rewrite alphanumeric query
  intro b word r heq hb hf hfo
  rw [← ho] at heq
  cases r with
  | nil =>
    rw [List.append_nil] at heq
    obtain ⟨start, -, -, hs⟩ := query_of_flag hr heq hb (isAlphanum_of_isShortFlag hf)
    have he : wordOf ([] : List Char) = [] := rfl
    simp only [he, List.append_nil] at hs
    rw [hf] at hs
    cases hs
  | cons c r =>
    have hc : s.out = b ++ '-' :: word ++ c :: r := by simpa using heq
    have hn := no_flag_of_reaches hq hr hc hb hf
    rw [hfo c rfl] at hn
    cases hn

/-! ## A flag that a colon splits -/

/-- No turn takes a colon with what stands before it. -/
theorem leaves_colon (s : Rewrite) (first : Char) (b after : List Char) :
    ∃ b', ((scanner alphanumeric).step s first (b ++ ':' :: after)).2 = b' ++ ':' :: after := by
  change ∃ b', (step alphanumeric s first (b ++ ':' :: after)).2 = _
  unfold step
  split_ifs with hescaped hescape hquote hinQuote hcolon hdash
  · exact ⟨b, rfl⟩
  · exact ⟨b, rfl⟩
  · exact ⟨b, rfl⟩
  · exact ⟨b, rfl⟩
  · exact ⟨b, rfl⟩
  · obtain ⟨n, r, heq, hr⟩ := exists_dashes b
    have hh : (r ++ ':' :: after).head? ≠ some '-' := by
      cases r with
      | nil => simp
      | cons d r => simpa using hr
    refine ⟨r, ?_⟩
    rw [hdash.1, ← List.cons_append, heq, List.append_assoc,
      Rewrite.dash_eq alphanumeric s (n + 1) hh]
  · exact ⟨b, rfl⟩

/-- The state where a word starts with a dash. -/
theorem state_at_word (alphanumeric : Alphanumeric) {b r : List Char}
    (h : StartsWord b ('-' :: r)) :
    ∃ s, (scanner alphanumeric).Reaches {} (b ++ '-' :: r) ⟨b, s, '-' :: r⟩ ∧
      s.mode = {} ∧ s.atTokenStart = true ∧ AtBlank s.out := by
  rcases h with hb | ⟨text, rfl, ho, hsp⟩
  · exact ⟨_, reaches_token alphanumeric hb.atTokenStart ('-' :: r), rfl, rfl, hb.rewrite⟩
  · rw [List.append_assoc, List.singleton_append]
    obtain ⟨s, hr⟩ := Scanner.exists_reaches leaves_colon {} text ('-' :: r)
    have hs := steady_of_reaches hr
    have hm : s.mode = {} := hs.seen_mode.symm.trans ho
    refine ⟨_, hr.tail (moves_colon hm), hm, rfl, ?_⟩
    rw [← realField_iff hr] at hsp
    refine Or.inr ⟨s.out, ' ', ?_, hs.out_mode.trans hm, by decide⟩
    unfold Rewrite.colon
    rw [if_neg hsp]

/-- What was written stays. -/
theorem out_prefix_run (alphanumeric : Alphanumeric) (s : Rewrite) (r : List Char) :
    s.out <+: ((scanner alphanumeric).run s r).out := by
  refine ((scanner alphanumeric).reaches_run s r).invariant
    (P := fun p => s.out <+: p.state.out) List.prefix_rfl ?_
  rintro _ _ - hp ⟨hs, -⟩
  rename_i se read tail ta' t t' ch
  change step alphanumeric t ch tail = (t', ta') at hs
  have hg : t.out <+: (step alphanumeric t ch tail).1.out := by
    unfold step
    split_ifs
    · exact List.prefix_append _ _
    · exact List.prefix_append _ _
    · exact List.prefix_append _ _
    · exact List.prefix_append _ _
    · exact List.prefix_append _ _
    · unfold Rewrite.dash
      simp only
      split_ifs
      · exact List.prefix_rfl
      · exact List.prefix_rfl
      · exact List.prefix_append _ _
    · unfold Rewrite.plain
      split_ifs
      · exact List.prefix_append _ _
      · exact List.prefix_append _ _
      · exact List.prefix_append _ _
  rw [hs] at hg
  exact hp.trans hg

/-- A dash and a short flag before a colon are copied: the lookahead finds the colon in the
token. -/
theorem reaches_flag {b word r : List Char} {s : Rewrite}
    (h : (scanner alphanumeric).Reaches {} query ⟨b, s, '-' :: (word ++ ':' :: r)⟩)
    (hm : s.mode = {}) (hs : s.atTokenStart = true) (hf : isShortFlag word = true) :
    (scanner alphanumeric).Reaches {} query
      ⟨b ++ '-' :: word, { s with out := s.out ++ '-' :: word, atTokenStart := false },
        ':' :: r⟩ := by
  have hl := isAlphanum_of_isShortFlag hf
  have hw : ∀ c ∈ word, IsWordChar c := fun c hc => isWordChar_of_isAlphanum (hl c hc)
  have hh : (word ++ ':' :: r).head? ≠ some '-' := by
    cases word with
    | nil => simp
    | cons first tail =>
      have hne := ne_of_isAlphanum (hl first List.mem_cons_self) (d := '-') (by decide)
      simpa using hne
  have hk : ¬dropsDashes alphanumeric (0 + 1) (word ++ ':' :: r) = true := by
    unfold dropsDashes
    rw [wordOf_word hw, wordOf_colon, isShortFlag_colon]
    simp
  have hp : (scanner alphanumeric).Reaches {} query
      ⟨b, s, List.replicate (0 + 1) '-' ++ (word ++ ':' :: r)⟩ := h
  have hd := hp.tail (moves_dashes hm hs hh)
  rw [if_neg hk] at hd
  have hco := reaches_word hd hm rfl hw
  simpa using hco

/-- A flag that a colon splits is written as a token of its own. -/
theorem noSplitFlag_of_noShortFlag (h : NoShortFlag (rewrite alphanumeric query)) :
    NoSplitFlag query := by
  rintro b word r rfl hs hf
  by_contra hsplit
  obtain ⟨s, hr, hm, hto, hb⟩ := state_at_word alphanumeric hs
  have hco := reaches_flag hr hm hto hf
  rw [← realField_iff hco] at hsplit
  have ha := hco.tail (moves_colon hm)
  -- the colon becomes a blank, and what was written stays
  obtain ⟨tail, ht⟩ := out_prefix_run alphanumeric
    (Rewrite.colon { s with out := s.out ++ '-' :: word, atTokenStart := false } r) r
  rw [ha.run_eq] at ht
  refine h s.out word (' ' :: tail) ?_ hb hf ?_
  · unfold rewrite
    rw [← ht]
    unfold Rewrite.colon
    rw [if_neg hsplit]
    simp
  · intro c hc
    rw [← Option.some.inj hc]
    decide

/-- **When no option reaches the engine as an exclusion.** The rewritten query has no token
that is a dash and a short flag, and none that starts with two dashes and a letter or digit,
exactly when no word of the query is a dash and a short flag up to a colon that is no field
prefix. -/
theorem lexicalEngineQuery_noFlag_iff (alphanumeric : Alphanumeric) (query : String) :
    (NoShortFlag (lexicalEngineQuery alphanumeric query).toList ∧
        NoLongOption alphanumeric (lexicalEngineQuery alphanumeric query).toList) ↔
      NoSplitFlag query.toList := by
  rw [toList_lexicalEngineQuery]
  constructor
  · rintro ⟨hs, -⟩
    exact noSplitFlag_of_noShortFlag hs
  · intro hq
    obtain ⟨s, hr, ho⟩ := reaches_rewrite alphanumeric query.toList
    refine ⟨noShortFlag_of_noSplitFlag hq, ?_⟩
    rw [← ho]
    exact noLongOption_of_reaches hr

/-- The ASCII letters and digits alone. -/
def asciiAlphanumeric : Alphanumeric where
  test := Char.isAlphanum
  of_ascii := fun _ h => h
  not_endsToken := fun _ h => (isWordChar_of_isAlphanum h).not_endsToken
  not_plus := by decide
  not_dash := by decide

/-- The flag of `-p:8080` reaches the engine. -/
theorem lexicalEngineQuery_port_flag :
    ¬(NoShortFlag (lexicalEngineQuery asciiAlphanumeric "-p:8080").toList ∧
      NoLongOption asciiAlphanumeric (lexicalEngineQuery asciiAlphanumeric "-p:8080").toList) := by
  rintro ⟨hs, -⟩
  have ho : (lexicalEngineQuery asciiAlphanumeric "-p:8080").toList
      = [] ++ '-' :: (['p'] ++ ' ' :: "8080".toList) := by decide +kernel
  refine hs _ _ _ ho (Or.inl rfl) (by decide) ?_
  intro c hc
  rw [← Option.some.inj hc]
  decide

end EngineQuery
