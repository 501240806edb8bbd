/-
# The text of a JSON value

What `serde_json` prints for a value without a formatter: no blanks, numbers as their texts, and
commas between items and entries.  The writer of strings is a parameter, `JsonStrings`; the one of
the library has short escapes where JSON has them, `\u00xx` for the other control characters and
leaves everything else as it is.
-/
import EideticEngine.Serde

namespace Serde

/-! ## Strings -/

/-- How strings are written: in quotes, so that a string can be told from what follows it, and
with an escape for NUL, as JSON asks for all control characters. -/
class JsonStrings where
  quoted : String → List Char
  head_quoted : ∀ text, ∃ rest, quoted text = '"' :: rest
  quoted_append_inj : ∀ {text text' : String} {rest rest' : List Char},
    quoted text ++ rest = quoted text' ++ rest' → text = text' ∧ rest = rest'
  nul_notMem_quoted : ∀ text, '\x00' ∉ quoted text

open JsonStrings (quoted)

section

variable [JsonStrings]

namespace Json

/-! ## Values -/

mutual

/-- The characters that are printed for a value. -/
def chars : Json → List Char
  | .null => "null".toList
  | .bool true => "true".toList
  | .bool false => "false".toList
  | .number text => text.toList
  | .string text => quoted text
  | .array items => '[' :: (charsItems items ++ [']'])
  | .object entries => '\x7b' :: (charsEntries entries ++ ['\x7d'])

/-- The items of an array, with the commas between them. -/
def charsItems : List Json → List Char
  | [] => []
  | [item] => item.chars
  | item :: next :: items => item.chars ++ ',' :: charsItems (next :: items)

/-- The entries of an object, with the commas between them. -/
def charsEntries : List (String × Json) → List Char
  | [] => []
  | [(key, value)] => quoted key ++ ':' :: value.chars
  | (key, value) :: next :: entries =>
    quoted key ++ ':' :: (value.chars ++ ',' :: charsEntries (next :: entries))

end

/-- `Value::to_string`. -/
def display (value : Json) : String := String.ofList value.chars

end Json

end

/-! ## The escapes of the library -/

/-- A digit of `\u00xx`. -/
def hexDigit (n : ℕ) : Char :=
  if n < 10 then Char.ofNat (48 + n) else Char.ofNat (87 + n)

/-- The letter of the escapes that have one. -/
def shortEscape (c : Char) : Option Char :=
  if c = '"' then some '"'
  else if c = '\\' then some '\\'
  else if c = '\x08' then some 'b'
  else if c = '\t' then some 't'
  else if c = '\n' then some 'n'
  else if c = '\x0c' then some 'f'
  else if c = '\r' then some 'r'
  else none

/-- How a character is written inside a string. -/
def escapeChar (c : Char) : List Char :=
  match shortEscape c with
  | some letter => ['\\', letter]
  | none =>
    if c.toNat < 0x20 then
      ['\\', 'u', '0', '0', hexDigit (c.toNat / 16), hexDigit (c.toNat % 16)]
    else [c]

/-- A string in its quotes. -/
def escapedText (text : String) : List Char :=
  '"' :: (text.toList.flatMap escapeChar ++ ['"'])

/-- The number behind a digit of `\u00xx`. -/
def hexValue (c : Char) : ℕ :=
  if c.toNat < 58 then c.toNat - 48 else c.toNat - 87

/-- Reading one character of a string back. -/
def unescapeChar : List Char → Option (Char × List Char)
  | '\\' :: 'u' :: '0' :: '0' :: a :: b :: rest =>
    some (Char.ofNat (16 * hexValue a + hexValue b), rest)
  | '\\' :: '"' :: rest => some ('"', rest)
  | '\\' :: '\\' :: rest => some ('\\', rest)
  | '\\' :: 'b' :: rest => some ('\x08', rest)
  | '\\' :: 't' :: rest => some ('\t', rest)
  | '\\' :: 'n' :: rest => some ('\n', rest)
  | '\\' :: 'f' :: rest => some ('\x0c', rest)
  | '\\' :: 'r' :: rest => some ('\r', rest)
  | c :: rest => some (c, rest)
  | [] => none

theorem shortEscape_cases {c letter : Char} (h : shortEscape c = some letter) :
    (c = '"' ∧ letter = '"') ∨ (c = '\\' ∧ letter = '\\') ∨ (c = '\x08' ∧ letter = 'b') ∨
      (c = '\t' ∧ letter = 't') ∨ (c = '\n' ∧ letter = 'n') ∨ (c = '\x0c' ∧ letter = 'f') ∨
      (c = '\r' ∧ letter = 'r') := by
  unfold shortEscape at h
  split_ifs at h with h1 h2 h3 h4 h5 h6 h7 <;> cases h <;> simp_all

theorem unescapeChar_escapeChar (c : Char) (rest : List Char) :
    unescapeChar (escapeChar c ++ rest) = some (c, rest) := by
  unfold escapeChar
  cases hshort : shortEscape c with
  | some letter =>
    rcases shortEscape_cases hshort with ⟨rfl, rfl⟩ | ⟨rfl, rfl⟩ | ⟨rfl, rfl⟩ | ⟨rfl, rfl⟩ |
      ⟨rfl, rfl⟩ | ⟨rfl, rfl⟩ | ⟨rfl, rfl⟩ <;> rfl
  | none =>
    simp only
    split
    · rename_i hcontrol
      have hc : c = Char.ofNat c.toNat := (Char.ofNat_toNat c).symm
      generalize c.toNat = n at hc hcontrol
      subst hc
      interval_cases n <;> rfl
    · have hne : c ≠ '\\' := by
        rintro rfl
        cases hshort
      unfold unescapeChar
      simp only [List.cons_append, List.nil_append]
      split <;> simp_all

/-- A quote inside a string is escaped. -/
theorem escapeChar_head (c : Char) : ∃ head tail, escapeChar c = head :: tail ∧ head ≠ '"' := by
  unfold escapeChar
  cases hs : shortEscape c with
  | some l => exact ⟨'\\', [l], rfl, by decide⟩
  | none =>
    simp only
    split
    · exact ⟨_, _, rfl, by decide⟩
    · refine ⟨c, [], rfl, ?_⟩
      rintro rfl
      cases hs

theorem flatMap_escapeChar_inj (text : List Char) : ∀ {text' rest rest' : List Char},
    text.flatMap escapeChar ++ '"' :: rest = text'.flatMap escapeChar ++ '"' :: rest' →
      text = text' ∧ rest = rest' := by
  induction text with
  | nil =>
    intro text' rest rest' h
    cases text' with
    | nil =>
      simp only [List.flatMap_nil, List.nil_append, List.cons.injEq, true_and] at h
      exact ⟨rfl, h⟩
    | cons c text' =>
      obtain ⟨head, tail, hescape, hne⟩ := escapeChar_head c
      rw [List.flatMap_nil, List.flatMap_cons, hescape] at h
      simp only [List.nil_append, List.cons_append, List.cons.injEq] at h
      exact absurd h.1.symm hne
  | cons c text ih =>
    intro text' rest rest' h
    cases text' with
    | nil =>
      obtain ⟨head, tail, hescape, hne⟩ := escapeChar_head c
      rw [List.flatMap_nil, List.flatMap_cons, hescape] at h
      simp only [List.nil_append, List.cons_append, List.cons.injEq] at h
      exact absurd h.1 hne
    | cons d text' =>
      rw [List.flatMap_cons, List.flatMap_cons, List.append_assoc, List.append_assoc] at h
      have hread := congrArg unescapeChar h
      rw [unescapeChar_escapeChar, unescapeChar_escapeChar] at hread
      obtain ⟨rfl, htail⟩ := Prod.mk.inj (Option.some.inj hread)
      obtain ⟨rfl, hrest⟩ := ih htail
      exact ⟨rfl, hrest⟩

/-- A string can be told from what follows it. -/
theorem escapedText_append_inj {text text' : String} {rest rest' : List Char}
    (h : escapedText text ++ rest = escapedText text' ++ rest') : text = text' ∧ rest = rest' := by
  unfold escapedText at h
  simp only [List.cons_append, List.append_assoc, List.nil_append, List.cons.injEq, true_and] at h
  obtain ⟨ht, hr⟩ := flatMap_escapeChar_inj _ h
  exact ⟨String.toList_injective ht, hr⟩

theorem nul_notMem_escapeChar (c : Char) : '\x00' ∉ escapeChar c := by
  unfold escapeChar
  cases hs : shortEscape c with
  | some l =>
    rcases shortEscape_cases hs with ⟨rfl, rfl⟩ | ⟨rfl, rfl⟩ | ⟨rfl, rfl⟩ | ⟨rfl, rfl⟩ |
      ⟨rfl, rfl⟩ | ⟨rfl, rfl⟩ | ⟨rfl, rfl⟩ <;> decide
  | none =>
    simp only
    split
    · rename_i hc
      generalize c.toNat = n at hc
      interval_cases n <;> decide
    · rename_i hc
      rw [List.mem_singleton]
      rintro rfl
      exact hc (by decide)

theorem nul_notMem_escapedText (text : String) : '\x00' ∉ escapedText text := by
  unfold escapedText
  simp only [List.mem_cons, List.mem_append, List.mem_flatMap, not_or, not_exists, not_and,
    List.not_mem_nil, not_false_eq_true, and_true]
  exact ⟨by decide, fun c _ => nul_notMem_escapeChar c, by decide⟩

/-- The writer of the library. -/
@[reducible] def serdeStrings : JsonStrings where
  quoted := escapedText
  head_quoted _ := ⟨_, rfl⟩
  quoted_append_inj := escapedText_append_inj
  nul_notMem_quoted := nul_notMem_escapedText

end Serde
