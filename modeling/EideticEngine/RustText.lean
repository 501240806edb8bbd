/-
# Text functions of the Rust standard library

`str::trim`, `str::split_whitespace` and `[&str]::join` on Lean strings, by the
Unicode `White_Space` property that the Rust functions use (Lean's own
`Char.isWhitespace` knows the ASCII blanks only), and the passage between texts and
their UTF-8 bytes.
-/
import Mathlib

namespace RustText

/-- `char::is_whitespace`: the Unicode `White_Space` property. -/
def isWhitespace (c : Char) : Bool :=
  let n := c.toNat
  (9 ≤ n && n ≤ 13) || n == 0x20 || n == 0x85 || n == 0xA0 || n == 0x1680
    || (0x2000 ≤ n && n ≤ 0x200A) || n == 0x2028 || n == 0x2029 || n == 0x202F
    || n == 0x205F || n == 0x3000

/-- `char::is_control`. -/
def isControl (c : Char) : Bool := c.toNat < 0x20 || (0x7F ≤ c.toNat && c.toNat < 0xA0)

/-- `str::trim`. -/
def trim (s : String) : String :=
  String.ofList ((s.toList.dropWhile isWhitespace).rdropWhile isWhitespace)

/-- `str::trim_end`. -/
def trimEnd (s : String) : String :=
  String.ofList (s.toList.rdropWhile isWhitespace)

/-- `str::split_whitespace`: the maximal non-blank runs, in order. -/
def splitWhitespace (s : String) : List String :=
  ((s.toList.splitOnP isWhitespace).filter (fun w => !w.isEmpty)).map String.ofList

/-- `[&str]::join(" ")`. -/
def joinSpace (words : List String) : String :=
  " ".intercalate words

/-- `str::trim_start_matches` with a text as the pattern: every copy of it at the start
is dropped. -/
def trimStartMatches (pattern s : String) : String :=
  String.ofList (go pattern.toList s.toList s.toList.length)
where
  /-- At most so many copies. -/
  go (pattern text : List Char) : ℕ → List Char
    | 0 => text
    | n + 1 =>
      if pattern ≠ [] ∧ pattern.isPrefixOf text then go pattern (text.drop pattern.length) n
      else text

/-- The bytes of a text, `str::as_bytes`. -/
def asBytes (s : String) : List UInt8 :=
  s.toUTF8.data.toList

/-- `std::str::from_utf8`. -/
def fromUtf8 (bytes : List UInt8) : Option String :=
  String.fromUTF8? ⟨bytes.toArray⟩

/-- Reading the bytes of a text gives the text. -/
theorem fromUtf8_asBytes (s : String) : fromUtf8 (asBytes s) = some s := by
  obtain ⟨bytes, hv⟩ := s
  exact dif_pos hv

/-- A text that was read has the bytes it was read from. -/
theorem asBytes_of_fromUtf8 {bytes : List UInt8} {s : String} (h : fromUtf8 bytes = some s) :
    asBytes s = bytes := by
  unfold fromUtf8 String.fromUTF8? at h
  split at h
  · cases h
    rfl
  · cases h

/-- A text is determined by its bytes. -/
theorem asBytes_injective : Function.Injective asBytes := by
  intro s t h
  apply Option.some.inj
  rw [← fromUtf8_asBytes s, ← fromUtf8_asBytes t, h]

/-- The bytes of a text are those of its characters, one after another. -/
theorem asBytes_ofList (l : List Char) :
    asBytes (String.ofList l) = l.flatMap String.utf8EncodeChar := by
  unfold asBytes
  rw [String.toUTF8_eq_toByteArray, String.toByteArray_ofList, List.utf8Encode]
  simp

theorem asBytes_append (s t : String) : asBytes (s ++ t) = asBytes s ++ asBytes t := by
  unfold asBytes
  rw [String.toUTF8_eq_toByteArray, String.toByteArray_append]
  simp

theorem length_asBytes (s : String) : (asBytes s).length = s.utf8ByteSize := rfl

/-- Dropping the blanks at the end keeps a first character that is not blank. -/
theorem dropWhile_rdropWhile_dropWhile {α : Type*} (p : α → Bool) (l : List α) :
    ((l.dropWhile p).rdropWhile p).dropWhile p = (l.dropWhile p).rdropWhile p := by
  rw [List.dropWhile_eq_self_iff]
  intro hp
  have hpr : (l.dropWhile p).rdropWhile p <+: l.dropWhile p := List.rdropWhile_prefix p _
  have hne : l.dropWhile p ≠ [] := by
    intro h
    rw [h] at hp
    simp at hp
  have hh := List.dropWhile_get_zero_not p l (List.length_pos_of_ne_nil hne)
  have heq := hpr.getElem (i := 0) hp
  simp only [List.get_eq_getElem] at hh
  rw [heq]
  exact hh

/-- Trimming twice is trimming once. -/
@[simp] theorem trim_trim (s : String) : trim (trim s) = trim s := by
  unfold trim
  rw [String.toList_ofList, dropWhile_rdropWhile_dropWhile, List.rdropWhile_idempotent]

end RustText
