/-
# Base64 without padding

The URL-safe alphabet without padding.  Three bytes are four digits of six bits; one or two
bytes at the end are two or three digits whose last bits are zero.  The decoder refuses
other characters, a single digit at the end and digits whose unused bits are not zero, so a
text that decodes is the one text that encodes its bytes.

What a program relies on is stated for any such encoding, `Engine`.
-/
import Mathlib.Tactic

namespace Base64

/-- The digits, in order. -/
def alphabet : List Char :=
  "ABCDEFGHIJKLMNOPQRSTUVWXYZabcdefghijklmnopqrstuvwxyz0123456789-_".toList

/-- The character of a digit. -/
def digitChar (n : ℕ) : Char := alphabet.getD n 'A'

/-- The digit of a character. -/
def charDigit (c : Char) : Option ℕ := alphabet.findIdx? fun x => x = c

/-- The digits of a byte string. -/
def digits : List UInt8 → List ℕ
  | a :: b :: c :: rest =>
    a.toNat / 4 :: (a.toNat % 4 * 16 + b.toNat / 16) :: (b.toNat % 16 * 4 + c.toNat / 64)
      :: c.toNat % 64 :: digits rest
  | [a, b] => [a.toNat / 4, a.toNat % 4 * 16 + b.toNat / 16, b.toNat % 16 * 4]
  | [a] => [a.toNat / 4, a.toNat % 4 * 16]
  | [] => []

/-- The bytes of some digits. -/
def undigits : List ℕ → Option (List UInt8)
  | w :: x :: y :: z :: rest =>
    (undigits rest).map fun bytes =>
      UInt8.ofNat (w * 4 + x / 16) :: UInt8.ofNat (x % 16 * 16 + y / 4)
        :: UInt8.ofNat (y % 4 * 64 + z) :: bytes
  | [w, x, y] =>
    if y % 4 = 0 then
      some [UInt8.ofNat (w * 4 + x / 16), UInt8.ofNat (x % 16 * 16 + y / 4)]
    else none
  | [w, x] => if x % 16 = 0 then some [UInt8.ofNat (w * 4 + x / 16)] else none
  | [_] => none
  | [] => some []

/-- The text of a byte string. -/
def encode (bytes : List UInt8) : List Char := (digits bytes).map digitChar

/-- The byte string of a text. -/
def decode (text : List Char) : Option (List UInt8) := (text.mapM charDigit).bind undigits

/-! ## Digits and characters -/

theorem charDigit_digitChar {n : ℕ} (h : n < 64) : charDigit (digitChar n) = some n := by
  have ha : ∀ n : Fin 64, charDigit (digitChar n) = some n.1 := by decide +kernel
  exact ha ⟨n, h⟩

theorem digitChar_of_charDigit {c : Char} {n : ℕ} (h : charDigit c = some n) :
    n < 64 ∧ digitChar n = c := by
  obtain ⟨hn, hc, -⟩ := List.findIdx?_eq_some_iff_getElem.mp h
  refine ⟨hn, ?_⟩
  rw [digitChar, List.getD_eq_getElem?_getD, List.getElem?_eq_getElem hn, Option.getD_some]
  exact of_decide_eq_true hc

/-- Reading the characters of some digits gives the digits. -/
theorem mapM_charDigit {l : List ℕ} (h : ∀ n ∈ l, n < 64) :
    (l.map digitChar).mapM charDigit = some l := by
  induction l with
  | nil => rfl
  | cons n l ih =>
    rw [List.map_cons, List.mapM_cons, charDigit_digitChar (h n (by simp)),
      ih fun m hm => h m (List.mem_cons_of_mem n hm)]
    rfl

/-- A text whose characters are digits is the text of those digits. -/
theorem map_digitChar {text : List Char} : ∀ {l : List ℕ}, text.mapM charDigit = some l →
    (∀ n ∈ l, n < 64) ∧ l.map digitChar = text := by
  induction text with
  | nil =>
    intro l h
    cases h
    exact ⟨fun n hn => absurd hn List.not_mem_nil, rfl⟩
  | cons c text ih =>
    intro l h
    rw [List.mapM_cons] at h
    simp only [Option.bind_eq_bind, Option.bind_eq_some_iff, Option.pure_def,
      Option.some.injEq] at h
    obtain ⟨n, hn, r, hr, rfl⟩ := h
    obtain ⟨hlt, hc⟩ := digitChar_of_charDigit hn
    obtain ⟨ha, hma⟩ := ih hr
    refine ⟨?_, by rw [List.map_cons, hc, hma]⟩
    intro m hm
    rcases List.mem_cons.mp hm with rfl | hm
    · exact hlt
    · exact ha m hm

/-! ## Digits and bytes -/

/-- Digits are below sixty-four. -/
theorem digits_lt (bytes : List UInt8) : ∀ n ∈ digits bytes, n < 64 := by
  induction bytes using digits.induct with
  | case1 a b c rest ih =>
    have ha := a.toNat_lt
    have hb := b.toNat_lt
    have hc := c.toNat_lt
    intro n hn
    simp only [digits, List.mem_cons] at hn
    rcases hn with rfl | rfl | rfl | rfl | hn
    · omega
    · omega
    · omega
    · omega
    · exact ih n hn
  | case2 a b =>
    have ha := a.toNat_lt
    have hb := b.toNat_lt
    intro n hn
    simp only [digits, List.mem_cons, List.not_mem_nil, or_false] at hn
    rcases hn with rfl | rfl | rfl <;> omega
  | case3 a =>
    have ha := a.toNat_lt
    intro n hn
    simp only [digits, List.mem_cons, List.not_mem_nil, or_false] at hn
    rcases hn with rfl | rfl <;> omega
  | case4 => simp [digits]

/-- A byte is the byte of its value. -/
theorem ofNat_of_eq {n : ℕ} {b : UInt8} (h : n = b.toNat) : UInt8.ofNat n = b := by
  rw [h, UInt8.ofNat_toNat]

/-- The digits of a byte string give it back. -/
theorem undigits_digits (bytes : List UInt8) : undigits (digits bytes) = some bytes := by
  induction bytes using digits.induct with
  | case1 a b c r ih =>
    have ha := a.toNat_lt
    have hb := b.toNat_lt
    have hc := c.toNat_lt
    rw [digits, undigits, ih, Option.map_some, ofNat_of_eq (b := a) (by omega),
      ofNat_of_eq (b := b) (by omega), ofNat_of_eq (b := c) (by omega)]
  | case2 a b =>
    have ha := a.toNat_lt
    have hb := b.toNat_lt
    rw [digits, undigits, if_pos (by omega), ofNat_of_eq (b := a) (by omega),
      ofNat_of_eq (b := b) (by omega)]
  | case3 a =>
    have ha := a.toNat_lt
    rw [digits, undigits, if_pos (by omega), ofNat_of_eq (b := a) (by omega)]
  | case4 => rfl

/-- Digits that give a byte string are its digits. -/
theorem digits_of_undigits (l : List ℕ) : ∀ {bytes : List UInt8}, (∀ n ∈ l, n < 64) →
    undigits l = some bytes → digits bytes = l := by
  induction l using undigits.induct with
  | case1 w x y z r ih =>
    intro bytes hlt h
    rw [undigits] at h
    obtain ⟨tail, ht, rfl⟩ := Option.map_eq_some_iff.mp h
    have hw := hlt w (by simp)
    have hx := hlt x (by simp)
    have hy := hlt y (by simp)
    have hz := hlt z (by simp)
    rw [digits, ih (fun n hn => hlt n (by simp [hn])) ht]
    simp only [UInt8.toNat_ofNat', List.cons.injEq, and_true]
    omega
  | case2 w x y hy =>
    intro bytes hlt h
    rw [undigits, if_pos hy] at h
    cases h
    have hw := hlt w (by simp)
    have hx := hlt x (by simp)
    have hy' := hlt y (by simp)
    simp only [digits, UInt8.toNat_ofNat', List.cons.injEq, and_true]
    omega
  | case3 w x y hy =>
    intro bytes hlt h
    rw [undigits, if_neg hy] at h
    cases h
  | case4 w x hx =>
    intro bytes hlt h
    rw [undigits, if_pos hx] at h
    cases h
    have hw := hlt w (by simp)
    have hx' := hlt x (by simp)
    simp only [digits, UInt8.toNat_ofNat', List.cons.injEq, and_true]
    omega
  | case5 w x hx =>
    intro bytes hlt h
    rw [undigits, if_neg hx] at h
    cases h
  | case6 w =>
    intro bytes hlt h
    cases h
  | case7 =>
    intro bytes hlt h
    cases h
    rfl

/-! ## Round trips -/

/-- **A text decodes exactly to the bytes it encodes.** -/
theorem decode_eq_some_iff {text : List Char} {bytes : List UInt8} :
    decode text = some bytes ↔ text = encode bytes := by
  constructor
  · intro h
    obtain ⟨l, hl, hb⟩ := Option.bind_eq_some_iff.mp h
    obtain ⟨hlt, hm⟩ := map_digitChar hl
    rw [encode, digits_of_undigits l hlt hb, hm]
  · rintro rfl
    rw [decode, encode, mapM_charDigit (digits_lt bytes), Option.bind_some, undigits_digits]

/-- The length of a text. -/
theorem length_encode (bytes : List UInt8) :
    (encode bytes).length = (bytes.length * 4 + 2) / 3 := by
  rw [encode, List.length_map]
  induction bytes using digits.induct with
  | case1 a b c r ih =>
    simp only [digits, List.length_cons, ih]
    omega
  | case2 a b => simp [digits]
  | case3 a => simp [digits]
  | case4 => simp [digits]

/-- A text is written with the digits. -/
theorem mem_alphabet_of_mem_encode {bytes : List UInt8} {c : Char} (h : c ∈ encode bytes) :
    c ∈ alphabet := by
  obtain ⟨n, hn, rfl⟩ := List.mem_map.mp h
  have ha : ∀ n : Fin 64, digitChar n ∈ alphabet := by decide +kernel
  exact ha ⟨n, digits_lt bytes n hn⟩

/-! ## Engines -/

/-- The engine `URL_SAFE_NO_PAD`: a text for every byte string, of the length and over the
alphabet of the encoding, and the byte string of every such text. -/
structure Engine where
  encode : List UInt8 → List Char
  decode : List Char → Option (List UInt8)
  decode_eq_some_iff : ∀ text bytes, decode text = some bytes ↔ text = encode bytes
  length_encode : ∀ bytes, (encode bytes).length = (bytes.length * 4 + 2) / 3
  mem_alphabet : ∀ bytes, ∀ c ∈ encode bytes, c ∈ alphabet

/-- The engine that works digit by digit. -/
def urlSafeNoPad : Engine where
  encode := encode
  decode := decode
  decode_eq_some_iff _ _ := decode_eq_some_iff
  length_encode := length_encode
  mem_alphabet _ _ := mem_alphabet_of_mem_encode

theorem Engine.decode_encode (engine : Engine) (bytes : List UInt8) :
    engine.decode (engine.encode bytes) = some bytes :=
  (engine.decode_eq_some_iff _ _).mpr rfl

end Base64
