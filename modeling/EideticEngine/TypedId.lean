/-
# Typed identifiers (`src/models/id.rs`)

An identifier is a 128-bit payload under a kind tag.  Its text is the tag, an
underscore and 26 Crockford base-32 digits; parsing accepts either letter case
and rejects a wrong tag, a wrong length, a foreign character and a payload of
more than 128 bits.
-/
import EideticEngine.RustText

open RustText

/-- `Id<K>`: the UUID payload as the 128-bit number that its bytes spell, for the
kind whose `K::PREFIX` is `tag`. -/
structure TypedId (tag : String) where
  inner : Fin (2 ^ 128)
  deriving DecidableEq

instance TypedId.neZero : NeZero (2 ^ 128) := inferInstance

/-- `ParseIdError`. -/
inductive ParseIdError where
  | missingSeparator (input : String)
  | wrongPrefix (input expected found : String)
  | wrongPayloadLength (input : String) (expected actual : ℕ)
  | invalidCharacter (input : String) (character : Char)
  | payloadOverflow (input : String)
  deriving DecidableEq

/-- `CROCKFORD_ALPHABET`. -/
def crockfordAlphabet : List Char :=
  "0123456789ABCDEFGHJKMNPQRSTVWXYZ".toList

/-- `ENCODED_LEN`. -/
def encodedLen : ℕ := 26

/-- `encode_crockford`: slot `i` holds the five bits at shift `(25 - i) * 5`. -/
def encodeCrockford (value : ℕ) : List Char :=
  (List.range encodedLen).map fun i =>
    let shift := (encodedLen - 1 - i) * 5
    let index := if shift ≥ 128 then 0 else (value >>> shift) % 32
    crockfordAlphabet.getD index '0'

/-- `crockford_digit`. -/
def crockfordDigit (byte : UInt8) : Option ℕ :=
  let b := byte.toNat
  if 48 ≤ b ∧ b ≤ 57 then some (b - 48)
  else if 65 ≤ b ∧ b ≤ 72 then some (b - 65 + 10)
  else if b = 74 ∨ b = 75 then some (b - 74 + 18)
  else if b = 77 ∨ b = 78 then some (b - 77 + 20)
  else if 80 ≤ b ∧ b ≤ 84 then some (b - 80 + 22)
  else if 86 ≤ b ∧ b ≤ 90 then some (b - 86 + 27)
  else if 97 ≤ b ∧ b ≤ 104 then some (b - 97 + 10)
  else if b = 106 ∨ b = 107 then some (b - 106 + 18)
  else if b = 109 ∨ b = 110 then some (b - 109 + 20)
  else if 112 ≤ b ∧ b ≤ 116 then some (b - 112 + 22)
  else if 118 ≤ b ∧ b ≤ 122 then some (b - 118 + 27)
  else none

/-- The digit loop of `decode_crockford`, from `position` on; the accumulator is
the `u128` value, whose shifts drop the bits above 128. -/
def decodeCrockfordDigits (fullInput : String) :
    ℕ → ℕ → List UInt8 → Except ParseIdError ℕ
  | _, value, [] => .ok value
  | position, value, byte :: rest =>
    match crockfordDigit byte with
    | none => .error (.invalidCharacter fullInput (Char.ofNat byte.toNat))
    | some digit =>
      if position = 0 ∧ digit > 7 then .error (.payloadOverflow fullInput)
      else decodeCrockfordDigits fullInput (position + 1) ((value * 32 + digit) % 2 ^ 128) rest

/-- `decode_crockford`. -/
def decodeCrockford (input : List UInt8) (fullInput : String) : Except ParseIdError ℕ :=
  if input.length ≠ encodedLen then
    .error (.wrongPayloadLength fullInput encodedLen input.length)
  else decodeCrockfordDigits fullInput 0 0 input

namespace TypedId

variable {tag : String}

/-- `Display` of an identifier. -/
def toText (id : TypedId tag) : String :=
  tag ++ "_" ++ String.ofList (encodeCrockford id.inner)

/-- `Ord::cmp`: UUID byte order, which is the order of the payloads. -/
def cmp (a b : TypedId tag) : Ordering :=
  compare a.inner b.inner

/-- `FromStr::from_str`. -/
def fromStr (tag : String) (input : String) : Except ParseIdError (TypedId tag) :=
  let chars := input.toList
  match chars.findIdx? (· = '_') with
  | none => .error (.missingSeparator input)
  | some separator =>
    let actual := String.ofList (chars.take separator)
    if actual ≠ tag then .error (.wrongPrefix input tag actual)
    else
      let payload := asBytes (String.ofList (chars.drop (separator + 1)))
      if payload.length ≠ encodedLen then
        .error (.wrongPayloadLength input encodedLen payload.length)
      else
        match decodeCrockford payload input with
        | .error e => .error e
        | .ok value => .ok ⟨Fin.ofNat (2 ^ 128) value⟩

end TypedId

/-- `MemoryId`. -/
abbrev MemoryId := TypedId "mem"

/-! ## The text determines the identifier -/

theorem crockfordAlphabet_getD_inj {a b : ℕ} (ha : a < 32) (hb : b < 32)
    (h : crockfordAlphabet.getD a '0' = crockfordAlphabet.getD b '0') : a = b := by
  have hl : crockfordAlphabet.length = 32 := by decide
  have hn : crockfordAlphabet.Nodup := by decide
  rw [List.getD_eq_getElem _ _ (by omega), List.getD_eq_getElem _ _ (by omega)] at h
  exact (hn.getElem_inj_iff).mp h

/-- The digits determine the payload. -/
theorem encodeCrockford_inj {v w : ℕ} (hv : v < 2 ^ 128) (hw : w < 2 ^ 128)
    (h : encodeCrockford v = encodeCrockford w) : v = w := by
  -- the digit at every shift that the encoding uses
  have hd : ∀ k, k < 26 → (v >>> (k * 5)) % 32 = (w >>> (k * 5)) % 32 := by
    intro k hk
    have hi := List.map_inj_left.mp h (25 - k) (List.mem_range.mpr (by unfold encodedLen; omega))
    have hs : (encodedLen - 1 - (25 - k)) * 5 = k * 5 := by unfold encodedLen; omega
    have hl : ¬ k * 5 ≥ 128 := by omega
    simp only [hs, if_neg hl] at hi
    exact crockfordAlphabet_getD_inj (Nat.mod_lt _ (by decide)) (Nat.mod_lt _ (by decide)) hi
  apply Nat.eq_of_testBit_eq
  intro j
  by_cases hj : j < 130
  · have hb : ∀ n : ℕ, n.testBit j = ((n >>> (j / 5 * 5)) % 2 ^ 5).testBit (j % 5) := by
      intro n
      rw [Nat.testBit_mod_two_pow, Nat.testBit_shiftRight]
      have hm : j % 5 < 5 := Nat.mod_lt _ (by decide)
      have hsu : j / 5 * 5 + j % 5 = j := by omega
      simp [hm, hsu]
    rw [hb v, hb w]
    exact congrArg (fun n => n.testBit (j % 5)) (hd (j / 5) (by omega))
  · have hp : (2 : ℕ) ^ 128 ≤ 2 ^ j := Nat.pow_le_pow_right (by decide) (by omega)
    rw [Nat.testBit_lt_two_pow (lt_of_lt_of_le hv hp),
      Nat.testBit_lt_two_pow (lt_of_lt_of_le hw hp)]
