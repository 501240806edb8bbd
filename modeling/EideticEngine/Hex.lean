/-
# Lowercase hexadecimal

`hex_lower` and `decode_hex_32`: how the transport writes digests, nonces and tags.
The decoder reads lowercase digits only, so a text that decodes is the one text
that the encoder writes for its bytes.
-/
import EideticEngine.RustText
import EideticEngine.ExceptRules

namespace Hex

open RustText

/-- `[u8; 32]`. -/
abbrev Bytes32 := { bytes : List UInt8 // bytes.length = 32 }

/-- The byte of `char::from_digit(n, 16)`, for a digit below sixteen. -/
def digitByte (n : UInt8) : UInt8 := if n < 10 then 48 + n else 87 + n

/-- `char::from_digit(n, 16)`. -/
def fromDigit (n : UInt8) : Char := Char.ofNat (digitByte n).toNat

/-- `hex_lower`. -/
def hexLower (bytes : List UInt8) : String :=
  String.ofList (bytes.flatMap fun byte : UInt8 =>
    [fromDigit (byte >>> 4), fromDigit (byte &&& 15)])

/-- `hex_val`. -/
def hexVal (byte : UInt8) : Option UInt8 :=
  if 48 ≤ byte ∧ byte ≤ 57 then some (byte - 48)
  else if 97 ≤ byte ∧ byte ≤ 102 then some (byte - 97 + 10)
  else none

/-- The loop of `decode_hex_32` over the chunks of two bytes. -/
def decodeChunks : List UInt8 → Option (List UInt8)
  | high :: low :: rest => do
    let high ← hexVal high
    let low ← hexVal low
    let bytes ← decodeChunks rest
    some ((high <<< 4 ||| low) :: bytes)
  | _ => some []

theorem length_of_decodeChunks : ∀ (n : ℕ) {text bytes : List UInt8},
    text.length = 2 * n → decodeChunks text = some bytes → bytes.length = n := by
  intro n
  induction n with
  | zero =>
    intro text bytes hl h
    rw [List.length_eq_zero_iff.mp (by omega : text.length = 0)] at h
    cases h
    rfl
  | succ n ih =>
    intro text bytes hl h
    match text, hl with
    | high :: low :: r, hl =>
      simp only [decodeChunks, Option.bind_eq_bind, Option.bind_eq_some_iff, Option.some.injEq] at h
      obtain ⟨_, _, _, _, tail, ht, rfl⟩ := h
      simp only [List.length_cons] at hl ⊢
      rw [ih (by omega) ht]

/-- `decode_hex_32`. -/
def decodeHex32 (value : String) : Option Bytes32 :=
  if hlen : (asBytes value).length = 64 then
    (decodeChunks (asBytes value)).attach.map fun bytes =>
      ⟨bytes.1, length_of_decodeChunks 32 hlen bytes.2⟩
  else none

/-- `constant_time_eq_hex`. -/
def constantTimeEqHex (candidateHex : String) (expected : Bytes32) : Bool :=
  match decodeHex32 candidateHex with
  | none => false
  | some candidate =>
    ((candidate.1.zip expected.1).foldl (fun diff ab => diff ||| (ab.1 ^^^ ab.2)) 0) == 0

/-! ## Digits -/

theorem length_zeros : (List.replicate 32 (0 : UInt8)).length = 32 := by decide

/-- A property of bytes is a property of the numbers below 256. -/
theorem forall_byte {P : UInt8 → Prop} (h : ∀ n : Fin 256, P (UInt8.ofNat n)) (b : UInt8) :
    P b := by
  have hb := h ⟨b.toNat, b.toNat_lt⟩
  simpa using hb

/-- Each half of a byte is read back. -/
theorem hexVal_digitByte (b : UInt8) : hexVal (digitByte (b >>> 4)) = some (b >>> 4) ∧
      hexVal (digitByte (b &&& 15)) = some (b &&& 15) ∧
      (b >>> 4) <<< 4 ||| (b &&& 15) = b := by
  revert b
  exact forall_byte (by decide +kernel)

/-- A digit that is read is the one that is written for its value. -/
theorem digitByte_of_hexVal {b n : UInt8} (h : hexVal b = some n) : digitByte n = b ∧ n < 16 := by
  have ha : ∀ b : UInt8, (hexVal b).all fun n => digitByte n = b ∧ n < 16 :=
    forall_byte (by decide +kernel)
  simpa [h] using ha b

/-- The halves of a byte made of two digits. -/
theorem halves_of_digits {h low : UInt8} (hh : h < 16) (hl : low < 16) :
    (h <<< 4 ||| low) >>> 4 = h ∧ (h <<< 4 ||| low) &&& 15 = low := by
  have ha : ∀ h low : Fin 16, (UInt8.ofNat h <<< 4 ||| UInt8.ofNat low) >>> 4 = UInt8.ofNat h ∧
        (UInt8.ofNat h <<< 4 ||| UInt8.ofNat low) &&& 15 = UInt8.ofNat low := by
    decide +kernel
  simpa using ha ⟨h.toNat, hh⟩ ⟨low.toNat, hl⟩

/-- The digits of a byte are single bytes of text. -/
theorem utf8EncodeChar_fromDigit (b : UInt8) :
    String.utf8EncodeChar (fromDigit (b >>> 4)) = [digitByte (b >>> 4)] ∧
      String.utf8EncodeChar (fromDigit (b &&& 15)) = [digitByte (b &&& 15)] := by
  revert b
  exact forall_byte (by decide +kernel)

/-! ## Round trips -/

/-- The bytes of the text that `hexLower` writes. -/
def hexBytes (bytes : List UInt8) : List UInt8 :=
  bytes.flatMap fun byte : UInt8 => [digitByte (byte >>> 4), digitByte (byte &&& 15)]

theorem asBytes_hexLower (bytes : List UInt8) : asBytes (hexLower bytes) = hexBytes bytes := by
  rw [hexLower, asBytes_ofList, hexBytes, List.flatMap_assoc]
  congr 1
  funext byte
  simp [utf8EncodeChar_fromDigit byte]

theorem length_hexBytes (bytes : List UInt8) : (hexBytes bytes).length = 2 * bytes.length := by
  simp [hexBytes, Nat.mul_comm]

theorem decodeChunks_hexBytes (bytes : List UInt8) :
    decodeChunks (hexBytes bytes) = some bytes := by
  induction bytes with
  | nil => rfl
  | cons b bytes ih =>
    obtain ⟨hh, hl, hb⟩ := hexVal_digitByte b
    rw [hexBytes] at ih
    simp only [hexBytes, List.flatMap_cons, List.cons_append, List.nil_append, decodeChunks,
      hh, hl, ih, Option.bind_eq_bind, Option.bind_some, hb]

theorem hexLower_injective : Function.Injective hexLower := by
  intro a b h
  have hb := congrArg asBytes h
  rw [asBytes_hexLower, asBytes_hexLower] at hb
  have hd := congrArg decodeChunks hb
  rw [decodeChunks_hexBytes, decodeChunks_hexBytes] at hd
  exact Option.some.inj hd

/-- A text that decodes is the one that is written for its bytes. -/
theorem hexBytes_of_decodeChunks : ∀ (n : ℕ) {text bytes : List UInt8},
    text.length = 2 * n → decodeChunks text = some bytes → hexBytes bytes = text := by
  intro n
  induction n with
  | zero =>
    intro text bytes hle h
    rw [List.length_eq_zero_iff.mp (by omega : text.length = 0)] at h ⊢
    cases h
    rfl
  | succ n ih =>
    intro text bytes hle h
    match text, hle with
    | highByte :: lb :: r, hle =>
      simp only [decodeChunks, Option.bind_eq_bind, Option.bind_eq_some_iff, Option.some.injEq] at h
      obtain ⟨hi, hhi, low, hlo, tail, ht, rfl⟩ := h
      obtain ⟨hdh, hh⟩ := digitByte_of_hexVal hhi
      obtain ⟨hdl, hl⟩ := digitByte_of_hexVal hlo
      obtain ⟨hha, hlh⟩ := halves_of_digits hh hl
      have hr : hexBytes tail = r := ih (by simp only [List.length_cons] at hle; omega) ht
      rw [hexBytes] at hr
      simp only [hexBytes, List.flatMap_cons, hha, hlh, hdh, hdl, hr, List.cons_append,
        List.nil_append]

/-- Reading a written digest gives the digest. -/
@[simp] theorem decodeHex32_hexLower (digest : Bytes32) :
    decodeHex32 (hexLower digest.1) = some digest := by
  have hl : (asBytes (hexLower digest.1)).length = 64 := by
    rw [asBytes_hexLower, length_hexBytes, digest.2]
  have hd : decodeChunks (asBytes (hexLower digest.1)) = some digest.1 := by
    rw [asBytes_hexLower, decodeChunks_hexBytes]
  simp only [decodeHex32, hl, ↓reduceDIte]
  rw [Option.map_eq_some_iff]
  exact ⟨⟨digest.1, hd⟩, by simp [hd], rfl⟩

/-- A digest is determined by its written form. -/
theorem hexLower_inj {a b : Bytes32} (h : hexLower a.1 = hexLower b.1) : a = b :=
  Subtype.ext (hexLower_injective h)

/-- **A text that decodes is the written form of its digest.** -/
theorem hexLower_of_decodeHex32 {value : String} {digest : Bytes32}
    (h : decodeHex32 value = some digest) : hexLower digest.1 = value := by
  unfold decodeHex32 at h
  split at h
  next hl =>
    obtain ⟨bytes, -, rfl⟩ := Option.map_eq_some_iff.mp h
    apply asBytes_injective
    rw [asBytes_hexLower]
    exact hexBytes_of_decodeChunks 32 hl bytes.2
  next => cases h

/-! ## Comparison -/

theorem foldl_or_eq_zero (l : List UInt8) (di : UInt8) :
    l.foldl (fun d x => d ||| x) di = 0 ↔ di = 0 ∧ ∀ x ∈ l, x = 0 := by
  induction l generalizing di with
  | nil => simp
  | cons x l ih =>
    rw [List.foldl_cons, ih]
    simp [UInt8.or_eq_zero_iff, and_assoc]

/-- The accumulated difference is zero exactly when the bytes are the same. -/
theorem foldl_xor_eq_zero_iff {a b : List UInt8} (hl : a.length = b.length) :
    (a.zip b).foldl (fun di ab => di ||| (ab.1 ^^^ ab.2)) 0 = 0 ↔ a = b := by
  have hma : (a.zip b).foldl (fun di ab => di ||| (ab.1 ^^^ ab.2)) 0
      = ((a.zip b).map fun ab => ab.1 ^^^ ab.2).foldl (fun d x => d ||| x) 0 := by
    rw [List.foldl_map]
  rw [hma, foldl_or_eq_zero]
  simp only [true_and, List.mem_map, forall_exists_index, and_imp, Prod.forall]
  constructor
  · intro h
    refine List.ext_getElem hl ?_
    intro i hia hib
    have hm : (a[i], b[i]) ∈ a.zip b := List.mem_iff_getElem.mpr ⟨i, by simp [hia, hib], by simp⟩
    exact UInt8.xor_eq_zero_iff.mp (h _ _ _ hm rfl)
  · rintro rfl x c d hm rfl
    rw [List.mem_iff_getElem] at hm
    obtain ⟨i, hi, heq⟩ := hm
    simp only [List.getElem_zip, Prod.mk.injEq] at heq
    rw [← heq.1, ← heq.2, UInt8.xor_self]

/-- **The comparison accepts exactly the written form of the expected bytes.** -/
theorem constantTimeEqHex_iff {ch : String} {ex : Bytes32} :
    constantTimeEqHex ch ex = true ↔ ch = hexLower ex.1 := by
  constructor
  · intro h
    unfold constantTimeEqHex at h
    split at h
    next => cases h
    next candidate hd =>
      have heq : candidate.1 = ex.1 :=
        (foldl_xor_eq_zero_iff (by rw [candidate.2, ex.2])).mp (beq_iff_eq.mp h)
      rw [← heq, hexLower_of_decodeHex32 hd]
  · rintro rfl
    rw [constantTimeEqHex, decodeHex32_hexLower]
    exact beq_iff_eq.mpr ((foldl_xor_eq_zero_iff rfl).mpr rfl)

end Hex
