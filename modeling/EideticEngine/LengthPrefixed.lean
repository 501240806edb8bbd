/-
# Length-prefixed fields

A field is written behind its length, a little-endian number of four bytes that is
capped at the largest one.  Below the cap a sequence of fields can be taken apart in
one way only, so the concatenation determines every field: this is what makes a
hash over such a string a hash over the fields.  `LengthCode` is the same for lengths
written in another way.
-/
import EideticEngine.LittleEndian

namespace LengthPrefixed

/-- A field behind its length. -/
def lp (bytes : List UInt8) : List UInt8 :=
  leBytes 4 (min bytes.length 4294967295) ++ bytes

/-- Append a length-prefixed field to a buffer. -/
def pushLp (out bytes : List UInt8) : List UInt8 := out ++ lp bytes

/-- The fields one after another, each behind its length. -/
def lpFields (fields : List (List UInt8)) : List UInt8 := fields.foldl pushLp []

/-- The field is short enough for its length to be written in full. -/
def Fits (bytes : List UInt8) : Prop := bytes.length < 2 ^ 32

theorem foldl_pushLp (fields : List (List UInt8)) (out : List UInt8) :
    fields.foldl pushLp out = out ++ fields.flatMap lp := by
  induction fields generalizing out with
  | nil => simp
  | cons field fields ih =>
    rw [List.foldl_cons, ih, pushLp, List.flatMap_cons, List.append_assoc]

theorem lpFields_eq_flatMap (fields : List (List UInt8)) : lpFields fields = fields.flatMap lp := by
  rw [lpFields, foldl_pushLp, List.nil_append]

theorem leValue_length_of_fits {bytes : List UInt8} (h : Fits bytes) :
    leValue (leBytes 4 (min bytes.length 4294967295)) = bytes.length := by
  unfold Fits at h
  rw [leValue_leBytes_of_lt (by omega)]
  omega

/-- A field at the front is found again, and with it the rest. -/
theorem lp_append_inj {a b s t : List UInt8} (ha : Fits a) (hb : Fits b)
    (h : lp a ++ s = lp b ++ t) : a = b ∧ s = t := by
  simp only [lp, List.append_assoc] at h
  obtain ⟨hl, hr⟩ := List.append_inj h (by simp)
  have hab : a.length = b.length := by
    rw [← leValue_length_of_fits ha, ← leValue_length_of_fits hb, hl]
  exact List.append_inj hr hab

theorem flatMap_lp_inj {fields : List (List UInt8)} :
    ∀ {fs' : List (List UInt8)}, (∀ b ∈ fields, Fits b) → (∀ b ∈ fs', Fits b) →
      fields.flatMap lp = fs'.flatMap lp → fields = fs' := by
  induction fields with
  | nil =>
    intro fs' _ _ h
    cases fs' with
    | nil => rfl
    | cons b r =>
      -- a field is never empty once its length stands before it
      have hle := congrArg List.length h
      simp [lp] at hle
      omega
  | cons a fields ih =>
    intro fs' hl hl' h
    cases fs' with
    | nil =>
      have hle := congrArg List.length h
      simp [lp] at hle
    | cons b r =>
      rw [List.flatMap_cons, List.flatMap_cons] at h
      obtain ⟨hab, hr⟩ := lp_append_inj (hl a (by simp)) (hl' b (by simp)) h
      have ht := ih (fun c hc => hl c (by simp [hc])) (fun c hc => hl' c (by simp [hc])) hr
      rw [hab, ht]

/-- **Length-prefixed fields are determined by their concatenation.** -/
theorem lpFields_inj {fields fs' : List (List UInt8)} (hl : ∀ b ∈ fields, Fits b)
    (hl' : ∀ b ∈ fs', Fits b) (h : lpFields fields = lpFields fs') : fields = fs' := by
  rw [lpFields_eq_flatMap, lpFields_eq_flatMap] at h
  exact flatMap_lp_inj hl hl' h

/-! ## Other ways to write the length -/

/-- How the length of a field is written: in a fixed width, and below a bound in one way
only. -/
structure LengthCode where
  write : ℕ → List UInt8
  width : ℕ
  bound : ℕ
  length_write : ∀ n, (write n).length = width
  write_inj : ∀ {m n}, m < bound → n < bound → write m = write n → m = n

namespace LengthCode

/-- A field behind its length. -/
def field (code : LengthCode) (bytes : List UInt8) : List UInt8 :=
  code.write bytes.length ++ bytes

/-- A field at the front is found again, and with it the rest. -/
theorem field_append_inj (code : LengthCode) {a b s t : List UInt8} (ha : a.length < code.bound)
    (hb : b.length < code.bound) (h : code.field a ++ s = code.field b ++ t) :
    a = b ∧ s = t := by
  simp only [field, List.append_assoc] at h
  obtain ⟨hl, hr⟩ := List.append_inj h (by rw [code.length_write, code.length_write])
  exact List.append_inj hr (code.write_inj ha hb hl)

/-- Little-endian in eight bytes, `u64::to_le_bytes`. -/
def le64 : LengthCode where
  write := leBytes 8
  width := 8
  bound := 2 ^ 64
  length_write n := length_leBytes 8 n
  write_inj {m n} hm hn h := by
    rw [← leValue_leBytes_of_lt (w := 8) (n := m) (by omega),
      ← leValue_leBytes_of_lt (w := 8) (n := n) (by omega), h]

/-- Big-endian in eight bytes, `u64::to_be_bytes`. -/
def be64 : LengthCode where
  write n := (leBytes 8 n).reverse
  width := 8
  bound := 2 ^ 64
  length_write n := by rw [List.length_reverse, length_leBytes]
  write_inj {_ _} hm hn h := le64.write_inj hm hn (List.reverse_injective h)

end LengthCode

end LengthPrefixed
