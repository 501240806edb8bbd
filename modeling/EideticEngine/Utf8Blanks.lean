/-
# Characters and blanks of a text by position

The character that stands at a byte position of a text, and the ranges that hold nothing but
blanks.  A boundary never falls inside a character, an ASCII byte is a character of its own, and
trimming a slice takes off a blank range at either end.
-/
import EideticEngine.Utf8Slice

namespace Utf8Slice

open RustText (asBytes isWhitespace trim)

/-! ## Characters -/

/-- The character `c` stands at the byte position `k`. -/
def CharAt (s : String) (k : ℕ) (c : Char) : Prop :=
  slice s k (k + c.utf8Size) = some (String.singleton c)

theorem charAt_iff {s : String} {k : ℕ} {c : Char} :
    CharAt s k c ↔ ∃ f r, s = f ++ String.singleton c ++ r ∧ k = f.utf8ByteSize := by
  unfold CharAt
  rw [slice_eq_some_iff]
  constructor
  · rintro ⟨f, r, hs, hk, -⟩
    exact ⟨f, r, hs, hk⟩
  · rintro ⟨f, r, hs, hk⟩
    exact ⟨f, r, hs, hk, by rw [String.utf8ByteSize_singleton]⟩

/-- A boundary does not fall inside a character. -/
theorem CharAt.le_boundary {s : String} {k m : ℕ} {c : Char} (h : CharAt s k c)
    (hm : isCharBoundary s m = true) (hlt : k < m) : k + c.utf8Size ≤ m := by
  obtain ⟨f, r, hs, rfl⟩ := charAt_iff.mp h
  obtain ⟨f', r', hs', rfl⟩ := isCharBoundary_iff.mp hm
  have hc := congrArg String.toList (hs.symm.trans hs')
  rw [String.append_assoc, String.toList_append, String.toList_append, String.toList_append,
    List.append_eq_append_iff] at hc
  rcases hc with ⟨mo, hf, hr⟩ | ⟨mo, hf, -⟩
  · have hsi : f' = f ++ String.ofList mo := by
      rw [← String.toList_inj, hf, String.toList_append, String.toList_ofList]
    cases mo with
    | nil =>
      rw [hsi] at hlt
      simp at hlt
    | cons d mo =>
      obtain ⟨rfl, -⟩ : c = d ∧ _ := by simpa using hr
      have hco : String.ofList (c :: mo) = String.singleton c ++ String.ofList mo := by
        rw [← String.toList_inj]
        simp
      rw [hsi, hco, String.utf8ByteSize_append, String.utf8ByteSize_append,
        String.utf8ByteSize_singleton]
      omega
  · have hsi : f = f' ++ String.ofList mo := by
      rw [← String.toList_inj, hf, String.toList_append, String.toList_ofList]
    rw [hsi, String.utf8ByteSize_append] at hlt
    omega

/-- At a boundary before the end stands a character. -/
theorem exists_charAt {s : String} {k : ℕ} (hk : isCharBoundary s k = true)
    (hlt : k < (asBytes s).length) : ∃ c, CharAt s k c := by
  obtain ⟨f, r, rfl, rfl⟩ := isCharBoundary_iff.mp hk
  cases hc : r.toList with
  | nil =>
    have he : r = "" := by
      rw [← String.toList_inj, hc]
      rfl
    rw [he, String.append_empty, RustText.length_asBytes] at hlt
    omega
  | cons c chars =>
    refine ⟨c, charAt_iff.mpr ⟨f, String.ofList chars, ?_, rfl⟩⟩
    rw [String.append_assoc]
    congr 1
    rw [← String.toList_inj, hc]
    simp

/-- The bytes of a character are those of its encoding. -/
theorem CharAt.getElem? {s : String} {k d : ℕ} {c : Char} (h : CharAt s k c)
    (hd : d < c.utf8Size) : (asBytes s)[k + d]? = (String.utf8EncodeChar c)[d]? := by
  obtain ⟨f, r, rfl, rfl⟩ := charAt_iff.mp h
  have hc : asBytes (String.singleton c) = String.utf8EncodeChar c := by
    rw [String.singleton_eq_ofList, RustText.asBytes_ofList, List.flatMap_singleton]
  rw [RustText.asBytes_append, RustText.asBytes_append, List.append_assoc,
    ← RustText.length_asBytes f, List.getElem?_append_right (Nat.le_add_right _ _),
    Nat.add_sub_cancel_left, hc, List.getElem?_append_left (by simpa using hd)]

/-- The end of a character is a boundary. -/
theorem CharAt.isCharBoundary_end {s : String} {k : ℕ} {c : Char} (h : CharAt s k c) :
    isCharBoundary s (k + c.utf8Size) = true :=
  (boundaries_of_slice h).2.1

/-- The bytes behind the first of an encoding are not ASCII. -/
theorem not_ascii_of_continuation {c : Char} {d : ℕ} {b : UInt8} (hd : 0 < d)
    (h : (String.utf8EncodeChar c)[d]? = some b) : ¬b < 0x80 := by
  obtain ⟨hlt, -⟩ := List.getElem?_eq_some_iff.mp h
  rw [String.length_utf8EncodeChar] at hlt
  rcases c.utf8Size_eq with hs | hs | hs | hs
  · omega
  · obtain rfl : d = 1 := by omega
    rw [String.utf8EncodeChar_eq_cons_cons hs] at h
    rw [← Option.some.inj h]
    exact not_or_lt _ 0x80 (by decide)
  · rw [String.utf8EncodeChar_eq_cons_cons_cons hs] at h
    rcases (by omega : d = 1 ∨ d = 2) with rfl | rfl
    · rw [← Option.some.inj h]
      exact not_or_lt _ 0x80 (by decide)
    · rw [← Option.some.inj h]
      exact not_or_lt _ 0x80 (by decide)
  · rw [String.utf8EncodeChar_eq_cons_cons_cons_cons hs] at h
    rcases (by omega : d = 1 ∨ d = 2 ∨ d = 3) with rfl | rfl | rfl
    · rw [← Option.some.inj h]
      exact not_or_lt _ 0x80 (by decide)
    · rw [← Option.some.inj h]
      exact not_or_lt _ 0x80 (by decide)
    · rw [← Option.some.inj h]
      exact not_or_lt _ 0x80 (by decide)

/-- **An ASCII byte is a character of its own.** -/
theorem charAt_of_ascii {s : String} {k : ℕ} {b : UInt8} (hb : (asBytes s)[k]? = some b)
    (ha : b < 0x80) : ∃ c, CharAt s k c ∧ c.utf8Size = 1 ∧ c.toNat = b.toNat := by
  have hlt := (List.getElem?_eq_some_iff.mp hb).1
  obtain ⟨c, hc⟩ := exists_charAt (isCharBoundary_of_ascii hb ha).1 hlt
  have hf := hc.getElem? c.utf8Size_pos
  rw [Nat.add_zero, hb] at hf
  have hs := utf8Size_of_ascii hf.symm ha
  refine ⟨c, hc, hs, ?_⟩
  rw [String.utf8EncodeChar_eq_singleton hs] at hf
  have hby : b = c.val.toUInt8 := Option.some.inj hf
  have hle : c.val.toNat ≤ 127 := by
    have := Char.utf8Size_eq_one_iff.mp hs
    rwa [UInt32.le_iff_toNat_le] at this
  rw [hby, UInt32.toNat_toUInt8]
  change c.val.toNat = c.val.toNat % 2 ^ 8
  omega

/-! ## The length of a character by its first byte -/

/-- What holds of the 256 bytes holds of every byte. -/
theorem forall_uint8 (P : UInt8 → Prop) (h : ∀ n < 256, P (UInt8.ofNat n)) (b : UInt8) : P b := by
  rw [← UInt8.ofNat_toNat (x := b)]
  exact h b.toNat b.toNat_lt

theorem first_byte_two (b : UInt8) : 0x80 ≤ b &&& 0x1f ||| 0xc0 ∧ b &&& 0x1f ||| 0xc0 < 0xe0 :=
  forall_uint8 (fun b => 0x80 ≤ b &&& 0x1f ||| 0xc0 ∧ b &&& 0x1f ||| 0xc0 < 0xe0)
    (by decide +kernel) b

theorem first_byte_three (b : UInt8) : 0xe0 ≤ b &&& 0x0f ||| 0xe0 ∧ b &&& 0x0f ||| 0xe0 < 0xf0 :=
  forall_uint8 (fun b => 0xe0 ≤ b &&& 0x0f ||| 0xe0 ∧ b &&& 0x0f ||| 0xe0 < 0xf0)
    (by decide +kernel) b

theorem first_byte_four (b : UInt8) : 0xf0 ≤ b &&& 0x07 ||| 0xf0 :=
  forall_uint8 (fun b => 0xf0 ≤ b &&& 0x07 ||| 0xf0)
    (by decide +kernel) b

/-- The first byte of an encoding lies in the range of its length. -/
theorem first_byte_range {c : Char} {b : UInt8} (h : (String.utf8EncodeChar c)[0]? = some b) :
    (b < 0x80 ∧ c.utf8Size = 1) ∨ (0x80 ≤ b ∧ b < 0xe0 ∧ c.utf8Size = 2) ∨
      (0xe0 ≤ b ∧ b < 0xf0 ∧ c.utf8Size = 3) ∨ (0xf0 ≤ b ∧ c.utf8Size = 4) := by
  rcases c.utf8Size_eq with hs | hs | hs | hs
  · left
    rw [String.utf8EncodeChar_eq_singleton hs] at h
    refine ⟨?_, hs⟩
    rw [← Option.some.inj h, UInt8.lt_iff_toNat_lt, UInt32.toNat_toUInt8]
    have hle := Char.utf8Size_eq_one_iff.mp hs
    rw [UInt32.le_iff_toNat_le] at hle
    change c.val.toNat ≤ 127 at hle
    change c.val.toNat % 2 ^ 8 < 128
    omega
  · right; left
    rw [String.utf8EncodeChar_eq_cons_cons hs] at h
    rw [← Option.some.inj h]
    exact ⟨(first_byte_two _).1, (first_byte_two _).2, hs⟩
  · right; right; left
    rw [String.utf8EncodeChar_eq_cons_cons_cons hs] at h
    rw [← Option.some.inj h]
    exact ⟨(first_byte_three _).1, (first_byte_three _).2, hs⟩
  · right; right; right
    rw [String.utf8EncodeChar_eq_cons_cons_cons_cons hs] at h
    rw [← Option.some.inj h]
    exact ⟨first_byte_four _, hs⟩

/-! ## Neighbouring slices -/

/-- A text has one front of a size. -/
theorem front_unique {f r f' r' : String} (h : f ++ r = f' ++ r')
    (hs : f.utf8ByteSize = f'.utf8ByteSize) : f = f' ∧ r = r' := by
  have hb := congrArg asBytes h
  rw [RustText.asBytes_append, RustText.asBytes_append] at hb
  obtain ⟨hf, hr⟩ := List.append_inj hb
    (by rw [RustText.length_asBytes, RustText.length_asBytes, hs])
  exact ⟨RustText.asBytes_injective hf, RustText.asBytes_injective hr⟩

/-- Two slices side by side make one. -/
theorem slice_append {s t u : String} {i j k : ℕ} (ht : slice s i j = some t)
    (hu : slice s j k = some u) : slice s i k = some (t ++ u) := by
  obtain ⟨f, r, hs, hi, hj⟩ := slice_eq_some_iff.mp ht
  obtain ⟨f', r', hs', hj', hk⟩ := slice_eq_some_iff.mp hu
  rw [String.append_assoc] at hs'
  obtain ⟨hf, -⟩ := front_unique (hs'.symm.trans hs) (by rw [String.utf8ByteSize_append]; omega)
  refine slice_eq_some_iff.mpr ⟨f, r', ?_, hi, by rw [String.utf8ByteSize_append]; omega⟩
  rw [hs', hf]
  simp only [String.append_assoc]

theorem slice_self {s : String} {i : ℕ} (h : isCharBoundary s i = true) :
    slice s i i = some "" := by
  obtain ⟨f, r, rfl, rfl⟩ := isCharBoundary_iff.mp h
  exact slice_eq_some_iff.mpr ⟨f, r, by simp, rfl, by simp⟩

/-! ## Blank ranges -/

/-- The range is a slice of blanks. -/
def Blank (s : String) (start stop : ℕ) : Prop :=
  ∃ t, slice s start stop = some t ∧ ∀ c ∈ t.toList, isWhitespace c = true

theorem blank_self {s : String} {i : ℕ} (h : isCharBoundary s i = true) : Blank s i i :=
  ⟨"", slice_self h, by simp⟩

theorem Blank.le {s : String} {start sto : ℕ} (h : Blank s start sto) : start ≤ sto := by
  obtain ⟨t, ht, -⟩ := h
  have := (boundaries_of_slice ht).2.2
  omega

/-- A character in a blank range is a blank. -/
theorem Blank.charAt {s : String} {start sto k : ℕ} {c : Char} (h : Blank s start sto)
    (hc : CharAt s k c) (hs : start ≤ k) (hst : k + c.utf8Size ≤ sto) :
    isWhitespace c = true := by
  obtain ⟨t, ht, hbl⟩ := h
  obtain ⟨hf, hl, -⟩ := boundaries_of_slice ht
  obtain ⟨hk, he, -⟩ := boundaries_of_slice hc
  obtain ⟨b, hb⟩ := exists_slice hs hf hk
  obtain ⟨after, ha⟩ := exists_slice hst he hl
  have hw := slice_append (slice_append hb hc) ha
  have heq := Option.some.inj (ht.symm.trans hw)
  refine hbl c ?_
  rw [heq]
  simp

/-- An ASCII byte of a blank range is a blank. -/
theorem Blank.ascii {s : String} {start sto k : ℕ} {b : UInt8} (h : Blank s start sto)
    (hb : (asBytes s)[k]? = some b) (ha : b < 0x80) (hs : start ≤ k) (hst : k < sto) :
    ∃ c, isWhitespace c = true ∧ c.toNat = b.toNat := by
  obtain ⟨c, hc, hsi, hco⟩ := charAt_of_ascii hb ha
  exact ⟨c, h.charAt hc hs (by omega), hco⟩

/-- Blanks only are trimmed away. -/
theorem blanks_of_trim_eq_empty {t : String} (h : trim t = "") :
    ∀ c ∈ t.toList, isWhitespace c = true := by
  have hch := congrArg String.toList h
  rw [trim, String.toList_ofList] at hch
  change _ = [] at hch
  rw [List.rdropWhile_eq_nil_iff] at hch
  intro c hc
  rw [← List.takeWhile_append_dropWhile (p := isWhitespace) (l := t.toList)] at hc
  rcases List.mem_append.mp hc with hf | hr
  · exact List.mem_takeWhile_imp hf
  · exact hch c hr

/-- A text is its trimmed form between blanks. -/
theorem exists_trim (t : String) : ∃ b after, t = b ++ trimStart t ∧ trimStart t = trim t ++ after ∧
      (∀ c ∈ b.toList, isWhitespace c = true) ∧
      ∀ c ∈ after.toList, isWhitespace c = true := by
  refine ⟨String.ofList (t.toList.takeWhile isWhitespace),
    String.ofList ((t.toList.dropWhile isWhitespace).reverse.takeWhile isWhitespace).reverse,
    ?_, ?_, ?_, ?_⟩
  · rw [trimStart, ← String.ofList_append, List.takeWhile_append_dropWhile, String.ofList_toList]
  · rw [trimStart, trim, ← String.ofList_append, List.rdropWhile, ← List.reverse_append,
      List.takeWhile_append_dropWhile, List.reverse_reverse]
  · intro c hc
    rw [String.toList_ofList] at hc
    exact List.mem_takeWhile_imp hc
  · intro c hc
    rw [String.toList_ofList, List.mem_reverse] at hc
    exact List.mem_takeWhile_imp hc

/-- What `trim_start` drops is blank. -/
theorem blank_trimStart {s t : String} {start sto : ℕ} (h : slice s start sto = some t) :
    Blank s start (sto - (trimStart t).utf8ByteSize) := by
  obtain ⟨b, after, ht, -, hb, -⟩ := exists_trim t
  obtain ⟨f, r, hs, hst, hsto⟩ := slice_eq_some_iff.mp h
  have hsi := congrArg String.utf8ByteSize ht
  rw [String.utf8ByteSize_append] at hsi
  refine ⟨b, slice_eq_some_iff.mpr ⟨f, trimStart t ++ r, ?_, hst, by omega⟩, hb⟩
  rw [hs]
  nth_rewrite 1 [ht]
  simp only [String.append_assoc]

/-- **Trimming a slice takes off blanks at both ends.** -/
theorem trim_slice {s p : String} {start sto : ℕ} (h : slice s start sto = some p) :
    ∃ first l, first = start + (p.utf8ByteSize - (trimStart p).utf8ByteSize) ∧
      l = first + (trim p).utf8ByteSize ∧ Blank s start first ∧
      slice s first l = some (trim p) ∧ Blank s l sto := by
  obtain ⟨b, after, hp, hst', hb, ha⟩ := exists_trim p
  obtain ⟨f, r, hs, hst, hsto⟩ := slice_eq_some_iff.mp h
  have hsi := congrArg String.utf8ByteSize hp
  have hsi' := congrArg String.utf8ByteSize hst'
  rw [String.utf8ByteSize_append] at hsi hsi'
  have hs' : s = f ++ b ++ trim p ++ after ++ r := by
    rw [hs]
    nth_rewrite 1 [hp]
    rw [hst']
    simp only [String.append_assoc]
  refine ⟨_, _, rfl, rfl, ⟨b, slice_eq_some_iff.mpr ?_, hb⟩,
    slice_eq_some_iff.mpr ?_, ⟨after, slice_eq_some_iff.mpr ?_, ha⟩⟩
  · refine ⟨f, trim p ++ after ++ r, ?_, hst, by omega⟩
    rw [hs']
    simp only [String.append_assoc]
  · refine ⟨f ++ b, after ++ r, ?_, ?_, rfl⟩
    · rw [hs']
      simp only [String.append_assoc]
    · rw [String.utf8ByteSize_append]
      omega
  · refine ⟨f ++ b ++ trim p, r, hs', ?_, by omega⟩
    rw [String.utf8ByteSize_append, String.utf8ByteSize_append]
    omega

end Utf8Slice
