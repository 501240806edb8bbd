/-
# Byte ranges of a text

Texts of systems languages are UTF-8 bytes: positions count bytes, a range may only be
taken between character boundaries, and scanners walk over the bytes.  A slice is `none`
where taking it would panic.  The rules say where boundaries are: around every ASCII byte,
at the ends of the text, and where a slice was trimmed.
-/
import EideticEngine.TextScan

namespace Utf8Slice

open RustText (asBytes fromUtf8 isWhitespace trim)

/-! ## Boundaries and slices -/

/-- `str::is_char_boundary`. -/
def isCharBoundary (s : String) (i : ℕ) : Bool := String.Pos.Raw.isValid s ⟨i⟩

/-- `str::get(start..stop)`; indexing with the range panics where this is `none`. -/
def slice (s : String) (start stop : ℕ) : Option String :=
  if start ≤ stop ∧ isCharBoundary s start ∧ isCharBoundary s stop then
    fromUtf8 (((asBytes s).drop start).take (stop - start))
  else none

/-- `str::trim_start`. -/
def trimStart (s : String) : String := String.ofList (s.toList.dropWhile isWhitespace)

/-- A boundary is where the text splits in two. -/
theorem isCharBoundary_iff {s : String} {i : ℕ} :
    isCharBoundary s i = true ↔ ∃ f r, s = f ++ r ∧ i = f.utf8ByteSize := by
  rw [isCharBoundary, String.Pos.Raw.isValid_eq_true_iff, String.Pos.Raw.isValid_iff_exists_append]
  simp only [String.Pos.Raw.ext_iff, String.byteIdx_rawEndPos]

theorem isCharBoundary_zero (s : String) : isCharBoundary s 0 = true :=
  isCharBoundary_iff.mpr ⟨"", s, by simp, by simp⟩

theorem isCharBoundary_length (s : String) : isCharBoundary s (asBytes s).length = true :=
  isCharBoundary_iff.mpr ⟨s, "", by simp, rfl⟩

theorem isCharBoundary_le {s : String} {i : ℕ} (h : isCharBoundary s i = true) :
    i ≤ (asBytes s).length := by
  obtain ⟨f, r, rfl, rfl⟩ := isCharBoundary_iff.mp h
  rw [RustText.length_asBytes, String.utf8ByteSize_append]
  exact Nat.le_add_right _ _

/-- Two boundaries in order split the text in three. -/
theorem exists_split {s : String} {start stop : ℕ} (hle : start ≤ stop)
    (hst : isCharBoundary s start = true) (hsto : isCharBoundary s stop = true) :
    ∃ f pa r, s = f ++ pa ++ r ∧ start = f.utf8ByteSize ∧ stop = start + pa.utf8ByteSize := by
  obtain ⟨f, r, rfl, rfl⟩ := isCharBoundary_iff.mp hst
  obtain ⟨l, la, hs, rfl⟩ := isCharBoundary_iff.mp hsto
  have hc := congrArg String.toList hs
  rw [String.toList_append, String.toList_append, List.append_eq_append_iff] at hc
  rcases hc with ⟨pa, hl, hr⟩ | ⟨pa, hf, hla⟩
  · have hl' : l = f ++ String.ofList pa := by
      rw [← String.toList_inj, hl, String.toList_append, String.toList_ofList]
    refine ⟨f, String.ofList pa, la, ?_, rfl, ?_⟩
    · rw [hs, hl']
    · rw [hl', String.utf8ByteSize_append]
  · -- The boundaries are one and the same.
    have hf' : f = l ++ String.ofList pa := by
      rw [← String.toList_inj, hf, String.toList_append, String.toList_ofList]
    rw [hf', String.utf8ByteSize_append] at hle
    refine ⟨f, "", r, by simp, rfl, ?_⟩
    rw [hf', String.utf8ByteSize_append, String.utf8ByteSize_empty]
    omega

/-- The bytes between two boundaries. -/
theorem bytes_between (f pa r : String) :
    (((asBytes (f ++ pa ++ r)).drop f.utf8ByteSize).take pa.utf8ByteSize) = asBytes pa := by
  rw [RustText.asBytes_append, RustText.asBytes_append, List.append_assoc,
    ← RustText.length_asBytes f, List.drop_left, ← RustText.length_asBytes pa,
    List.take_left]

/-- **A slice is a part of the text at its place.** -/
theorem slice_eq_some_iff {s t : String} {start stop : ℕ} : slice s start stop = some t ↔
      ∃ f r, s = f ++ t ++ r ∧ start = f.utf8ByteSize ∧ stop = start + t.utf8ByteSize := by
  constructor
  · intro h
    unfold slice at h
    split at h
    · rename_i hg
      obtain ⟨hle, hs, hst⟩ := hg
      obtain ⟨f, pa, r, rfl, rfl, rfl⟩ := exists_split hle hs hst
      rw [Nat.add_sub_cancel_left, bytes_between, RustText.fromUtf8_asBytes] at h
      obtain rfl := Option.some.inj h
      exact ⟨f, r, rfl, rfl, rfl⟩
    · exact absurd h (Option.some_ne_none t).symm
  · rintro ⟨f, r, rfl, rfl, rfl⟩
    have hs : isCharBoundary (f ++ t ++ r) f.utf8ByteSize = true :=
      isCharBoundary_iff.mpr ⟨f, t ++ r, String.append_assoc, rfl⟩
    have hst : isCharBoundary (f ++ t ++ r) (f.utf8ByteSize + t.utf8ByteSize) = true :=
      isCharBoundary_iff.mpr ⟨f ++ t, r, rfl, (String.utf8ByteSize_append ..).symm⟩
    rw [slice, if_pos ⟨Nat.le_add_right _ _, hs, hst⟩, Nat.add_sub_cancel_left,
      bytes_between, RustText.fromUtf8_asBytes]

/-- Between boundaries in order there is a slice. -/
theorem exists_slice {s : String} {start stop : ℕ} (hle : start ≤ stop)
    (hst : isCharBoundary s start = true) (hsto : isCharBoundary s stop = true) :
    ∃ t, slice s start stop = some t := by
  obtain ⟨f, pa, r, hs, hf, hp⟩ := exists_split hle hst hsto
  exact ⟨pa, slice_eq_some_iff.mpr ⟨f, r, hs, hf, hp⟩⟩

/-- A slice of a slice, with both positions moved. -/
theorem slice_slice {s t u : String} {start stop i j : ℕ} (ht : slice s start stop = some t)
    (hu : slice t i j = some u) : slice s (start + i) (start + j) = some u := by
  obtain ⟨f, r, rfl, rfl, -⟩ := slice_eq_some_iff.mp ht
  obtain ⟨f', r', rfl, rfl, rfl⟩ := slice_eq_some_iff.mp hu
  refine slice_eq_some_iff.mpr ⟨f ++ f', r' ++ r, ?_, ?_, ?_⟩
  · simp only [String.append_assoc]
  · rw [String.utf8ByteSize_append]
  · omega

/-- Where a slice starts and ends there are boundaries. -/
theorem boundaries_of_slice {s t : String} {start stop : ℕ} (h : slice s start stop = some t) :
    isCharBoundary s start = true ∧ isCharBoundary s stop = true ∧
      stop = start + t.utf8ByteSize := by
  obtain ⟨f, r, rfl, rfl, rfl⟩ := slice_eq_some_iff.mp h
  refine ⟨isCharBoundary_iff.mpr ⟨f, t ++ r, String.append_assoc, rfl⟩, ?_, rfl⟩
  exact isCharBoundary_iff.mpr ⟨f ++ t, r, rfl, (String.utf8ByteSize_append ..).symm⟩

/-! ## ASCII bytes -/

/-- A byte of the text and the text split before it. -/
theorem isCharBoundary_of_firstByte {s : String} {i : ℕ} {b : UInt8}
    (hb : (asBytes s)[i]? = some b) (hf : b.IsUTF8FirstByte) : isCharBoundary s i = true := by
  rw [isCharBoundary, String.Pos.Raw.isValid_eq_true_iff,
    String.Pos.Raw.isValid_iff_isUTF8FirstByte]
  obtain ⟨hlt, hg⟩ := List.getElem?_eq_some_iff.mp hb
  refine Or.inr ⟨?_, ?_⟩
  · rw [String.Pos.Raw.lt_iff, String.byteIdx_rawEndPos]
    exact hlt
  · have hby : s.getUTF8Byte ⟨i⟩ _ = b := hg
    rw [hby]
    exact hf

theorem not_or_lt (b h : UInt8) (hh : 0x80 ≤ h) : ¬ (b ||| h < 0x80) := by
  rw [UInt8.lt_iff_toNat_lt, UInt8.toNat_or, not_lt]
  exact (UInt8.le_iff_toNat_le.mp hh).trans Nat.right_le_or

/-- The character whose encoding starts with an ASCII byte is one byte long. -/
theorem utf8Size_of_ascii {c : Char} {b : UInt8} (h : (String.utf8EncodeChar c)[0]? = some b)
    (hb : b < 0x80) : c.utf8Size = 1 := by
  have hp := c.utf8Size_pos
  have hle := c.utf8Size_le_four
  by_contra hne
  -- The first byte of a longer encoding has its top bits set.
  rcases (by omega : c.utf8Size = 2 ∨ c.utf8Size = 3 ∨ c.utf8Size = 4) with hs | hs | hs
  · rw [String.utf8EncodeChar_eq_cons_cons hs, List.getElem?_cons_zero] at h
    rw [← Option.some.inj h] at hb
    exact not_or_lt _ 0xc0 (by decide) hb
  · rw [String.utf8EncodeChar_eq_cons_cons_cons hs, List.getElem?_cons_zero] at h
    rw [← Option.some.inj h] at hb
    exact not_or_lt _ 0xe0 (by decide) hb
  · rw [String.utf8EncodeChar_eq_cons_cons_cons_cons hs, List.getElem?_cons_zero] at h
    rw [← Option.some.inj h] at hb
    exact not_or_lt _ 0xf0 (by decide) hb

theorem isUTF8FirstByte_of_ascii {b : UInt8} (hb : b < 0x80) : b.IsUTF8FirstByte := by
  have ha : ∀ n < 128, (UInt8.ofNat n).IsUTF8FirstByte := by decide
  have hlt : b.toNat < 128 := UInt8.lt_iff_toNat_lt.mp hb
  rw [← UInt8.ofNat_toNat (x := b)]
  exact ha b.toNat hlt

/-- **There are boundaries on both sides of an ASCII byte.** -/
theorem isCharBoundary_of_ascii {s : String} {i : ℕ} {b : UInt8}
    (h : (asBytes s)[i]? = some b) (hb : b < 0x80) :
    isCharBoundary s i = true ∧ isCharBoundary s (i + 1) = true := by
  have hi := isCharBoundary_of_firstByte h (isUTF8FirstByte_of_ascii hb)
  refine ⟨hi, ?_⟩
  obtain ⟨f, r, rfl, rfl⟩ := isCharBoundary_iff.mp hi
  rw [RustText.asBytes_append, ← RustText.length_asBytes f,
    List.getElem?_append_right (Nat.le_refl _), Nat.sub_self] at h
  -- The byte starts the encoding of the next character, which is no longer than it.
  cases hch : r.toList with
  | nil =>
    have he : r = "" := by
      rw [← String.toList_inj, hch]
      rfl
    have hn : (asBytes "")[0]? = none := rfl
    rw [he, hn] at h
    exact absurd h (Option.some_ne_none b).symm
  | cons c chars =>
    have hr : r = String.ofList [c] ++ String.ofList chars := by
      rw [← String.ofList_append, ← String.toList_inj, hch, String.toList_ofList]
      rfl
    have hc : c.utf8Size = 1 := by
      refine utf8Size_of_ascii ?_ hb
      rw [hr, RustText.asBytes_append, RustText.asBytes_ofList] at h
      rw [List.flatMap_singleton, List.getElem?_append_left] at h
      · exact h
      · rw [String.length_utf8EncodeChar]
        exact c.utf8Size_pos
    refine isCharBoundary_iff.mpr ⟨f ++ String.ofList [c], String.ofList chars, ?_, ?_⟩
    · rw [hr, String.append_assoc]
    · rw [String.utf8ByteSize_append, ← String.singleton_eq_ofList, String.utf8ByteSize_singleton,
        hc]

/-! ## Scanning bytes -/

/-- `while i < stop && p(bytes[i]) { i += 1 }`. -/
def scanWhile (p : UInt8 → Bool) (bytes : List UInt8) (stop i : ℕ) : ℕ :=
  i + (((bytes.take stop).drop i).takeWhile p).length

variable {p : UInt8 → Bool} {bytes : List UInt8} {stop i : ℕ}

theorem le_scanWhile : i ≤ scanWhile p bytes stop i := Nat.le_add_right _ _

theorem scanWhile_le (hi : i ≤ stop) : scanWhile p bytes stop i ≤ stop := by
  have hl := (List.takeWhile_prefix p (l := (bytes.take stop).drop i)).length_le
  rw [List.length_drop, List.length_take] at hl
  unfold scanWhile
  omega

/-- The bytes of the scanned window are those of the text. -/
theorem getElem?_window {j : ℕ} (hi : i ≤ j) (hj : j < stop) :
    ((bytes.take stop).drop i)[j - i]? = bytes[j]? := by
  rw [List.getElem?_drop, Nat.add_sub_cancel' hi, List.getElem?_take_of_lt hj]

/-- A scan passes over bytes that satisfy its condition. -/
theorem scanWhile_passes {j : ℕ} (hi : i ≤ j) (hj : j < scanWhile p bytes stop i) :
    ∃ b, bytes[j]? = some b ∧ p b = true := by
  unfold scanWhile at hj
  have hlt : j - i < (((bytes.take stop).drop i).takeWhile p).length := by omega
  have hp := List.takeWhile_prefix p (l := (bytes.take stop).drop i)
  have hl := hp.length_le
  rw [List.length_drop, List.length_take] at hl
  refine ⟨_, ?_, List.mem_takeWhile_imp (List.getElem_mem hlt)⟩
  rw [← getElem?_window hi (by omega : j < stop), hp.getElem hlt]
  exact List.getElem?_eq_getElem _

/-- A scan that may pass its first byte does. -/
theorem lt_scanWhile {b : UInt8} (hi : i < stop) (hb : bytes[i]? = some b) (hp : p b = true) :
    i < scanWhile p bytes stop i := by
  have hw : ((bytes.take stop).drop i)[0]? = some b := by
    rw [← hb, ← getElem?_window (Nat.le_refl i) hi, Nat.sub_self]
  cases hd : (bytes.take stop).drop i with
  | nil =>
    rw [hd] at hw
    exact absurd hw (by simp)
  | cons x r =>
    rw [hd, List.getElem?_cons_zero, Option.some.injEq] at hw
    rw [scanWhile, hd, List.takeWhile_cons_of_pos (by rw [hw]; exact hp), List.length_cons]
    omega

/-- A scan that ends before its limit ends at a byte that does not satisfy the condition. -/
theorem scanWhile_stops (hst : stop ≤ bytes.length) (hlt : scanWhile p bytes stop i < stop) :
    ∃ b, bytes[scanWhile p bytes stop i]? = some b ∧ p b = false := by
  have hs := List.takeWhile_append_dropWhile (p := p) (l := (bytes.take stop).drop i)
  have hw := @getElem?_window bytes _ _ _ le_scanWhile hlt
  rw [← hs, scanWhile, Nat.add_sub_cancel_left, List.getElem?_append_right (Nat.le_refl _),
    Nat.sub_self] at hw
  rw [scanWhile, ← hw]
  have hne : ((bytes.take stop).drop i).dropWhile p ≠ [] := by
    intro hn
    have hl := congrArg List.length hs
    rw [hn, List.append_nil, List.length_drop, List.length_take] at hl
    unfold scanWhile at hlt
    omega
  obtain ⟨b, r, hc⟩ := List.exists_cons_of_ne_nil hne
  refine ⟨b, by rw [hc]; rfl, ?_⟩
  have hh := List.head?_dropWhile_not p ((bytes.take stop).drop i)
  rw [hc] at hh
  exact hh

end Utf8Slice
