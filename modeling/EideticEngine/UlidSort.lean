/-
# Sorting by ULID payload (`src/util/radix_ulid_sort.rs`)

Keys that end in a canonical ULID payload are sorted by counting passes over the 26 digits and
a repair of the runs with equal payloads; a list with any other key falls back to a comparison
sort.  The comparison puts canonical keys first, by payload and then by text, and all other
keys after them by text; both ways compute its stable sort.
-/
import EideticEngine.TextOrder
import EideticEngine.StableSort

namespace UlidSort

open RustText StableSort

/-! ## Keys and payloads -/

/-- `ULID_PAYLOAD_LEN`. -/
def ulidPayloadLen : ℕ := 26

/-- `RADIX`. -/
def radix : ℕ := 32

/-- `RadixUlidSortErrorKind`. -/
inductive RadixUlidSortErrorKind where
  | missingPayload
  | invalidDigit (offset : ℕ) (byte : UInt8)
  | invalidLeadingDigit (byte : UInt8)
  deriving DecidableEq, Repr

/-- `RadixUlidSortError`. -/
structure RadixUlidSortError where
  index : ℕ
  key : String
  kind : RadixUlidSortErrorKind
  deriving DecidableEq, Repr

/-- `digit_value_checked`. -/
def digitValueChecked (byte : UInt8) : Option ℕ :=
  let b := byte.toNat
  if 48 ≤ b ∧ b ≤ 57 then some (b - 48)
  else if 65 ≤ b ∧ b ≤ 72 then some (b - 65 + 10)
  else if 74 ≤ b ∧ b ≤ 75 then some (b - 74 + 18)
  else if 77 ≤ b ∧ b ≤ 78 then some (b - 77 + 20)
  else if 80 ≤ b ∧ b ≤ 84 then some (b - 80 + 22)
  else if 86 ≤ b ∧ b ≤ 90 then some (b - 86 + 27)
  else none

/-- `digit_value`. -/
def digitValue (byte : UInt8) : ℕ :=
  (digitValueChecked byte).getD 0

/-- `payload_offset_opt`: a bare payload, or one after an underscore. -/
def payloadOffsetOpt (key : String) : Option ℕ :=
  let bytes := asBytes key
  if bytes.length = ulidPayloadLen then some 0
  else if bytes.length < ulidPayloadLen then none
  else
    let offset := bytes.length - ulidPayloadLen
    if offset > 0 ∧ bytes[offset - 1]? = some 95 then some offset else none

/-- The digit loop of `validate_payload_key`, from `position` on. -/
def checkPayload (index : ℕ) (key : String) : ℕ → List UInt8 → Except RadixUlidSortError Unit
  | _, [] => .ok ()
  | position, byte :: rest =>
    match digitValueChecked byte with
    | none => .error ⟨index, key, .invalidDigit position byte⟩
    | some value =>
      if position = 0 ∧ value > 7 then .error ⟨index, key, .invalidLeadingDigit byte⟩
      else checkPayload index key (position + 1) rest

/-- `validate_payload_key`. -/
def validatePayloadKey (index : ℕ) (key : String) : Except RadixUlidSortError ℕ :=
  match payloadOffsetOpt key with
  | none => .error ⟨index, key, .missingPayload⟩
  | some offset =>
    match checkPayload index key 0 (((asBytes key).drop offset).take ulidPayloadLen) with
    | .error e => .error e
    | .ok () => .ok offset

/-- The digit of a key at a position of its payload. -/
def digitAt (key : String) (offset position : ℕ) : ℕ :=
  digitValue ((asBytes key).getD (offset + position) 0)

/-! ## The comparison -/

/-- `compare_validated_payloads`: the first digit that differs decides. -/
def compareValidatedPayloads (left : String) (leftOffset : ℕ) (right : String)
    (rightOffset : ℕ) : Ordering :=
  (List.range ulidPayloadLen).foldr (fun position rest =>
    (compare (digitAt left leftOffset position) (digitAt right rightOffset position)).then rest)
    .eq

/-- `compare_ulid_payload_or_lexical`. -/
def compareUlidPayloadOrLexical (left right : String) : Ordering :=
  match validatePayloadKey 0 left, validatePayloadKey 1 right with
  | .ok leftOffset, .ok rightOffset =>
    (compareValidatedPayloads left leftOffset right rightOffset).then (strCmp left right)
  | .error _, .error _ => strCmp left right
  | .ok _, .error _ => .lt
  | .error _, .ok _ => .gt

/-! ## The sorts -/

section Sorts

variable {α : Type} (key : α → String)

/-- The digit of a row at a position of its payload. -/
def rowDigit (position : ℕ) (row : α × ℕ) : ℕ :=
  digitAt (key row.1) row.2 position

/-- `sort_equal_payload_runs_by_full_key`. -/
def sortEqualPayloadRunsByFullKey (rows : List (α × ℕ)) : List (α × ℕ) :=
  sortRuns (fun a b => compareValidatedPayloads (key a.1) a.2 (key b.1) b.2)
    (fun a b => strCmp (key a.1) (key b.1)) rows

/-- The offsets of all keys, or the first key that fails; `index` counts the items before. -/
def payloadOffsets : ℕ → List α → Except RadixUlidSortError (List ℕ)
  | _, [] => .ok []
  | index, item :: items =>
    match validatePayloadKey index (key item) with
    | .error e => .error e
    | .ok offset =>
      match payloadOffsets (index + 1) items with
      | .error e => .error e
      | .ok offsets => .ok (offset :: offsets)

/-- `sort_by_ulid_payload`: the list afterwards and the result. -/
def sortByUlidPayload (items : List α) : List α × Except RadixUlidSortError Unit :=
  match payloadOffsets key 0 items with
  | .error e => (items, .error e)
  | .ok offsets =>
    let rows := (List.range ulidPayloadLen).reverse.foldl
      (fun rows position => countingPass radix (rowDigit key position) rows) (items.zip offsets)
    ((sortEqualPayloadRunsByFullKey key rows).map Prod.fst, .ok ())

/-- `sort_by_ulid_payload_or_lexical`: the list afterwards. -/
def sortByUlidPayloadOrLexical (items : List α) : List α :=
  if items.zipIdx.all fun item => (validatePayloadKey item.2 (key item.1)).isOk then
    (sortByUlidPayload key items).1
  else sortBy (fun left right => compareUlidPayloadOrLexical (key left) (key right)) items

end Sorts

/-! ## Which keys are canonical -/

/-- The payload offset of a canonical key. -/
def canonicalOffset (key : String) : Option ℕ :=
  (validatePayloadKey 0 key).toOption

/-- Whether a payload passes does not depend on the index it is reported under. -/
theorem checkPayload_isOk (index i' : ℕ) (key : String) (position : ℕ) (bytes : List UInt8) :
    (checkPayload index key position bytes).isOk = (checkPayload i' key position bytes).isOk := by
  induction bytes generalizing position with
  | nil => rfl
  | cons b r ih =>
    unfold checkPayload
    cases digitValueChecked b with
    | none => rfl
    | some value =>
      simp only
      split
      · rfl
      · exact ih (position + 1)

theorem validatePayloadKey_toOption (index : ℕ) (key : String) :
    (validatePayloadKey index key).toOption = canonicalOffset key := by
  unfold canonicalOffset validatePayloadKey
  cases payloadOffsetOpt key with
  | none => rfl
  | some o =>
    have hc := checkPayload_isOk index 0 key 0 (((asBytes key).drop o).take ulidPayloadLen)
    simp only
    cases hl : checkPayload index key 0 (((asBytes key).drop o).take ulidPayloadLen) <;>
      cases hr : checkPayload 0 key 0 (((asBytes key).drop o).take ulidPayloadLen) <;>
        simp_all [Except.isOk, Except.toBool, Except.toOption]

/-! ## The comparison is a total order -/

/-- Canonical keys come first. -/
def keyClass (key : String) : ℕ :=
  if (canonicalOffset key).isSome then 0 else 1

/-- The digits of a canonical key. -/
def payloadDigits (key : String) : List ℕ :=
  match canonicalOffset key with
  | none => []
  | some offset => (List.range ulidPayloadLen).map (digitAt key offset)

theorem compareValidatedPayloads_eq (left right : String) (lo ro : ℕ) :
    compareValidatedPayloads left lo right ro
      = compare ((List.range ulidPayloadLen).map (digitAt left lo))
          ((List.range ulidPayloadLen).map (digitAt right ro)) :=
  compareDigits_eq (fun position (row : String × ℕ) => digitAt row.1 row.2 position) _
    (left, lo) (right, ro)

/-- The comparison as a lexicographic one: the class, the payload, the text. -/
theorem compareUlidPayloadOrLexical_eq : compareUlidPayloadOrLexical
      = compareLex (compareOn keyClass) (compareLex (compareOn payloadDigits) strCmp) := by
  funext left right
  have hle := validatePayloadKey_toOption 0 left
  have hri := validatePayloadKey_toOption 1 right
  unfold compareUlidPayloadOrLexical compareLex compareOn keyClass payloadDigits
  cases hl : validatePayloadKey 0 left with
  | ok lo =>
    rw [hl, Except.toOption] at hle
    cases hr : validatePayloadKey 1 right with
    | ok ro =>
      rw [hr, Except.toOption] at hri
      simp only [← hle, ← hri, Option.isSome_some, if_true, compareValidatedPayloads_eq]
      rfl
    | error e =>
      rw [hr, Except.toOption] at hri
      simp only [← hle, ← hri]
      rfl
  | error e =>
    rw [hl, Except.toOption] at hle
    cases hr : validatePayloadKey 1 right with
    | ok ro =>
      rw [hr, Except.toOption] at hri
      simp only [← hle, ← hri]
      rfl
    | error e =>
      rw [hr, Except.toOption] at hri
      simp only [← hle, ← hri]
      rfl

instance : Std.TransCmp compareUlidPayloadOrLexical := by
  rw [compareUlidPayloadOrLexical_eq]
  infer_instance

instance : Std.LawfulEqCmp compareUlidPayloadOrLexical where
  compare_self := Std.ReflCmp.compare_self
  eq_of_compare h := by
    rw [compareUlidPayloadOrLexical_eq, compareLex_eq_eq, compareLex_eq_eq] at h
    exact Std.LawfulEqCmp.eq_of_compare h.2.2

/-! ## The radix path -/

theorem digitValue_lt (b : UInt8) : digitValue b < radix := by
  unfold digitValue digitValueChecked radix
  simp only
  split_ifs <;> simp <;> omega

section Sorts

variable {α : Type} {key : α → String}

/-- When every key is canonical, the offsets are those of the keys. -/
theorem payloadOffsets_eq_ok {items : List α}
    (hv : ∀ it ∈ items, (canonicalOffset (key it)).isSome) (index : ℕ) :
    payloadOffsets key index items
      = .ok (items.map fun it => (canonicalOffset (key it)).getD 0) := by
  induction items generalizing index with
  | nil => rfl
  | cons it items ih =>
    have hi := hv it List.mem_cons_self
    rw [← validatePayloadKey_toOption index] at hi
    unfold payloadOffsets
    rw [ih fun other hot => hv other (List.mem_cons_of_mem _ hot)]
    cases hc : validatePayloadKey index (key it) with
    | error e => simp [hc, Except.toOption] at hi
    | ok o =>
      have ho := validatePayloadKey_toOption index (key it)
      rw [hc, Except.toOption] at ho
      simp [← ho]

/-- Offsets are found only when every key is canonical. -/
theorem canonical_of_payloadOffsets {items : List α} {index : ℕ} {os : List ℕ}
    (h : payloadOffsets key index items = .ok os) :
    ∀ it ∈ items, (canonicalOffset (key it)).isSome := by
  induction items generalizing index os with
  | nil => simp
  | cons it items ih =>
    have ho := validatePayloadKey_toOption index (key it)
    unfold payloadOffsets at h
    split at h
    · cases h
    · rename_i o hc
      rw [hc] at ho
      split at h
      · cases h
      · rename_i r hr
        intro other hot
        rcases List.mem_cons.mp hot with rfl | hin
        · rw [← ho]
          rfl
        · exact ih hr other hin

/-- An error names the key it is about. -/
theorem validatePayloadKey_error {index : ℕ} {text : String} {e : RadixUlidSortError}
    (h : validatePayloadKey index text = .error e) : e.index = index ∧ e.key = text := by
  have hc : ∀ (bytes : List UInt8) (position : ℕ),
      checkPayload index text position bytes = .error e → e.index = index ∧ e.key = text := by
    intro bytes
    induction bytes with
    | nil => intro position h; cases h
    | cons b r ih =>
      intro position h
      unfold checkPayload at h
      cases hd : digitValueChecked b with
      | none =>
        rw [hd] at h
        cases h
        exact ⟨rfl, rfl⟩
      | some value =>
        rw [hd] at h
        simp only at h
        split at h
        · cases h
          exact ⟨rfl, rfl⟩
        · exact ih _ h
  unfold validatePayloadKey at h
  cases ho : payloadOffsetOpt text with
  | none =>
    rw [ho] at h
    cases h
    exact ⟨rfl, rfl⟩
  | some o =>
    rw [ho] at h
    simp only at h
    split at h
    · rename_i e' he
      cases h
      exact hc _ _ he
    · cases h

/-- The first key that is not canonical is the one that is reported. -/
theorem payloadOffsets_eq_error {items : List α} {index : ℕ} {e : RadixUlidSortError}
    (h : payloadOffsets key index items = .error e) :
    ∃ i it, items[i]? = some it ∧ canonicalOffset (key it) = none ∧
      e.index = index + i ∧ e.key = key it ∧
      ∀ j < i, ∀ other, items[j]? = some other → (canonicalOffset (key other)).isSome := by
  induction items generalizing index with
  | nil => cases h
  | cons it items ih =>
    have ho := validatePayloadKey_toOption index (key it)
    unfold payloadOffsets at h
    cases hc : validatePayloadKey index (key it) with
    | error e' =>
      rw [hc] at h ho
      cases h
      obtain ⟨hi, hk⟩ := validatePayloadKey_error hc
      exact ⟨0, it, rfl, ho.symm, hi, hk, fun j hj => absurd hj (Nat.not_lt_zero j)⟩
    | ok o =>
      rw [hc] at h ho
      simp only at h
      split at h
      · rename_i e' he
        cases h
        obtain ⟨i, bad, hba, hn, hi, hk, hb⟩ := ih he
        refine ⟨i + 1, bad, hba, hn, by omega, hk, ?_⟩
        intro j hj other hot
        cases j with
        | zero =>
          rw [List.getElem?_cons_zero, Option.some.injEq] at hot
          rw [← hot, ← ho]
          rfl
        | succ j => exact hb j (by omega) other hot
      · cases h

/-- **The radix path** computes the stable sort by the comparison. -/
theorem isStableSort_sortByUlidPayload {items : List α}
    (hv : ∀ it ∈ items, (canonicalOffset (key it)).isSome) :
    IsStableSort (fun a b => compareUlidPayloadOrLexical (key a) (key b)) items
      (sortByUlidPayload key items).1 := by
  have hz : ∀ l : List α, l.zip (l.map fun it => (canonicalOffset (key it)).getD 0)
      = l.map fun it => (it, (canonicalOffset (key it)).getD 0) := by
    intro l
    induction l with
    | nil => rfl
    | cons it l ih => simp [ih]
  unfold sortByUlidPayload
  rw [payloadOffsets_eq_ok hv]
  simp only [hz]
  -- the passes sort the rows by payload, the runs are then sorted by text
  have hd : ∀ p, ∀ row ∈ items.map fun it => (it, (canonicalOffset (key it)).getD 0),
      rowDigit key p row < radix := fun _ _ _ => digitValue_lt _
  have hp := isStableSort_radix hd (List.range ulidPayloadLen)
  have ht : Std.TransCmp fun a b : α × ℕ => strCmp (key a.1) (key b.1) :=
    ComparisonSort.transCmp_on fun row : α × ℕ => key row.1
  have hru := @isStableSort_sortRuns _ _ (fun a b : α × ℕ => strCmp (key a.1) (key b.1)) _ _ _
    hp.sorted
  have hor : Std.TransCmp fun a b : α × ℕ => compareUlidPayloadOrLexical (key a.1) (key b.1) :=
    ComparisonSort.transCmp_on fun row : α × ℕ => key row.1
  have hbo := @IsStableSort.congr _ _
    (fun a b => compareUlidPayloadOrLexical (key a.1) (key b.1)) _ _ _ _
    (hp.refine hru) ?_
  · exact hbo.of_decorated (fun _ => rfl) (fun _ _ => rfl) fun row hr => hbo.mem_iff.mp hr
  · intro row hr r' hr'
    obtain ⟨a, ha, rfl⟩ := List.mem_map.mp hr
    obtain ⟨b, hb, rfl⟩ := List.mem_map.mp hr'
    obtain ⟨o, ho⟩ := Option.isSome_iff_exists.mp (hv a ha)
    obtain ⟨o', ho'⟩ := Option.isSome_iff_exists.mp (hv b hb)
    rw [compareDigits_eq, compareUlidPayloadOrLexical_eq]
    simp only [compareLex, compareOn, keyClass, payloadDigits, ho, ho',
      Option.isSome_some, if_true, Option.getD_some]
    rfl

/-- The strict sort of canonical keys. -/
theorem sortByUlidPayload_eq {items : List α}
    (hv : ∀ it ∈ items, (canonicalOffset (key it)).isSome) :
    sortByUlidPayload key items
      = (sortBy (fun a b => compareUlidPayloadOrLexical (key a) (key b)) items, .ok ()) := by
  have ho : Std.TransCmp fun a b => compareUlidPayloadOrLexical (key a) (key b) :=
    ComparisonSort.transCmp_on key
  refine Prod.ext ((isStableSort_sortByUlidPayload hv).unique (isStableSort_sortBy items)) ?_
  unfold sortByUlidPayload
  rw [payloadOffsets_eq_ok hv]

/-- The sort is the stable sort by the comparison, on either path. -/
theorem sortByUlidPayloadOrLexical_eq (key : α → String) (items : List α) :
    sortByUlidPayloadOrLexical key items
      = sortBy (fun a b => compareUlidPayloadOrLexical (key a) (key b)) items := by
  unfold sortByUlidPayloadOrLexical
  split
  · rename_i ha
    rw [sortByUlidPayload_eq]
    intro it hite
    obtain ⟨i, hi⟩ := List.mem_iff_getElem?.mp hite
    have hok := List.all_eq_true.mp ha (it, i) (List.mk_mem_zipIdx_iff_getElem?.mpr hi)
    rw [← validatePayloadKey_toOption i]
    cases hc : validatePayloadKey i (key it) with
    | ok o => rfl
    | error e =>
      rw [hc] at hok
      cases hok
  · rfl

/-- **ULID sorting is a stable sort by a total order.**  For every list of items and every key
function, the sort returns the stable sort by the comparison, on either path; the comparison is
a total order on texts; and the strict sort leaves a list with a key that is not canonical as it
is and reports the first such index. -/
theorem ulid_sort_stable (key : α → String) (items : List α) : sortByUlidPayloadOrLexical key items
        = sortBy (fun a b => compareUlidPayloadOrLexical (key a) (key b)) items ∧
      (∀ a b, compareUlidPayloadOrLexical a b = .eq ↔ a = b) ∧
      (∀ a b, compareUlidPayloadOrLexical b a = (compareUlidPayloadOrLexical a b).swap) ∧
      (∀ a b c, compareUlidPayloadOrLexical a b ≠ .gt → compareUlidPayloadOrLexical b c ≠ .gt →
        compareUlidPayloadOrLexical a c ≠ .gt) ∧
      ((∀ item ∈ items, (canonicalOffset (key item)).isSome) → sortByUlidPayload key items
          = (sortBy (fun a b => compareUlidPayloadOrLexical (key a) (key b)) items, .ok ())) ∧
      ((∃ item ∈ items, canonicalOffset (key item) = none) →
        ∃ e, sortByUlidPayload key items = (items, .error e) ∧
          ∃ item, items[e.index]? = some item ∧ e.key = key item ∧
            canonicalOffset (key item) = none ∧
            ∀ j < e.index, ∀ other, items[j]? = some other →
              (canonicalOffset (key other)).isSome) := by
  refine ⟨sortByUlidPayloadOrLexical_eq key items, ?_, ?_, ?_, sortByUlidPayload_eq, ?_⟩
  · intro a b
    exact Std.LawfulEqCmp.compare_eq_iff_eq
  · intro a b
    exact Std.OrientedCmp.eq_swap
  · intro a b c hab hbc
    exact Ordering.isLE_iff_ne_gt.mp (Std.TransCmp.isLE_trans (Ordering.isLE_iff_ne_gt.mpr hab)
      (Ordering.isLE_iff_ne_gt.mpr hbc))
  · rintro ⟨item, hite, hn⟩
    unfold sortByUlidPayload
    cases ho : payloadOffsets key 0 items with
    | error e =>
      obtain ⟨i, bad, hba, hb, hi, hk, hbe⟩ := payloadOffsets_eq_error ho
      rw [Nat.zero_add] at hi
      subst hi
      exact ⟨e, rfl, bad, hba, hk, hb, hbe⟩
    | ok os =>
      have hs := canonical_of_payloadOffsets ho item hite
      rw [hn] at hs
      cases hs

end Sorts

end UlidSort
