/-
# Splitting texts and reading numbers

`str::split_once`, `str::find` with a text as the pattern, `str::strip_prefix` and
`str::parse::<u64>`, with what each of them finds in a text that is put together from parts,
and when a text is its own trimmed form.
-/
import EideticEngine.RustText

namespace RustText

/-! ## Blanks at the ends -/

/-- A text without blanks at its ends is its own trimmed form. -/
theorem trim_eq_self {s : String} (hh : ∀ c ∈ s.toList.head?, isWhitespace c = false)
    (hl : ∀ c ∈ s.toList.getLast?, isWhitespace c = false) : trim s = s := by
  unfold trim
  have hd : s.toList.dropWhile isWhitespace = s.toList := by
    rw [List.dropWhile_eq_self_iff]
    intro hp
    rw [hh _ (List.head?_eq_getElem? ▸ List.getElem?_eq_getElem hp)]
    exact Bool.false_ne_true
  have hr : s.toList.rdropWhile isWhitespace = s.toList := by
    rw [List.rdropWhile_eq_self_iff]
    intro hne
    rw [hl _ (List.getLast?_eq_some_getLast hne)]
    exact Bool.false_ne_true
  rw [hd, hr, String.ofList_toList]

/-- A trimmed text does not end in a blank. -/
theorem isWhitespace_getLast_trim {s : String} {c : Char} (h : c ∈ (trim s).toList.getLast?) :
    isWhitespace c = false := by
  unfold trim at h
  rw [String.toList_ofList] at h
  have hne : (s.toList.dropWhile isWhitespace).rdropWhile isWhitespace ≠ [] := by
    intro hn
    rw [hn] at h
    cases h
  rw [List.getLast?_eq_some_getLast hne, Option.mem_some_iff] at h
  rw [← h]
  simpa using List.rdropWhile_last_not isWhitespace (s.toList.dropWhile isWhitespace) hne

/-! ## Splitting -/

/-- `str::split_once` with a character. -/
def splitOnceChar (separator : Char) (text : String) : Option (String × String) :=
  match text.toList.dropWhile (· ≠ separator) with
  | [] => none
  | _ :: rest => some (String.ofList (text.toList.takeWhile (· ≠ separator)), String.ofList rest)

/-- What is left after the characters before a separator starts with the separator. -/
theorem eq_of_dropWhile_ne {s c : Char} {text tail : List Char}
    (h : text.dropWhile (fun x => decide (x ≠ s)) = c :: tail) : c = s := by
  induction text with
  | nil => cases h
  | cons d text ih =>
    rw [List.dropWhile_cons] at h
    split at h
    · exact ih h
    · rename_i hd
      cases h
      simpa using hd

/-- The parts of a text around the first separator. -/
theorem splitOnceChar_eq_some_iff {s : Char} {text f r : String} :
    splitOnceChar s text = some (f, r) ↔ text = f ++ String.ofList [s] ++ r ∧ s ∉ f.toList := by
  unfold splitOnceChar
  constructor
  · intro h
    split at h
    · cases h
    · rename_i c tail hd
      cases h
      obtain rfl := eq_of_dropWhile_ne hd
      refine ⟨?_, ?_⟩
      · apply String.toList_injective
        simp only [String.toList_append, String.toList_ofList, List.append_assoc,
          List.singleton_append]
        rw [← hd]
        exact (List.takeWhile_append_dropWhile ..).symm
      · rw [String.toList_ofList]
        intro hm
        simpa using List.mem_takeWhile_imp hm
  · rintro ⟨rfl, hn⟩
    have ha : ∀ x ∈ f.toList, decide (x ≠ s) = true := by
      intro x hx
      rw [decide_eq_true_eq]
      rintro rfl
      exact hn hx
    simp only [String.toList_append, String.toList_ofList, List.append_assoc, List.singleton_append]
    rw [List.dropWhile_append_of_pos ha, List.takeWhile_append_of_pos ha]
    simp

theorem splitOnceChar_eq_none_iff {s : Char} {text : String} :
    splitOnceChar s text = none ↔ s ∉ text.toList := by
  unfold splitOnceChar
  split
  · rename_i hd
    rw [List.dropWhile_eq_nil_iff] at hd
    simp only [true_iff]
    intro hm
    simpa using hd s hm
  · rename_i c tail hd
    simp only [reduceCtorEq, false_iff, not_not]
    obtain rfl := eq_of_dropWhile_ne hd
    refine (List.dropWhile_sublist (p := fun x => decide (x ≠ c))).subset ?_
    rw [hd]
    exact List.mem_cons_self

/-- The characters before and after the first place where a pattern stands. -/
def splitAtPattern (pattern : List Char) : List Char → Option (List Char × List Char)
  | [] => if pattern = [] then some ([], []) else none
  | c :: rest =>
    if pattern.isPrefixOf (c :: rest) then some ([], (c :: rest).drop pattern.length)
    else (splitAtPattern pattern rest).map fun parts => (c :: parts.1, parts.2)

/-- `str::find` with a text, as the texts before and after it. -/
def splitAtText (pattern text : String) : Option (String × String) :=
  (splitAtPattern pattern.toList text.toList).map fun parts =>
    (String.ofList parts.1, String.ofList parts.2)

theorem splitAtPattern_eq_some {p text f r : List Char}
    (h : splitAtPattern p text = some (f, r)) : text = f ++ p ++ r := by
  induction text generalizing f with
  | nil =>
    unfold splitAtPattern at h
    split at h
    · rename_i hn
      cases h
      simp [hn]
    · cases h
  | cons c text ih =>
    unfold splitAtPattern at h
    split at h
    · rename_i hpr
      cases h
      obtain ⟨tail, ht⟩ := List.isPrefixOf_iff_prefix.mp hpr
      rw [← ht]
      simp
    · obtain ⟨ps, hp, heq⟩ := Option.map_eq_some_iff.mp h
      cases heq
      rw [ih hp]
      simp

/-- A pattern whose first character is not in the front part is found right after it. -/
theorem splitAtPattern_append {c : Char} {p f : List Char} (hc : c ∉ f) (r : List Char) :
    splitAtPattern (c :: p) (f ++ (c :: p) ++ r) = some (f, r) := by
  induction f with
  | nil =>
    have hp : ((c :: p).isPrefixOf ((c :: p) ++ r)) = true :=
      List.isPrefixOf_iff_prefix.mpr (List.prefix_append _ _)
    simp only [List.nil_append, List.cons_append] at hp ⊢
    unfold splitAtPattern
    rw [if_pos hp]
    simp
  | cons d f ih =>
    have hne : c ≠ d := fun heq => hc (heq ▸ List.mem_cons_self)
    have hn : ((c :: p).isPrefixOf (d :: (f ++ (c :: p) ++ r))) = false := by
      simp [List.isPrefixOf, hne]
    rw [List.cons_append, List.cons_append]
    unfold splitAtPattern
    rw [hn, ih fun hin => hc (List.mem_cons_of_mem _ hin)]
    simp

/-- `str::strip_prefix` with a text. -/
def stripTextPrefix (pattern text : String) : Option String :=
  if pattern.toList.isPrefixOf text.toList then
    some (String.ofList (text.toList.drop pattern.toList.length))
  else none

theorem stripTextPrefix_append (p r : String) : stripTextPrefix p (p ++ r) = some r := by
  unfold stripTextPrefix
  have hp : p.toList.isPrefixOf (p ++ r).toList = true := by
    rw [List.isPrefixOf_iff_prefix, String.toList_append]
    exact List.prefix_append _ _
  rw [if_pos hp, String.toList_append, List.drop_left, String.ofList_toList]

/-! ## Numbers -/

/-- `str::parse` at an unsigned type: an optional plus sign and decimal digits. -/
def parseUnsigned (bound : ℕ) (text : String) : Option ℕ :=
  let digits := match text.toList with
    | '+' :: rest => rest
    | chars => chars
  if digits ≠ [] ∧ digits.all Char.isDigit then
    let value := Nat.ofDigitChars 10 digits 0
    if value < bound then some value else none
  else none

/-- `str::parse::<u32>`. -/
def parseU32 (text : String) : Option ℕ := parseUnsigned (2 ^ 32) text

/-- `str::parse::<u64>`. -/
def parseU64 (text : String) : Option ℕ := parseUnsigned (2 ^ 64) text

theorem isDigit_of_mem_toString {n : ℕ} {c : Char} (h : c ∈ (toString n).toList) :
    c.isDigit = true := by
  rw [Nat.toString_eq_ofList_toDigits, String.toList_ofList] at h
  exact Nat.isDigit_of_mem_toDigits (by decide) (by decide) h

theorem isWhitespace_of_isDigit {c : Char} (h : c.isDigit = true) : isWhitespace c = false := by
  rw [Char.isDigit, Bool.and_eq_true, decide_eq_true_eq, decide_eq_true_eq, ge_iff_le,
    UInt32.le_iff_toNat_le, UInt32.le_iff_toNat_le] at h
  have hl : '0'.val.toNat = 48 := rfl
  have hh : '9'.val.toNat = 57 := rfl
  have hn : c.toNat = c.val.toNat := rfl
  simp only [isWhitespace, Bool.or_eq_false_iff, Bool.and_eq_false_iff, decide_eq_false_iff_not,
    beq_eq_false_iff_ne]
  omega

theorem toList_toString_ne_nil (n : ℕ) : (toString n).toList ≠ [] := by
  rw [Nat.toString_eq_ofList_toDigits, String.toList_ofList]
  exact Nat.toDigits_ne_nil

/-- A printed number is read back. -/
theorem parseU64_toString {n : ℕ} (h : n < 2 ^ 64) : parseU64 (toString n) = some n := by
  have hd : (match (toString n).toList with
      | '+' :: r => r
      | chars => chars) = (toString n).toList := by
    split
    · rename_i r hp
      have hm : '+' ∈ (toString n).toList := by rw [hp]; exact List.mem_cons_self
      exact absurd (isDigit_of_mem_toString hm) (by decide)
    · rfl
  have ha : (toString n).toList.all Char.isDigit = true :=
    List.all_eq_true.mpr fun c hc => isDigit_of_mem_toString hc
  have hv : Nat.ofDigitChars 10 (toString n).toList 0 = n := by
    rw [Nat.toString_eq_ofList_toDigits, String.toList_ofList, Nat.ofDigitChars_ten_toDigits]
  unfold parseU64 parseUnsigned
  simp only [hd, ha, toList_toString_ne_nil, hv, h, ne_eq, not_false_eq_true, and_self, if_true]

theorem parseU64_lt {text : String} {n : ℕ} (h : parseU64 text = some n) : n < 2 ^ 64 := by
  unfold parseU64 parseUnsigned at h
  simp only at h
  split_ifs at h with hdigits hbound
  cases h
  exact hbound

/-! ## Pieces -/

/-- The pieces between separators hold no separator. -/
theorem eq_false_of_mem_splitOnP {α : Type*} (p : α → Bool) {l pie : List α}
    (h : pie ∈ l.splitOnP p) : ∀ x ∈ pie, p x = false := by
  induction l generalizing pie with
  | nil =>
    rw [List.splitOnP_nil, List.mem_singleton] at h
    simp [h]
  | cons a l ih =>
    rw [List.splitOnP_cons_eq_if_modifyHead] at h
    split at h
    · rw [List.mem_cons] at h
      rcases h with rfl | h
      · simp
      · exact ih h
    · rename_i hp
      have hne := List.splitOnP_ne_nil p l
      obtain ⟨first, r, hs⟩ := List.exists_cons_of_ne_nil hne
      rw [hs, List.modifyHead_cons, List.mem_cons] at h
      rw [hs] at ih
      rcases h with rfl | h
      · intro x hx
        rw [List.mem_cons] at hx
        rcases hx with rfl | hx
        · simpa using hp
        · exact ih List.mem_cons_self x hx
      · exact ih (List.mem_cons_of_mem _ h)

end RustText
