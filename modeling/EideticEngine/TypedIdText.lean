/-
# The text of a typed identifier (`src/models/id.rs`)

Printing and parsing are inverse to each other up to letter case: a text parses exactly when it
is the tag, an underscore and 26 Crockford digits of which the first is at most 7, and then its
upper-case form is what the identifier prints.  The order of the texts of one kind is the order
of the payloads.
-/
import EideticEngine.Hex
import EideticEngine.PositionalDigits
import EideticEngine.TextOrder
import EideticEngine.TypedId

open RustText PositionalDigits

/-! ## Kinds -/

/-- The marker types of `define_id_kind!`. -/
inductive IdKind where
  | memory
  | memoryLink
  | workspace
  | rule
  | pack
  | model
  | session
  | claim
  | evidence
  | policy
  | trace
  | demo
  | audit
  | candidate
  | backup
  deriving DecidableEq, Repr

/-- `IdKind::PREFIX`. -/
def IdKind.tag : IdKind → String
  | memory => "mem"
  | memoryLink => "link"
  | workspace => "wsp"
  | rule => "rule"
  | pack => "pack"
  | model => "mdl"
  | session => "sess"
  | claim => "claim"
  | evidence => "ev"
  | policy => "pol"
  | trace => "trace"
  | demo => "demo"
  | audit => "audit"
  | candidate => "cand"
  | backup => "bk"

theorem IdKind.underscore_notMem_tag (kind : IdKind) : '_' ∉ kind.tag.toList := by
  cases kind <;> decide

namespace TypedId

/-! ## Digits and characters -/

/-- The character of a digit. -/
def digitChar (digit : ℕ) : Char := crockfordAlphabet.getD digit '0'

/-- **A payload text**: 26 Crockford digits in any case, the first at most 7. -/
structure IsPayload (payload : List Char) : Prop where
  length : payload.length = 26
  digits : ∀ c ∈ payload, c.toUpper ∈ crockfordAlphabet
  first : ∀ c ∈ payload.head?, c ∈ "01234567".toList

/-- The table of the bytes: their digits, and what is written for a digit up to 7. -/
theorem byte_table :
    (∀ n : Fin 256, (crockfordDigit (UInt8.ofNat n)).all fun d =>
        (UInt8.ofNat n).toNat < 128 ∧ d < 32) ∧
      ∀ n : Fin 128, crockfordDigit (UInt8.ofNat n)
          = crockfordAlphabet.idxOf? (Char.ofNat n).toUpper ∧
        (crockfordAlphabet.idxOf (Char.ofNat n).toUpper ≤ 7 →
          "01234567".toList.contains (Char.ofNat n) = true) := by
  decide +kernel

/-- The table of the digits: their characters, and the order of these. -/
theorem digit_table :
    (∀ d : Fin 32, (digitChar d).toUpper = digitChar d ∧
        crockfordAlphabet.contains (digitChar d) = true ∧ (digitChar d).toNat < 128) ∧
      (∀ d e : Fin 32, compare (UInt8.ofNat (digitChar d).toNat)
        (UInt8.ofNat (digitChar e).toNat) = compare d.val e.val) ∧
      (∀ d : Fin 8, "01234567".toList.contains (digitChar d) = true) ∧
      crockfordAlphabet.all (fun d => d.toNat < 128) = true ∧
      "01234567".toList.all (fun c => crockfordAlphabet.idxOf c.toUpper ≤ 7) = true := by
  decide +kernel

theorem crockfordDigit_eq_some {b : UInt8} {d : ℕ} (h : crockfordDigit b = some d) :
    b.toNat < 128 ∧ d < 32 := by
  have ha : ∀ b : UInt8, (crockfordDigit b).all fun d => b.toNat < 128 ∧ d < 32 :=
    Hex.forall_byte byte_table.1
  simpa [h] using ha b

/-- The digit of a byte is the place of the upper-case character in the alphabet. -/
theorem crockfordDigit_of_ascii {c : Char} (h : c.toNat < 128) :
    crockfordDigit (UInt8.ofNat c.toNat) = crockfordAlphabet.idxOf? c.toUpper := by
  have hc := (byte_table.2 ⟨c.toNat, h⟩).1
  rwa [Char.ofNat_toNat] at hc

theorem utf8EncodeChar_ascii {c : Char} (h : c.toNat < 128) :
    String.utf8EncodeChar c = [UInt8.ofNat c.toNat] := by
  unfold String.utf8EncodeChar
  exact if_pos (Nat.le_of_lt_succ h)

/-- Only ASCII characters are made of digit bytes. -/
theorem ascii_of_digits {c : Char}
    (h : ∀ b ∈ String.utf8EncodeChar c, (crockfordDigit b).isSome) : c.toNat < 128 := by
  by_contra hbig
  have hl : ∃ b ∈ String.utf8EncodeChar c, 128 ≤ b.toNat := by
    have hv : ¬ c.val.toNat ≤ 127 := by
      rw [Char.toNat] at hbig
      omega
    unfold String.utf8EncodeChar
    simp only [hv, if_false]
    split_ifs
    · exact ⟨_, List.mem_cons_self, by rw [UInt8.toNat_ofNat']; omega⟩
    · exact ⟨_, List.mem_cons_self, by rw [UInt8.toNat_ofNat']; omega⟩
    · exact ⟨_, List.mem_cons_self, by rw [UInt8.toNat_ofNat']; omega⟩
  obtain ⟨b, hm, hb⟩ := hl
  obtain ⟨d, hd⟩ := Option.isSome_iff_exists.mp (h b hm)
  have hlt := (crockfordDigit_eq_some hd).1
  omega

/-- A character whose upper case is in the alphabet is an ASCII character. -/
theorem ascii_of_mem_alphabet {c : Char} (h : c.toUpper ∈ crockfordAlphabet) : c.toNat < 128 := by
  have ha := digit_table.2.2.2.1
  by_contra hbig
  have hs : c.toUpper = c := by
    unfold Char.toUpper
    rw [dif_neg]
    rintro ⟨-, hle⟩
    rw [Char.toNat] at hbig
    rw [UInt32.le_iff_toNat_le] at hle
    have hz : 'z'.val.toNat = 122 := rfl
    omega
  rw [hs] at h
  exact hbig (by simpa using List.all_eq_true.mp ha c h)

/-- The bytes of ASCII characters. -/
theorem asBytes_ofList_ascii {cs : List Char} (h : ∀ c ∈ cs, c.toNat < 128) :
    asBytes (String.ofList cs) = cs.map fun c => UInt8.ofNat c.toNat := by
  rw [asBytes_ofList]
  induction cs with
  | nil => rfl
  | cons c cs ih =>
    rw [List.flatMap_cons, List.map_cons, utf8EncodeChar_ascii (h c List.mem_cons_self),
      ih fun d hd => h d (List.mem_cons_of_mem _ hd), List.singleton_append]

/-- The printed digits are the digits of the payload. -/
theorem encodeCrockford_eq (value : ℕ) :
    encodeCrockford value = (digitsOf 32 26 value).map digitChar := by
  rw [digitsOf_eq_map, List.map_map]
  unfold encodeCrockford encodedLen
  refine List.map_congr_left fun i hi => ?_
  have hs : ¬ (26 - 1 - i) * 5 ≥ 128 := by
    rw [List.mem_range] at hi
    omega
  have hp : 2 ^ ((26 - 1 - i) * 5) = 32 ^ (26 - 1 - i) := by
    rw [Nat.mul_comm, pow_mul]
    rfl
  simp only [hs, if_false, Nat.shiftRight_eq_div_pow, hp, Function.comp_apply]
  rfl

/-- The digits of a payload text. -/
def payloadDigits (payload : List Char) : List ℕ :=
  payload.map fun c => crockfordAlphabet.idxOf c.toUpper

theorem digitChar_idxOf {c : Char} (h : c ∈ crockfordAlphabet) :
    digitChar (crockfordAlphabet.idxOf c) = c := by
  unfold digitChar
  rw [List.getD_eq_getElem _ _ (List.idxOf_lt_length_of_mem h), List.getElem_idxOf]

namespace IsPayload

variable {payload : List Char} (h : IsPayload payload)

include h

theorem digits_lt : ∀ d ∈ payloadDigits payload, d < 32 := by
  intro d hd
  obtain ⟨c, hc, rfl⟩ := List.mem_map.mp hd
  exact List.idxOf_lt_length_of_mem (h.digits c hc)

theorem length_digits : (payloadDigits payload).length = 26 := by
  rw [payloadDigits, List.length_map, h.length]

/-- The first digit is at most 7, so the value has 128 bits. -/
theorem value_lt : valueOf 32 0 (payloadDigits payload) < 2 ^ 128 := by
  have hf := digit_table.2.2.2.2
  have hl := h.length_digits
  have hlt := h.digits_lt
  cases hp : payload with
  | nil =>
    have hz := h.length
    rw [hp] at hz
    cases hz
  | cons c r =>
    have hc : crockfordAlphabet.idxOf c.toUpper ≤ 7 :=
      by simpa using List.all_eq_true.mp hf c (h.first c (by rw [hp]; rfl))
    rw [hp, payloadDigits, List.map_cons] at hl hlt
    have hr := valueOf_lt fun d hd => hlt d (List.mem_cons_of_mem _ hd)
    rw [List.length_cons] at hl
    have hle : (r.map fun c => crockfordAlphabet.idxOf c.toUpper).length = 25 := by omega
    rw [payloadDigits, List.map_cons, valueOf_cons]
    rw [hle] at hr ⊢
    calc crockfordAlphabet.idxOf c.toUpper * 32 ^ 25 + valueOf 32 0 _ < 7 * 32 ^ 25 + 32 ^ 25 :=
          Nat.add_lt_add_of_le_of_lt (Nat.mul_le_mul_right _ hc) hr
      _ = 2 ^ 128 := by norm_num

/-- Printing the value gives the payload in upper case. -/
theorem encodeCrockford_value :
    encodeCrockford (valueOf 32 0 (payloadDigits payload)) = payload.map Char.toUpper := by
  have hd := digitsOf_valueOf h.digits_lt
  rw [h.length_digits] at hd
  rw [encodeCrockford_eq, hd, payloadDigits, List.map_map]
  refine List.map_congr_left fun c hc => ?_
  exact digitChar_idxOf (h.digits c hc)

end IsPayload

/-- **What the digit loop accepts**: digits, at the first place at most 7; the accumulator is
the value modulo `2 ^ 128`. -/
theorem decodeCrockfordDigits_eq_ok {fi : String} {bytes : List UInt8} {position acc value : ℕ} :
    decodeCrockfordDigits fi position (acc % 2 ^ 128) bytes = .ok value ↔
      ∃ digits : List ℕ, bytes.map crockfordDigit = digits.map some ∧
        (position = 0 → ∀ d ∈ digits.head?, d ≤ 7) ∧
        value = valueOf 32 acc digits % 2 ^ 128 := by
  induction bytes generalizing position acc with
  | nil =>
    unfold decodeCrockfordDigits
    constructor
    · intro h
      cases h
      exact ⟨[], rfl, by simp, rfl⟩
    · rintro ⟨digits, hm, -, rfl⟩
      rw [List.map_nil, eq_comm, List.map_eq_nil_iff] at hm
      subst hm
      rfl
  | cons b r ih =>
    unfold decodeCrockfordDigits
    cases hb : crockfordDigit b with
    | none =>
      simp only [reduceCtorEq, false_iff, not_exists]
      rintro digits ⟨hm, -⟩
      cases digits with
      | nil => cases hm
      | cons d digits =>
        rw [List.map_cons, List.map_cons, hb] at hm
        cases (List.cons.inj hm).1
    | some di =>
      have hs : (acc % 2 ^ 128 * 32 + di) % 2 ^ 128 = (acc * 32 + di) % 2 ^ 128 := by
        rw [Nat.add_mod, Nat.mod_mul_mod, ← Nat.add_mod]
      simp only [hs]
      split
      · rename_i ho
        simp only [reduceCtorEq, false_iff, not_exists]
        rintro digits ⟨hm, hf, -⟩
        cases digits with
        | nil => cases hm
        | cons d digits =>
          rw [List.map_cons, List.map_cons, hb, List.cons.injEq, Option.some.injEq] at hm
          have hd := hf ho.1 d rfl
          omega
      · rename_i hfi
        rw [ih]
        constructor
        · rintro ⟨digits, hm, -, rfl⟩
          refine ⟨di :: digits, by simp [hb, hm], ?_, rfl⟩
          rintro hz d hd
          cases hd
          by_contra hgt
          exact hfi ⟨hz, by omega⟩
        · rintro ⟨digits, hm, -, rfl⟩
          cases digits with
          | nil => cases hm
          | cons d digits =>
            rw [List.map_cons, List.map_cons, hb, List.cons.injEq, Option.some.injEq] at hm
            obtain ⟨rfl, hm⟩ := hm
            exact ⟨digits, hm, by simp, rfl⟩

/-! ## Parsing -/

variable {tag : String}

/-- Parsing splits at the first underscore. -/
theorem fromStr_of_separator (ht : '_' ∉ tag.toList) (payload : String) :
    fromStr tag (tag ++ "_" ++ payload)
      = if (asBytes payload).length ≠ encodedLen then
          .error (.wrongPayloadLength (tag ++ "_" ++ payload) encodedLen (asBytes payload).length)
        else
          match decodeCrockford (asBytes payload) (tag ++ "_" ++ payload) with
          | .error e => .error e
          | .ok value => .ok ⟨Fin.ofNat (2 ^ 128) value⟩ := by
  have hch : (tag ++ "_" ++ payload).toList = tag.toList ++ '_' :: payload.toList := by simp
  have hf : (tag.toList ++ '_' :: payload.toList).findIdx? (fun c => decide (c = '_'))
      = some tag.toList.length := by
    have hn : tag.toList.findIdx? (fun c => decide (c = '_')) = none := by
      rw [List.findIdx?_eq_none_iff]
      intro c hc
      rw [decide_eq_false_iff_not]
      rintro rfl
      exact ht hc
    rw [List.findIdx?_append, hn, List.findIdx?_cons]
    simp
  have hd : (tag.toList ++ '_' :: payload.toList).drop (tag.toList.length + 1)
      = payload.toList := by
    rw [← List.drop_drop, List.drop_left, List.drop_one, List.tail_cons]
  have hr := fromStr.eq_1 tag (tag ++ "_" ++ payload)
  simp only [hch, hf, List.take_left, hd, String.ofList_toList, ne_eq, not_true, if_false] at hr
  exact hr

/-- A text that parses has the tag, an underscore and a payload. -/
theorem exists_payload_of_fromStr {inp : String} {id : TypedId tag}
    (h : fromStr tag inp = .ok id) : ∃ payload, inp = tag ++ "_" ++ payload := by
  unfold fromStr at h
  simp only at h
  split at h
  · cases h
  · rename_i s hf
    split at h
    · cases h
    · rename_i ht
      obtain ⟨hlt, hc, -⟩ := List.findIdx?_eq_some_iff_getElem.mp hf
      refine ⟨String.ofList (inp.toList.drop (s + 1)), ?_⟩
      rw [← not_not.mp ht]
      apply String.toList_injective
      have hu : inp.toList[s] = '_' := by simpa using hc
      have hs : "_".toList = [inp.toList[s]] := by
        rw [hu]
        rfl
      simp only [String.toList_append, String.toList_ofList, hs, List.append_assoc]
      rw [List.singleton_append, List.getElem_cons_drop, List.take_append_drop]

/-- The digits that a payload text stands for, by its bytes. -/
theorem map_crockfordDigit_eq_some {payload : List Char} {digits : List ℕ}
    (h : (asBytes (String.ofList payload)).map crockfordDigit = digits.map some) :
    (∀ c ∈ payload, c.toUpper ∈ crockfordAlphabet) ∧ digits = payloadDigits payload := by
  have hs : ∀ b ∈ asBytes (String.ofList payload), (crockfordDigit b).isSome := by
    intro b hb
    have hm : crockfordDigit b ∈ digits.map some := h ▸ List.mem_map_of_mem hb
    obtain ⟨d, -, hd⟩ := List.mem_map.mp hm
    rw [← hd]
    rfl
  have ha : ∀ c ∈ payload, c.toNat < 128 := by
    intro c hc
    refine ascii_of_digits fun b hb => hs b ?_
    rw [asBytes_ofList]
    exact List.mem_flatMap.mpr ⟨c, hc, hb⟩
  rw [asBytes_ofList_ascii ha, List.map_map] at h
  clear hs
  induction payload generalizing digits with
  | nil =>
    rw [List.map_nil, eq_comm, List.map_eq_nil_iff] at h
    exact ⟨by simp, h⟩
  | cons c payload ih =>
    cases digits with
    | nil => cases h
    | cons d digits =>
      rw [List.map_cons, List.map_cons, List.cons.injEq, Function.comp_apply,
        crockfordDigit_of_ascii (ha c List.mem_cons_self)] at h
      obtain ⟨hc, hr⟩ := h
      obtain ⟨hdi, rfl⟩ := ih hr fun e he => ha e (List.mem_cons_of_mem _ he)
      have hm : c.toUpper ∈ crockfordAlphabet := by
        rw [← List.isSome_idxOf?, hc]
        rfl
      refine ⟨?_, ?_⟩
      · intro e he
        rcases List.mem_cons.mp he with rfl | he
        · exact hm
        · exact hdi e he
      · have hd : crockfordAlphabet.idxOf c.toUpper = d := by
          rw [List.idxOf_eq_getD_idxOf?, hc]
          rfl
        rw [← hd]
        rfl

/-- A payload text has the digits of its bytes. -/
theorem IsPayload.map_crockfordDigit {payload : List Char} (h : IsPayload payload) :
    (asBytes (String.ofList payload)).map crockfordDigit = (payloadDigits payload).map some := by
  have ha : ∀ c ∈ payload, c.toNat < 128 := fun c hc => ascii_of_mem_alphabet (h.digits c hc)
  rw [asBytes_ofList_ascii ha, List.map_map, payloadDigits, List.map_map]
  refine List.map_congr_left fun c hc => ?_
  rw [Function.comp_apply, crockfordDigit_of_ascii (ha c hc), Function.comp_apply]
  obtain ⟨d, hd⟩ := Option.isSome_iff_exists.mp (List.isSome_idxOf?.mpr (h.digits c hc))
  rw [List.idxOf_eq_getD_idxOf?, hd]
  rfl

/-- The digits up to 7 are written in one way. -/
theorem mem_of_digit_le_seven {c : Char} (hm : c.toUpper ∈ crockfordAlphabet)
    (hle : crockfordAlphabet.idxOf c.toUpper ≤ 7) : c ∈ "01234567".toList := by
  have hc := (byte_table.2 ⟨c.toNat, ascii_of_mem_alphabet hm⟩).2
  rw [Char.ofNat_toNat] at hc
  simpa using hc hle

/-- **Which texts parse, and to what.** -/
theorem fromStr_eq_ok_iff (ht : '_' ∉ tag.toList) {inp : String} {id : TypedId tag} :
    fromStr tag inp = .ok id ↔
      ∃ payload : List Char, inp = tag ++ "_" ++ String.ofList payload ∧ IsPayload payload ∧
        payload.map Char.toUpper = encodeCrockford id.inner := by
  constructor
  · intro h
    obtain ⟨text, rfl⟩ := exists_payload_of_fromStr h
    refine ⟨text.toList, by rw [String.ofList_toList], ?_⟩
    rw [fromStr_of_separator ht, ← String.ofList_toList (s := text)] at h
    split at h
    · cases h
    · rename_i hl
      rw [not_not] at hl
      unfold decodeCrockford at h
      rw [if_neg (not_not.mpr hl)] at h
      split at h
      · cases h
      · rename_i value hde
        cases h
        obtain ⟨digits, hm, hf, hv⟩ := (@decodeCrockfordDigits_eq_ok _ _ _ 0 _).mp hde
        have hco : digits.length = 26 := by
          have hle := congrArg List.length hm
          rw [List.length_map, List.length_map, hl] at hle
          exact hle.symm
        obtain ⟨hdi, rfl⟩ := map_crockfordDigit_eq_some hm
        have hp : IsPayload text.toList := by
          refine ⟨by simpa [payloadDigits] using hco, hdi, ?_⟩
          intro c hc
          have hme := List.mem_of_mem_head? hc
          refine mem_of_digit_le_seven (hdi c hme) (hf rfl _ ?_)
          rw [payloadDigits, List.head?_map, hc]
          rfl
        refine ⟨hp, ?_⟩
        rw [Nat.mod_eq_of_lt hp.value_lt] at hv
        subst hv
        rw [← hp.encodeCrockford_value]
        congr 1
        exact (Nat.mod_eq_of_lt hp.value_lt).symm
  · rintro ⟨payload, rfl, hp, he⟩
    have hm := hp.map_crockfordDigit
    have hl : (asBytes (String.ofList payload)).length = encodedLen := by
      have hle := congrArg List.length hm
      rw [List.length_map, List.length_map, hp.length_digits] at hle
      exact hle
    have hde : decodeCrockford (asBytes (String.ofList payload))
        (tag ++ "_" ++ String.ofList payload)
          = .ok (valueOf 32 0 (payloadDigits payload)) := by
      unfold decodeCrockford
      rw [if_neg (not_not.mpr hl)]
      refine (@decodeCrockfordDigits_eq_ok _ _ _ 0 _).mpr ⟨_, hm, ?_, ?_⟩
      · intro _ d hd
        rw [payloadDigits, List.head?_map, Option.mem_def, Option.map_eq_some_iff] at hd
        obtain ⟨c, hc, rfl⟩ := hd
        simpa using List.all_eq_true.mp digit_table.2.2.2.2 c (hp.first c hc)
      · exact (Nat.mod_eq_of_lt hp.value_lt).symm
    rw [fromStr_of_separator ht, if_neg (not_not.mpr hl), hde]
    simp only
    congr 1
    obtain ⟨inn⟩ := id
    rw [← hp.encodeCrockford_value] at he
    have hv := encodeCrockford_inj hp.value_lt inn.isLt he
    rw [hv]
    congr 1
    exact Fin.ext (Nat.mod_eq_of_lt inn.isLt)

/-! ## The order of the texts -/

/-- Printed identifiers of one kind are ordered as their payloads are. -/
theorem strCmp_toText (a b : TypedId tag) :
    strCmp a.toText b.toText = compare a.inner.val b.inner.val := by
  have hb : ∀ id : TypedId tag, id.inner.val < 32 ^ 26 := fun id =>
    lt_trans id.inner.isLt (by norm_num)
  have has : ∀ v : ℕ, ∀ c ∈ encodeCrockford v, c.toNat < 128 := by
    intro v c hc
    rw [encodeCrockford_eq] at hc
    obtain ⟨d, hd, rfl⟩ := List.mem_map.mp hc
    exact (digit_table.1 ⟨d, digitsOf_lt (by decide) _ _ d hd⟩).2.2
  have hby : ∀ id : TypedId tag, asBytes id.toText = asBytes (tag ++ "_")
      ++ (digitsOf 32 26 id.inner).map fun d => UInt8.ofNat (digitChar d).toNat := by
    intro id
    unfold toText
    rw [asBytes_append, asBytes_ofList_ascii (has _), encodeCrockford_eq, List.map_map]
    rfl
  -- the alphabet is in ascending order
  have ha := digit_table.2.1
  unfold strCmp
  rw [hby a, hby b, compare_append_left, compare_map, compare_digitsOf (hb a) (hb b)]
  intro d hd e he
  exact ha ⟨d, digitsOf_lt (by decide) _ _ d hd⟩ ⟨e, digitsOf_lt (by decide) _ _ e he⟩

/-- The printed digits are a payload text in upper case. -/
theorem isPayload_encodeCrockford {value : ℕ} (h : value < 2 ^ 128) :
    IsPayload (encodeCrockford value) ∧
      (encodeCrockford value).map Char.toUpper = encodeCrockford value := by
  have hm : ∀ c ∈ encodeCrockford value, c.toUpper = c ∧ c ∈ crockfordAlphabet := by
    intro c hc
    rw [encodeCrockford_eq] at hc
    obtain ⟨d, hd, rfl⟩ := List.mem_map.mp hc
    obtain ⟨hu, hc, -⟩ := digit_table.1 ⟨d, digitsOf_lt (by decide) _ _ d hd⟩
    exact ⟨hu, by simpa using hc⟩
  refine ⟨⟨?_, ?_, ?_⟩, ?_⟩
  · rw [encodeCrockford_eq, List.length_map, length_digitsOf]
  · intro c hc
    rw [(hm c hc).1]
    exact (hm c hc).2
  · intro c hc
    have hf := digit_table.2.2.1
    rw [encodeCrockford_eq, digitsOf, List.map_cons, List.head?_cons, Option.mem_some_iff] at hc
    have hl : value / 32 ^ 25 < 8 := by
      rw [Nat.div_lt_iff_lt_mul (by positivity)]
      exact lt_of_lt_of_eq h (by norm_num)
    rw [Nat.mod_eq_of_lt (by omega)] at hc
    rw [← hc]
    simpa using hf ⟨_, hl⟩
  · conv_rhs => rw [← List.map_id (encodeCrockford value)]
    exact List.map_congr_left fun c hc => (hm c hc).1

/-- A printed identifier is read back. -/
theorem fromStr_toText (ht : '_' ∉ tag.toList) (id : TypedId tag) :
    fromStr tag id.toText = .ok id := by
  obtain ⟨hp, hu⟩ := isPayload_encodeCrockford id.inner.isLt
  exact (fromStr_eq_ok_iff ht).mpr ⟨_, rfl, hp, hu⟩

/-- **Typed identifiers are an order-preserving bijection.**  For every kind: printing and then
parsing returns every identifier; a text parses exactly when it is the tag, an underscore and a
payload text; a parsed text prints as its upper-case form, which parses to the same identifier;
and the order of the printed texts is the order of the values. -/
theorem typed_id_text_bijective (kind : IdKind) :
    (∀ id : TypedId kind.tag, fromStr kind.tag id.toText = .ok id) ∧
      (∀ input : String, (∃ id, fromStr kind.tag input = .ok id) ↔
        ∃ payload : List Char, input = kind.tag ++ "_" ++ String.ofList payload ∧
          IsPayload payload) ∧
      (∀ (payload : List Char) (id : TypedId kind.tag),
        fromStr kind.tag (kind.tag ++ "_" ++ String.ofList payload) = .ok id →
          id.toText = kind.tag ++ "_" ++ String.ofList (payload.map Char.toUpper) ∧
          fromStr kind.tag id.toText = .ok id) ∧
      ∀ a b : TypedId kind.tag, strCmp a.toText b.toText = compare a.inner.val b.inner.val := by
  have ht := kind.underscore_notMem_tag
  refine ⟨fromStr_toText ht, ?_, ?_, strCmp_toText⟩
  · intro input
    constructor
    · rintro ⟨id, hid⟩
      obtain ⟨payload, hi, hp, -⟩ := (fromStr_eq_ok_iff ht).mp hid
      exact ⟨payload, hi, hp⟩
    · rintro ⟨payload, hi, hp⟩
      refine ⟨⟨⟨_, hp.value_lt⟩⟩, (fromStr_eq_ok_iff ht).mpr ⟨payload, hi, hp, ?_⟩⟩
      exact hp.encodeCrockford_value.symm
  · intro payload id hid
    obtain ⟨p', hi, -, he⟩ := (fromStr_eq_ok_iff ht).mp hid
    have hs : payload = p' := by
      have hl := congrArg String.toList hi
      simpa using hl
    refine ⟨?_, fromStr_toText ht id⟩
    unfold toText
    rw [hs, he]

end TypedId
