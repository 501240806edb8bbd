/-
# JSON values up to the order of keys

A value of `serde_json` has distinct keys in every object and numbers that are written with
the signs of JSON numbers.  For such values the printed text determines the value.  Two values
are the same up to the order of keys when one becomes the other by permuting the entries of
objects at any depth; sorting the keys picks one value out of each class.
-/
import EideticEngine.JsonText
import EideticEngine.ListRules

namespace Serde

open JsonStrings (quoted quoted_append_inj)

namespace Json

/-! ## Well-formed values -/

/-- Induction over a value, with one hypothesis for all items or entries. -/
@[elab_as_elim]
theorem inductionOn {motive : Json → Prop} (value : Json) (null : motive .null)
    (bool : ∀ b, motive (.bool b)) (number : ∀ text, motive (.number text))
    (string : ∀ text, motive (.string text))
    (array : ∀ items, (∀ item ∈ items, motive item) → motive (.array items))
    (object : ∀ entries : List (String × Json), (∀ entry ∈ entries, motive entry.2) →
      motive (.object entries)) : motive value :=
  @Json.rec motive (fun items => ∀ item ∈ items, motive item)
    (fun entries => ∀ entry ∈ entries, motive entry.2) (fun entry => motive entry.2)
    null bool number string array object (List.forall_mem_nil _)
    (fun _ _ hhead htail => List.forall_mem_cons.mpr ⟨hhead, htail⟩) (List.forall_mem_nil _)
    (fun _ _ hhead htail => List.forall_mem_cons.mpr ⟨hhead, htail⟩) (fun _ _ h => h) value

/-- The signs of a JSON number. -/
def isNumberSign (c : Char) : Bool :=
  c.isDigit || c == '-' || c == '+' || c == '.' || c == 'e' || c == 'E'

/-- What `serde_json` builds: the keys of an object are distinct, and the text of a number is
made of the signs of a number. -/
inductive WellFormed : Json → Prop
  | null : WellFormed .null
  | bool (value : Bool) : WellFormed (.bool value)
  | number {text : String} (hne : text ≠ "") (hsigns : ∀ c ∈ text.toList, isNumberSign c) :
    WellFormed (.number text)
  | string (text : String) : WellFormed (.string text)
  | array {items : List Json} (hitems : ∀ item ∈ items, WellFormed item) :
    WellFormed (.array items)
  | object {entries : List (String × Json)} (hkeys : (entries.map Prod.fst).Nodup)
    (hentries : ∀ entry ∈ entries, WellFormed entry.2) : WellFormed (.object entries)

theorem WellFormed.signs {text : String} (h : WellFormed (.number text)) :
    ∀ c ∈ text.toList, isNumberSign c := by
  cases h with
  | number _ hs => exact hs

theorem WellFormed.items {items : List Json} (h : WellFormed (.array items)) :
    ∀ it ∈ items, WellFormed it := by
  cases h with
  | array hi => exact hi

theorem WellFormed.keys {entries : List (String × Json)} (h : WellFormed (.object entries)) :
    (entries.map Prod.fst).Nodup := by
  cases h with
  | object hk _ => exact hk

theorem WellFormed.entries {entries : List (String × Json)} (h : WellFormed (.object entries)) :
    ∀ en ∈ entries, WellFormed en.2 := by
  cases h with
  | object _ he => exact he

theorem ofOption_injective : Function.Injective ofOption := by
  intro a b h
  cases a with
  | none =>
    cases b with
    | none => rfl
    | some text => cases h
  | some text =>
    cases b with
    | none => cases h
    | some text' => exact congrArg some (Json.string.inj h)

theorem wellFormed_ofOption (text : Option String) : WellFormed (ofOption text) := by
  cases text with
  | none => exact .null
  | some text => exact .string text

/-! ## The printed text determines the value -/

/-- What stands behind a value inside another one, or nothing. -/
def Ends (rest : List Char) : Prop := ∀ c ∈ rest.head?, c = ',' ∨ c = ']' ∨ c = '\x7d'

theorem ends_nil : Ends [] := by
  intro c hc
  cases hc

theorem ends_comma (r : List Char) : Ends (',' :: r) := by
  intro c hc
  cases hc
  exact Or.inl rfl

theorem ends_bracket (r : List Char) : Ends (']' :: r) := by
  intro c hc
  cases hc
  exact Or.inr (Or.inl rfl)

theorem ends_brace (r : List Char) : Ends ('\x7d' :: r) := by
  intro c hc
  cases hc
  exact Or.inr (Or.inr rfl)

theorem Ends.not_sign {r : List Char} (h : Ends r) : ∀ c ∈ r.head?, isNumberSign c = false := by
  intro c hc
  rcases h c hc with rfl | rfl | rfl <;> decide

/-- The kinds of values, true and false apart. -/
def kind : Json → ℕ
  | .null => 0
  | .bool true => 1
  | .bool false => 2
  | .number _ => 3
  | .string _ => 4
  | .array _ => 5
  | .object _ => 6

/-- The kind of the values that start with a sign; a sign that starts none has kind seven. -/
def signKind (c : Char) : ℕ :=
  if isNumberSign c then 3
  else if c = 'n' then 0
  else if c = 't' then 1
  else if c = 'f' then 2
  else if c = '"' then 4
  else if c = '[' then 5
  else if c = '\x7b' then 6
  else 7

section

variable [JsonStrings]

/-- The first sign of a value tells its kind. -/
theorem chars_head {value : Json} (hv : WellFormed value) (r : List Char) :
    ∃ head tail, value.chars ++ r = head :: tail ∧ signKind head = value.kind := by
  cases hv with
  | null => exact ⟨'n', _, rfl, by decide⟩
  | bool value => cases value <;> exact ⟨_, _, rfl, by decide⟩
  | @number text hne hs =>
    cases ht : text.toList with
    | nil => exact absurd (String.toList_eq_nil_iff.mp ht) hne
    | cons c tail =>
      refine ⟨c, tail ++ r, by rw [chars, ht]; rfl, ?_⟩
      exact if_pos (hs c (by rw [ht]; exact List.mem_cons_self))
  | string text =>
    obtain ⟨tail, ht⟩ := JsonStrings.head_quoted text
    exact ⟨'"', tail ++ r, by rw [chars, ht]; rfl, rfl⟩
  | array _ => exact ⟨'[', _, rfl, rfl⟩
  | object _ _ => exact ⟨'\x7b', _, rfl, rfl⟩

/-- Values that start alike are of one kind. -/
theorem kind_eq {value v' : Json} (hv : WellFormed value) (hv' : WellFormed v')
    {r r' : List Char} (h : value.chars ++ r = v'.chars ++ r') :
    value.kind = v'.kind := by
  obtain ⟨head, tail, hc, hk⟩ := chars_head hv r
  obtain ⟨h', t', hc', hk'⟩ := chars_head hv' r'
  rw [hc, hc', List.cons.injEq] at h
  rw [← hk, ← hk', h.1]

/-- No value starts with a closing sign. -/
theorem chars_head_ne {value : Json} (hv : WellFormed value) (r : List Char) {close : Char}
    (hcl : signKind close = 7) :
    ∃ head tail, value.chars ++ r = head :: tail ∧ head ≠ close := by
  obtain ⟨head, tail, hc, hk⟩ := chars_head hv r
  refine ⟨head, tail, hc, ?_⟩
  rintro rfl
  rw [hcl] at hk
  cases value with
  | bool value => cases value <;> cases hk
  | _ => cases hk

/-- What makes a value be read in one way only, with any two ends behind it. -/
def ReadsBack (value : Json) : Prop :=
  ∀ ⦃value' : Json⦄ ⦃rest rest' : List Char⦄, WellFormed value' → Ends rest → Ends rest' →
    value.chars ++ rest = value'.chars ++ rest' → value = value' ∧ rest = rest'

end

section

variable {α : Type*}

/-- Codes with commas between them. -/
def joined (code : α → List Char) : List α → List Char
  | [] => []
  | [a] => code a
  | a :: b :: l => code a ++ ',' :: joined code (b :: l)

/-- Elements that are read in one way make lists that are read in one way, up to the sign that
closes the list. -/
theorem joined_append_inj {code : α → List Char} {close : Char}
    (hcl : close = ']' ∨ close = '\x7d') {l : List α} :
    ∀ {l' : List α} {r r' : List Char},
      (∀ a ∈ l, ∀ b ∈ l', ∀ s t, Ends s → Ends t → code a ++ s = code b ++ t → a = b ∧ s = t) →
      (∀ a, a ∈ l ∨ a ∈ l' → ∀ s, ∃ head tail, code a ++ s = head :: tail ∧ head ≠ close) →
      joined code l ++ close :: r = joined code l' ++ close :: r' → l = l' ∧ r = r' := by
  have he : ∀ r, Ends (close :: r) := by
    intro r
    rcases hcl with rfl | rfl
    · exact ends_bracket r
    · exact ends_brace r
  have hco : close ≠ ',' := by
    rcases hcl with rfl | rfl <;> decide
  -- a list of at least one element does not start with the closing sign
  have hh : ∀ a l r s, (∀ s, ∃ head tail, code a ++ s = head :: tail ∧ head ≠ close) →
      joined code (a :: l) ++ close :: r ≠ close :: s := by
    intro a l r s ha h
    cases l with
    | nil =>
      obtain ⟨head, tail, hc, hne⟩ := ha (close :: r)
      rw [joined, hc] at h
      exact hne (List.cons.inj h).1
    | cons b l =>
      obtain ⟨head, tail, hc, hne⟩ := ha (',' :: joined code (b :: l) ++ close :: r)
      rw [joined, List.append_assoc, hc] at h
      exact hne (List.cons.inj h).1
  induction l with
  | nil =>
    intro l' r r' _ hs h
    cases l' with
    | nil => exact ⟨rfl, (List.cons.inj h).2⟩
    | cons b l' =>
      exact absurd h.symm (hh b l' r' r (hs b (Or.inr List.mem_cons_self)))
  | cons a l ih =>
    intro l' r r' hre hs h
    cases l' with
    | nil => exact absurd h (hh a l r r' (hs a (Or.inl List.mem_cons_self)))
    | cons b l' =>
      have hf := hre a List.mem_cons_self b List.mem_cons_self
      -- after the first element there is a comma or the closing sign on both sides
      cases l with
      | nil =>
        cases l' with
        | nil =>
          obtain ⟨hab, hr⟩ := hf _ _ (he r) (he r') h
          exact ⟨by rw [hab], (List.cons.inj hr).2⟩
        | cons d l' =>
          rw [joined, joined, List.append_assoc] at h
          have hr := (hf _ _ (he r) (ends_comma _) h).2
          exact absurd (List.cons.inj hr).1 hco
      | cons c l =>
        cases l' with
        | nil =>
          rw [joined, joined, List.append_assoc] at h
          have hr := (hf _ _ (ends_comma _) (he r') h).2
          exact absurd (List.cons.inj hr).1.symm hco
        | cons d l' =>
          rw [joined, joined, List.append_assoc, List.append_assoc] at h
          obtain ⟨hab, hr⟩ := hf _ _ (ends_comma _) (ends_comma _) h
          obtain ⟨hl, hen⟩ := ih
            (fun x hx y hy => hre x (List.mem_cons_of_mem _ hx) y (List.mem_cons_of_mem _ hy))
            (fun x hx => hs x (hx.imp (List.mem_cons_of_mem _) (List.mem_cons_of_mem _)))
            (List.cons.inj hr).2
          exact ⟨by rw [hab, hl], hen⟩

end

section

variable [JsonStrings]

theorem charsItems_eq_joined (items : List Json) : charsItems items = joined chars items := by
  induction items with
  | nil => rw [charsItems, joined]
  | cons it items ih =>
    cases items with
    | nil => rw [charsItems, joined]
    | cons next items => rw [charsItems, joined, ih]

/-- An entry of an object. -/
def entryChars (entry : String × Json) : List Char := quoted entry.1 ++ ':' :: entry.2.chars

theorem entryChars_append (entry : String × Json) (rest : List Char) :
    entryChars entry ++ rest = '"' :: (entryChars entry ++ rest).tail := by
  obtain ⟨tail, ht⟩ := JsonStrings.head_quoted entry.1
  rw [entryChars, ht]
  rfl

theorem charsEntries_eq_joined (entries : List (String × Json)) :
    charsEntries entries = joined entryChars entries := by
  induction entries with
  | nil => rw [charsEntries, joined]
  | cons en entries ih =>
    cases entries with
    | nil => rw [charsEntries, joined, entryChars]
    | cons next entries =>
      rw [charsEntries, joined, ih, entryChars, List.append_assoc, List.cons_append]

/-- An entry whose value is read in one way is read in one way. -/
theorem entryChars_append_inj {en e' : String × Json} (he : ReadsBack en.2)
    (he' : WellFormed e'.2) {r r' : List Char} (hr : Ends r)
    (hr' : Ends r') (h : entryChars en ++ r = entryChars e' ++ r') :
    en = e' ∧ r = r' := by
  unfold entryChars at h
  rw [List.append_assoc, List.append_assoc] at h
  obtain ⟨hk, hv⟩ := quoted_append_inj h
  obtain ⟨hv, hen⟩ := he he' hr hr' (List.cons.inj hv).2
  exact ⟨Prod.ext hk hv, hen⟩

/-- **A value is read in one way, whatever stands behind it.** -/
theorem readsBack {value : Json} (hv : WellFormed value) : ReadsBack value := by
  induction value using inductionOn with
  | null =>
    intro v' r r' hv' _ _ h
    have hk := kind_eq hv hv' h
    cases hv' with
    | null => exact ⟨rfl, List.append_cancel_left h⟩
    | bool v' => cases v' <;> cases hk
    | _ => cases hk
  | bool value =>
    intro v' r r' hv' _ _ h
    have hk := kind_eq hv hv' h
    cases hv' with
    | bool v' =>
      cases value <;> cases v' <;>
        first
        | exact ⟨rfl, List.append_cancel_left h⟩
        | cases hk
    | _ => cases value <;> cases hk
  | number text =>
    intro v' r r' hv' hr hr' h
    have hk := kind_eq hv hv' h
    cases hv' with
    | number _ hs' =>
      rw [chars, chars] at h
      obtain ⟨hte, he⟩ := ListRules.span_append_inj hv.signs hs' hr.not_sign hr'.not_sign h
      exact ⟨by rw [String.toList_injective hte], he⟩
    | bool v' => cases v' <;> cases hk
    | _ => cases hk
  | string text =>
    intro v' r r' hv' _ _ h
    have hk := kind_eq hv hv' h
    cases hv' with
    | string t' =>
      rw [chars, chars] at h
      obtain ⟨hte, he⟩ := quoted_append_inj h
      exact ⟨by rw [hte], he⟩
    | bool v' => cases v' <;> cases hk
    | _ => cases hk
  | array items ih =>
    intro v' r r' hv' _ _ h
    have hk := kind_eq hv hv' h
    cases hv' with
    | @array is' hi' =>
      rw [chars, chars, charsItems_eq_joined, charsItems_eq_joined, List.cons_append,
        List.cons_append, List.append_assoc, List.append_assoc] at h
      obtain ⟨hi, he⟩ := joined_append_inj (Or.inl rfl)
        (fun a ha b hb s t hs ht => ih a ha (hv.items a ha) (hi' b hb) hs ht)
        (fun a ha s => chars_head_ne (ha.elim (hv.items a) (hi' a)) s (by decide))
        (List.cons.inj h).2
      exact ⟨by rw [hi], he⟩
    | bool v' => cases v' <;> cases hk
    | _ => cases hk
  | object entries ih =>
    intro v' r r' hv' _ _ h
    have hk := kind_eq hv hv' h
    cases hv' with
    | @object es' hk' he' =>
      rw [chars, chars, charsEntries_eq_joined, charsEntries_eq_joined, List.cons_append,
        List.cons_append, List.append_assoc, List.append_assoc] at h
      obtain ⟨hen, he⟩ := joined_append_inj (Or.inr rfl) (fun a ha b hb s t hs ht =>
          entryChars_append_inj (ih a ha (hv.entries a ha)) (he' b hb) hs ht)
        (fun a _ s => ⟨'"', _, entryChars_append a s, by decide⟩) (List.cons.inj h).2
      exact ⟨by rw [hen], he⟩
    | bool v' => cases v' <;> cases hk
    | _ => cases hk

/-- **The printed text determines the value.** -/
theorem display_inj {value v' : Json} (hv : WellFormed value)
    (hv' : WellFormed v') (h : value.display = v'.display) : value = v' := by
  have hc := String.ofList_injective h
  exact (readsBack hv hv' ends_nil ends_nil (by rw [hc])).1

/-- Lists of texts and nulls are determined by their text. -/
theorem display_array_injective : Function.Injective fun texts : List (Option String) =>
    display (.array (texts.map ofOption)) := by
  have hv : ∀ texts : List (Option String), WellFormed (.array (texts.map ofOption)) := by
    intro texts
    refine .array fun item hi => ?_
    obtain ⟨text, -, rfl⟩ := List.mem_map.mp hi
    exact wellFormed_ofOption text
  intro texts texts' h
  have hi := Json.array.inj (display_inj (hv texts) (hv texts') h)
  exact List.map_injective_iff.mpr ofOption_injective hi

end

/-! ## The order of keys -/

/-- Equal up to the order of the keys of objects, at any depth. -/
inductive SameUpToKeyOrder : Json → Json → Prop
  | refl (value : Json) : SameUpToKeyOrder value value
  | symm {a b : Json} (h : SameUpToKeyOrder a b) : SameUpToKeyOrder b a
  | trans {a b c : Json} (hab : SameUpToKeyOrder a b) (hbc : SameUpToKeyOrder b c) :
    SameUpToKeyOrder a c
  | perm {entries entries' : List (String × Json)} (h : entries.Perm entries') :
    SameUpToKeyOrder (.object entries) (.object entries')
  | item (front : List Json) {a b : Json} (back : List Json) (h : SameUpToKeyOrder a b) :
    SameUpToKeyOrder (.array (front ++ a :: back)) (.array (front ++ b :: back))
  | entry (front : List (String × Json)) (key : String) {a b : Json}
    (back : List (String × Json)) (h : SameUpToKeyOrder a b) :
    SameUpToKeyOrder (.object (front ++ (key, a) :: back)) (.object (front ++ (key, b) :: back))

/-- Every item may be replaced. -/
theorem SameUpToKeyOrder.map_items {f : Json → Json} {items : List Json}
    (h : ∀ it ∈ items, SameUpToKeyOrder it (f it)) :
    ∀ fr, SameUpToKeyOrder (.array (fr ++ items)) (.array (fr ++ items.map f)) := by
  induction items with
  | nil => exact fun fr => .refl _
  | cons it items ih =>
    intro fr
    have hf := SameUpToKeyOrder.item fr items (h it List.mem_cons_self)
    have hr := ih (fun x hx => h x (List.mem_cons_of_mem _ hx)) (fr ++ [f it])
    rw [List.append_assoc, List.append_assoc] at hr
    exact hf.trans hr

/-- Every value of an object may be replaced. -/
theorem SameUpToKeyOrder.map_entries {f : Json → Json} {entries : List (String × Json)}
    (h : ∀ en ∈ entries, SameUpToKeyOrder en.2 (f en.2)) :
    ∀ fr, SameUpToKeyOrder (.object (fr ++ entries))
      (.object (fr ++ entries.map fun en => (en.1, f en.2))) := by
  induction entries with
  | nil => exact fun fr => .refl _
  | cons en entries ih =>
    intro fr
    have hf := SameUpToKeyOrder.entry fr en.1 entries (h en List.mem_cons_self)
    have hr := ih (fun x hx => h x (List.mem_cons_of_mem _ hx)) (fr ++ [(en.1, f en.2)])
    rw [List.append_assoc, List.append_assoc] at hr
    exact hf.trans hr

theorem wellFormed_array_iff {items : List Json} :
    WellFormed (.array items) ↔ ∀ it ∈ items, WellFormed it :=
  ⟨WellFormed.items, .array⟩

theorem wellFormed_object_iff {entries : List (String × Json)} : WellFormed (.object entries) ↔
      (entries.map Prod.fst).Nodup ∧ ∀ en ∈ entries, WellFormed en.2 :=
  ⟨fun h => ⟨h.keys, h.entries⟩, fun h => .object h.1 h.2⟩

theorem SameUpToKeyOrder.wellFormed_iff {a b : Json} (h : SameUpToKeyOrder a b) :
    WellFormed a ↔ WellFormed b := by
  induction h with
  | refl value => exact Iff.rfl
  | symm _ ih => exact ih.symm
  | trans _ _ iha ihb => exact iha.trans ihb
  | perm h =>
    rw [wellFormed_object_iff, wellFormed_object_iff, (h.map Prod.fst).nodup_iff]
    simp only [h.mem_iff]
  | item f ba _ ih =>
    simp only [wellFormed_array_iff, List.forall_mem_append, List.forall_mem_cons, ih]
  | entry f key ba _ ih =>
    simp only [wellFormed_object_iff, List.forall_mem_append, List.forall_mem_cons, ih,
      List.map_append, List.map_cons]

end Json

end Serde
