/-
# Self-delimiting codes

A code is self-delimiting when the encoding at the front of a byte string and the rest of the
string can be told apart in one way only.  Numbers of a fixed width, texts behind their length,
optional values behind a flag and lists behind their length are self-delimiting, and so is a
sequence of self-delimiting codes: one field after another is taken off the front.
-/
import EideticEngine.LengthPrefixed

namespace PrefixCode

variable {α β : Type*}

/-- Two encodings at the front of one string are of one value, and leave one rest. -/
def SelfDelimiting (Fits : α → Prop) (encode : α → List UInt8) : Prop :=
  ∀ ⦃a b : α⦄, Fits a → Fits b → ∀ ⦃s t : List UInt8⦄, encode a ++ s = encode b ++ t →
    a = b ∧ s = t

variable {Fits : α → Prop} {encode : α → List UInt8}

/-- Encodings of one width. -/
theorem selfDelimiting_of_width (w : ℕ) (hw : ∀ a, (encode a).length = w)
    (hi : ∀ a b, Fits a → Fits b → encode a = encode b → a = b) :
    SelfDelimiting Fits encode := by
  intro a b ha hb s t h
  obtain ⟨hc, hr⟩ := List.append_inj h (by rw [hw, hw])
  exact ⟨hi a b ha hb hc, hr⟩

/-- A little-endian number. -/
theorem selfDelimiting_leBytes (w : ℕ) : SelfDelimiting (· < 256 ^ w) (leBytes w) := by
  refine selfDelimiting_of_width w (length_leBytes w) ?_
  intro m n hm hn h
  rw [← leValue_leBytes_of_lt hm, h, leValue_leBytes_of_lt hn]

/-- An injective map into the bytes, behind the length in eight bytes. -/
theorem selfDelimiting_prefixed {bytes : α → List UInt8} (hi : Function.Injective bytes) :
    SelfDelimiting (fun a => (bytes a).length < 2 ^ 64)
      fun a => leBytes 8 (bytes a).length ++ bytes a := by
  intro a b ha hb s t h
  obtain ⟨hby, hr⟩ := LengthPrefixed.LengthCode.le64.field_append_inj ha hb h
  exact ⟨hi hby, hr⟩

/-- A value behind the flag one, or the flag zero alone. -/
theorem SelfDelimiting.optional (hc : SelfDelimiting Fits encode)
    {eo : Option α → List UInt8} (hn : eo none = [0])
    (hs : ∀ a, eo (some a) = 1 :: encode a) :
    SelfDelimiting (fun o => ∀ a ∈ o, Fits a) eo := by
  intro o o' ho ho' s t h
  cases o with
  | none =>
    cases o' with
    | none =>
      rw [hn] at h
      exact ⟨rfl, List.append_cancel_left h⟩
    | some b =>
      rw [hn, hs] at h
      cases List.head_eq_of_cons_eq h
  | some a =>
    cases o' with
    | none =>
      rw [hn, hs] at h
      cases List.head_eq_of_cons_eq h
    | some b =>
      rw [hs, hs, List.cons_append, List.cons_append, List.cons.injEq] at h
      obtain ⟨hab, hr⟩ := hc (ho a rfl) (ho' b rfl) h.2
      exact ⟨congrArg some hab, hr⟩

/-- As many values as another list has, one after another. -/
theorem SelfDelimiting.flatMap (hc : SelfDelimiting Fits encode) :
    ∀ {l l' : List α}, l.length = l'.length → (∀ a ∈ l, Fits a) → (∀ a ∈ l', Fits a) →
      ∀ {s t : List UInt8}, l.flatMap encode ++ s = l'.flatMap encode ++ t → l = l' ∧ s = t
  | [], [], _, _, _, _, _, h => ⟨rfl, h⟩
  | [], _ :: _, hle, _, _, _, _, _ => by cases hle
  | _ :: _, [], hle, _, _, _, _, _ => by cases hle
  | a :: l, b :: l', hle, hl, hl', s, t, h => by
    rw [List.flatMap_cons, List.flatMap_cons, List.append_assoc, List.append_assoc] at h
    obtain ⟨hab, hr⟩ := hc (hl a List.mem_cons_self) (hl' b List.mem_cons_self) h
    obtain ⟨ht, he⟩ := hc.flatMap (Nat.succ.inj hle) (fun x hx => hl x (List.mem_cons_of_mem _ hx))
      (fun x hx => hl' x (List.mem_cons_of_mem _ hx)) hr
    exact ⟨by rw [hab, ht], he⟩

/-- A list behind the number of its elements in eight bytes. -/
theorem SelfDelimiting.list (hc : SelfDelimiting Fits encode) :
    SelfDelimiting (fun l : List α => l.length < 2 ^ 64 ∧ ∀ a ∈ l, Fits a)
      fun l => leBytes 8 l.length ++ l.flatMap encode := by
  intro l l' hl hl' s t h
  dsimp only at h
  rw [List.append_assoc, List.append_assoc] at h
  have hp : (256 : ℕ) ^ 8 = 2 ^ 64 := by norm_num
  obtain ⟨hle, hr⟩ := selfDelimiting_leBytes 8 (hp ▸ hl.1) (hp ▸ hl'.1) h
  exact hc.flatMap hle hl.2 hl'.2 hr

/-- A value of several fields, when the fields determine it. -/
theorem SelfDelimiting.pair {F' : β → Prop} {e' : β → List UInt8}
    (hc : SelfDelimiting Fits encode) (hc' : SelfDelimiting F' e') :
    SelfDelimiting (fun p : α × β => Fits p.1 ∧ F' p.2) fun p => encode p.1 ++ e' p.2 := by
  intro p q hp hq s t h
  dsimp only at h
  rw [List.append_assoc, List.append_assoc] at h
  obtain ⟨hf, hr⟩ := hc hp.1 hq.1 h
  obtain ⟨hs, he⟩ := hc' hp.2 hq.2 hr
  exact ⟨Prod.ext hf hs, he⟩

/-- Fields of a record, when they determine it. -/
theorem SelfDelimiting.comap {f : β → α} (hc : SelfDelimiting Fits encode)
    (hf : Function.Injective f) : SelfDelimiting (fun b => Fits (f b)) fun b => encode (f b) := by
  intro a b ha hb s t h
  obtain ⟨hab, hr⟩ := hc ha hb h
  exact ⟨hf hab, hr⟩

end PrefixCode
