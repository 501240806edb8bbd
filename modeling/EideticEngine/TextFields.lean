/-
# Labelled text fields

A text is written behind its label and its length in bytes, as `label#length:text;`.
Labels without `#` keep such fields apart: the concatenation of fields determines
every label and every text (`concat_inj`), which is what makes a hash over the
concatenation a hash over the fields.
-/
import Std.Data.String.ToNat
import EideticEngine.RustText

namespace TextFields

/-- A text behind its label and its length. -/
def field (label text : String) : String :=
  label ++ "#" ++ toString text.utf8ByteSize ++ ":" ++ text ++ ";"

/-- Fields one after the other. -/
def concat (fields : List (String × String)) : String :=
  fields.foldr (fun entry rest => field entry.1 entry.2 ++ rest) ""

@[simp] theorem concat_nil : concat [] = "" := rfl

theorem concat_cons (l text : String) (fields : List (String × String)) :
    concat ((l, text) :: fields) = field l text ++ concat fields := rfl

theorem concat_append (fields fs' : List (String × String)) :
    concat (fields ++ fs') = concat fields ++ concat fs' := by
  induction fields with
  | nil => simp
  | cons en fields ih =>
    obtain ⟨l, text⟩ := en
    rw [List.cons_append, concat_cons, concat_cons, ih, String.append_assoc]

/-- A list is split at the first place where a separator stands. -/
theorem append_cons_inj {α : Type*} {sep : α} {a b s t : List α} (ha : sep ∉ a) (hb : sep ∉ b)
    (h : a ++ sep :: s = b ++ sep :: t) : a = b ∧ s = t := by
  induction a generalizing b with
  | nil =>
    cases b with
    | nil => exact ⟨rfl, (List.cons.inj h).2⟩
    | cons y b =>
      rw [List.nil_append, List.cons_append] at h
      rw [← (List.cons.inj h).1] at hb
      exact absurd List.mem_cons_self hb
  | cons x a ih =>
    cases b with
    | nil =>
      rw [List.nil_append, List.cons_append] at h
      rw [(List.cons.inj h).1] at ha
      exact absurd List.mem_cons_self ha
    | cons y b =>
      rw [List.cons_append, List.cons_append] at h
      obtain ⟨hxy, hr⟩ := List.cons.inj h
      obtain ⟨hab, hst⟩ := ih (fun hin => ha (List.mem_cons_of_mem x hin))
        (fun hin => hb (List.mem_cons_of_mem y hin)) hr
      exact ⟨by rw [hxy, hab], hst⟩

/-- Texts of one length at the front are found again. -/
theorem append_inj_of_size {a b s t : String} (hsi : a.utf8ByteSize = b.utf8ByteSize)
    (h : a ++ s = b ++ t) : a = b ∧ s = t := by
  have hb : RustText.asBytes a ++ RustText.asBytes s
      = RustText.asBytes b ++ RustText.asBytes t := by
    rw [← RustText.asBytes_append, ← RustText.asBytes_append, h]
  obtain ⟨ha, hs⟩ := List.append_inj hb (by
    rw [RustText.length_asBytes, RustText.length_asBytes, hsi])
  exact ⟨RustText.asBytes_injective ha, RustText.asBytes_injective hs⟩

theorem colon_notMem_repr (n : ℕ) : ':' ∉ n.repr.toList := by
  intro hm
  rw [Nat.toList_repr] at hm
  have hd := Nat.isDigit_of_mem_toDigits (by decide) (by decide) hm
  exact absurd hd (by decide)

/-- A field at the front is found again, and with it the rest. -/
theorem field_append_inj {l l' text t' r r' : String} (hla : '#' ∉ l.toList) (hl' : '#' ∉ l'.toList)
    (h : field l text ++ r = field l' t' ++ r') :
    l = l' ∧ text = t' ∧ r = r' := by
  have hc : l.toList ++ '#' :: ((text.utf8ByteSize.repr).toList
        ++ ':' :: (text ++ (";" ++ r)).toList)
      = l'.toList ++ '#' :: ((t'.utf8ByteSize.repr).toList
        ++ ':' :: (t' ++ (";" ++ r')).toList) := by
    have := congrArg String.toList h
    unfold field at this
    simpa using this
  obtain ⟨hl, ht⟩ := append_cons_inj hla hl' hc
  obtain ⟨hs, ht⟩ := append_cons_inj (colon_notMem_repr _) (colon_notMem_repr _) ht
  have hsi := Nat.repr_injective (String.toList_injective hs)
  obtain ⟨hte, hr⟩ := append_inj_of_size hsi (String.toList_injective ht)
  refine ⟨String.toList_injective hl, hte, ?_⟩
  exact (append_inj_of_size rfl hr).2

theorem field_ne_empty (l text r : String) : field l text ++ r ≠ "" := by
  intro h
  have hl := congrArg (fun s : String => s.toList.length) h
  unfold field at hl
  simp at hl

/-- **The concatenation determines the fields.** -/
theorem concat_inj {fields : List (String × String)} :
    ∀ {fs' : List (String × String)}, (∀ en ∈ fields, '#' ∉ en.1.toList) →
      (∀ en ∈ fs', '#' ∉ en.1.toList) → concat fields = concat fs' →
      fields = fs' := by
  induction fields with
  | nil =>
    intro fs' _ _ h
    cases fs' with
    | nil => rfl
    | cons en fs' => exact absurd h.symm (field_ne_empty _ _ _)
  | cons en fields ih =>
    intro fs' hl hl' h
    cases fs' with
    | nil => exact absurd h (field_ne_empty _ _ _)
    | cons e' fs' =>
      obtain ⟨hla, ht, hr⟩ := field_append_inj (hl en List.mem_cons_self)
        (hl' e' List.mem_cons_self) h
      rw [Prod.ext hla ht, ih (fun e he => hl e (List.mem_cons_of_mem _ he))
        (fun e he => hl' e (List.mem_cons_of_mem _ he)) hr]

end TextFields
