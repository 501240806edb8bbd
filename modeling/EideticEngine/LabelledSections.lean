/-
# Sections behind labels

Lists of tokens are written one behind another, each but the first behind its label.  Labels are
tokens themselves, so the sections can be read off the whole only when no section holds its own
label or the next one.  This is exact: `layout_inj` and `exists_layout_eq_of_not_clear`.
-/
import Mathlib.Data.List.Basic
import Mathlib.Data.List.Chain

namespace LabelledSections

variable {α : Type*}

/-- The first section, and the others behind their labels. -/
def layout (head : List α) : List (α × List α) → List α
  | [] => head
  | (label, next) :: rest => head ++ label :: layout next rest

/-- No section holds its own label or the next one. -/
def Clear (head : List α) : List (α × List α) → Prop
  | [] => True
  | (label, next) :: rest => label ∉ head ∧ label ∉ next ∧ Clear next rest

theorem forall_mem_layout {p : α → Prop} {r : List (α × List α)} : ∀ {head : List α},
    (∀ token ∈ layout head r, p token) ↔
      (∀ token ∈ head, p token) ∧ ∀ s ∈ r, p s.1 ∧ ∀ token ∈ s.2, p token := by
  induction r with
  | nil =>
    intro head
    exact (and_iff_left (fun _ hs => absurd hs List.not_mem_nil)).symm
  | cons s r ih =>
    intro head
    rw [layout, List.forall_mem_append, List.forall_mem_cons, ih, List.forall_mem_cons, and_assoc]

/-- Behind a label that its section does not hold, the label is not found again at a place from
which the other labels could still be read.  By induction on the labels: the place would be behind
the next one, which its own section does not hold either. -/
theorem layout_ne {rest : List (α × List α)} : ∀ {label : α} {next next' before : List α}
    {rest' : List (α × List α)}, label ∉ next → Clear next rest →
      (label :: rest.map Prod.fst).IsChain (· ≠ ·) → rest'.map Prod.fst = rest.map Prod.fst →
      layout next rest ≠ before ++ label :: layout next' rest' := by
  induction rest with
  | nil =>
    intro label next next' before rest' hnext _ _ _ h
    refine hnext ?_
    rw [show next = _ from h]
    exact List.mem_append_right _ List.mem_cons_self
  | cons s rest ih =>
    intro label next next' before rest' hnext hclear hchain hlabels h
    obtain ⟨label₂, third⟩ := s
    obtain ⟨⟨label', third'⟩, rest', rfl, hlabel, hrest⟩ := List.map_eq_cons_iff.mp hlabels
    obtain rfl : label' = label₂ := hlabel
    obtain ⟨-, hthird, hclear⟩ := hclear
    obtain ⟨hne, hchain⟩ := List.isChain_cons_cons.mp hchain
    rcases List.append_eq_append_iff.mp h with ⟨x, hbefore, hx⟩ | ⟨x, hhead, hx⟩
    · cases x with
      | nil => exact hne (List.cons.inj hx).1.symm
      | cons y x =>
        have htail : layout third rest
            = (x ++ label :: next') ++ label' :: layout third' rest' := by
          rw [(List.cons.inj hx).2, List.append_assoc]
          rfl
        exact ih hthird hclear hchain hrest htail
    · cases x with
      | nil => exact hne (List.cons.inj hx).1
      | cons y x =>
        refine hnext ?_
        rw [hhead, (List.cons.inj hx).1]
        exact List.mem_append_right _ List.mem_cons_self

/-- **Clear sections are read back.** -/
theorem layout_inj {rest : List (α × List α)} : ∀ {head head' : List α}
    {rest' : List (α × List α)}, Clear head rest → (rest.map Prod.fst).IsChain (· ≠ ·) →
      rest'.map Prod.fst = rest.map Prod.fst → layout head rest = layout head' rest' →
      head = head' ∧ rest = rest' := by
  induction rest with
  | nil =>
    intro head head' rest' _ _ hlabels h
    obtain rfl := List.map_eq_nil_iff.mp hlabels
    exact ⟨h, rfl⟩
  | cons s rest ih =>
    intro head head' rest' hclear hchain hlabels h
    obtain ⟨label, next⟩ := s
    obtain ⟨⟨label', next'⟩, rest', rfl, hlabel, hrest⟩ := List.map_eq_cons_iff.mp hlabels
    obtain rfl : label' = label := hlabel
    obtain ⟨hhead, hnext, hclear⟩ := hclear
    have htail : layout next rest = layout next' rest' → next = next' ∧ rest = rest' :=
      ih hclear hchain.tail hrest
    rcases List.append_eq_append_iff.mp h with ⟨x, hx', hx⟩ | ⟨x, hx', hx⟩
    · cases x with
      | nil =>
        obtain ⟨rfl, rfl⟩ := htail (List.cons.inj hx).2
        exact ⟨(hx'.trans (List.append_nil _)).symm, rfl⟩
      | cons y x =>
        exact absurd (List.cons.inj hx).2 (layout_ne hnext hclear hchain hrest)
    · cases x with
      | nil =>
        obtain ⟨rfl, rfl⟩ := htail (List.cons.inj hx).2.symm
        exact ⟨hx'.trans (List.append_nil _), rfl⟩
      | cons y x =>
        refine absurd ?_ hhead
        rw [hx', (List.cons.inj hx).1]
        exact List.mem_append_right _ List.mem_cons_self

/-- **Other sections are not.**  A label inside its section, or inside the section before it, can be
taken for the label itself. -/
theorem exists_layout_eq_of_not_clear {r : List (α × List α)} : ∀ {head : List α},
    ¬ Clear head r → ∃ h' r', r'.map Prod.fst = r.map Prod.fst ∧
      layout h' r' = layout head r ∧ ¬ (head = h' ∧ r = r') := by
  induction r with
  | nil =>
    intro head h
    exact absurd trivial h
  | cons s r ih =>
    intro head h
    obtain ⟨l, next⟩ := s
    by_cases hh : l ∈ head
    · obtain ⟨a, b, rfl⟩ := List.append_of_mem hh
      refine ⟨a, (l, b ++ l :: next) :: r, rfl, ?_, ?_⟩
      · cases r with
        | nil => simp only [layout, List.append_assoc, List.cons_append]
        | cons s r => simp only [layout, List.append_assoc, List.cons_append]
      · rintro ⟨hl, -⟩
        have := congrArg List.length hl
        simp only [List.length_append, List.length_cons] at this
        omega
    by_cases hn : l ∈ next
    · obtain ⟨a, b, rfl⟩ := List.append_of_mem hn
      refine ⟨head ++ l :: a, (l, b) :: r, rfl, ?_, ?_⟩
      · cases r with
        | nil => simp only [layout, List.append_assoc, List.cons_append]
        | cons s r => simp only [layout, List.append_assoc, List.cons_append]
      · rintro ⟨hl, -⟩
        have := congrArg List.length hl
        simp only [List.length_append, List.length_cons] at this
        omega
    · have hc : ¬ Clear next r := fun hc => h ⟨hh, hn, hc⟩
      obtain ⟨n', r', hla, hlay, hne⟩ := ih hc
      refine ⟨head, (l, n') :: r', ?_, ?_, ?_⟩
      · rw [List.map_cons, List.map_cons, hla]
      · rw [layout, layout, hlay]
      · rintro ⟨-, heq⟩
        obtain ⟨hs, hr⟩ := List.cons.inj heq
        exact hne ⟨congrArg Prod.snd hs, hr⟩

end LabelledSections
