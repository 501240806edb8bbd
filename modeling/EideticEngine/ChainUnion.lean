/-
# Two chains and their common order

A list without repetitions is a chain: each element comes before the next.  Two chains have a
common order, a list without repetitions that holds both, unless a pair stands one way in the
first and the other way in the second; and this is when the steps of the two chains together
run in a cycle.
-/
import Mathlib

namespace ChainUnion

variable {α : Type*}

/-- One element is next to another in a chain. -/
def Next (l : List α) (a b : α) : Prop := [a, b] <:+: l

/-- A step of one of the chains. -/
def Step (l r : List α) (a b : α) : Prop := Next l a b ∨ Next r a b

/-- The steps of the two chains run in a cycle. -/
def HasCycle (l r : List α) : Prop := ∃ a, Relation.TransGen (Step l r) a a

/-- A pair stands one way in the first chain and the other way in the second. -/
def Opposed (l r : List α) : Prop := ∃ a b, [a, b].Sublist l ∧ [b, a].Sublist r

/-- A single order that satisfies both chains. -/
def IsCommonOrder (l r order : List α) : Prop :=
  order.Nodup ∧ l.Sublist order ∧ r.Sublist order

theorem Opposed.symm {l r : List α} (h : Opposed l r) : Opposed r l := by
  obtain ⟨a, b, hl, hr⟩ := h
  exact ⟨b, a, hr, hl⟩

/-! ## Opposed chains run in a cycle -/

/-- From the head of a chain every later element is reached. -/
theorem transGen_next_cons {a b : α} {l : List α} (hb : b ∈ l) :
    Relation.TransGen (Next (a :: l)) a b := by
  induction l generalizing a with
  | nil => exact absurd hb List.not_mem_nil
  | cons c l ih =>
    have hs : Next (a :: c :: l) a c := ⟨[], l, rfl⟩
    rcases List.mem_cons.mp hb with rfl | hb
    · exact Relation.TransGen.single hs
    · have hm : Next (c :: l) ≤ Next (a :: c :: l) := fun x y hxy =>
        hxy.trans (List.suffix_cons a (c :: l)).isInfix
      exact Relation.TransGen.head hs (Relation.TransGen.mono hm c b (ih hb))

/-- What comes earlier in a chain reaches what comes later. -/
theorem transGen_next {a b : α} {l : List α} (h : [a, b].Sublist l) :
    Relation.TransGen (Next l) a b := by
  induction l with
  | nil => cases h
  | cons c l ih =>
    have hm : Next l ≤ Next (c :: l) := fun x y hxy => hxy.trans (List.suffix_cons c l).isInfix
    cases h with
    | cons _ h => exact Relation.TransGen.mono hm a b (ih h)
    | cons_cons _ h => exact transGen_next_cons (List.singleton_sublist.mp h)

theorem Opposed.hasCycle {l r : List α} (h : Opposed l r) : HasCycle l r := by
  obtain ⟨a, b, hl, hr⟩ := h
  have hle : Next l ≤ Step l r := fun _ _ h => .inl h
  have hri : Next r ≤ Step l r := fun _ _ h => .inr h
  have hab := Relation.TransGen.mono hle a b (transGen_next hl)
  have hba := Relation.TransGen.mono hri b a (transGen_next hr)
  exact ⟨a, hab.trans hba⟩

/-! ## A cycle has no common order -/

variable [DecidableEq α]

/-- In a chain the earlier of two elements has the lower position. -/
theorem idxOf_lt_of_sublist {a b : α} {l : List α} (hl : l.Nodup) (h : [a, b].Sublist l) :
    l.idxOf a < l.idxOf b := by
  induction l with
  | nil => cases h
  | cons c l ih =>
    obtain ⟨hc, hl⟩ := List.nodup_cons.mp hl
    cases h with
    | cons _ h =>
      have ha : a ∈ l := h.subset List.mem_cons_self
      have hb : b ∈ l := h.subset (List.mem_cons_of_mem a List.mem_cons_self)
      have hca : c ≠ a := fun heq => hc (heq ▸ ha)
      have hcb : c ≠ b := fun heq => hc (heq ▸ hb)
      rw [List.idxOf_cons_ne _ hca, List.idxOf_cons_ne _ hcb]
      exact Nat.succ_lt_succ (ih hl h)
    | cons_cons _ h =>
      have hb : b ∈ l := List.singleton_sublist.mp h
      have hab : a ≠ b := fun heq => hc (heq ▸ hb)
      rw [List.idxOf_cons_self, List.idxOf_cons_ne _ hab]
      exact Nat.succ_pos _

/-- The element with the lower position comes earlier. -/
theorem sublist_of_idxOf_lt {a b : α} {l : List α} (hb : b ∈ l) (h : l.idxOf a < l.idxOf b) :
    [a, b].Sublist l := by
  induction l with
  | nil => exact absurd hb List.not_mem_nil
  | cons c l ih =>
    by_cases hca : c = a
    · subst hca
      have hcb : c ≠ b := by
        rintro rfl
        exact absurd h (lt_irrefl _)
      have hbl : b ∈ l := (List.mem_cons.mp hb).resolve_left (Ne.symm hcb)
      exact (List.singleton_sublist.mpr hbl).cons_cons c
    · have hcb : c ≠ b := by
        rintro rfl
        rw [List.idxOf_cons_self] at h
        omega
      rw [List.idxOf_cons_ne _ hca, List.idxOf_cons_ne _ hcb] at h
      have hbl : b ∈ l := (List.mem_cons.mp hb).resolve_left (Ne.symm hcb)
      exact (ih hbl (Nat.lt_of_succ_lt_succ h)).cons c

theorem HasCycle.not_isCommonOrder {l r : List α} (h : HasCycle l r) (o : List α) :
    ¬ IsCommonOrder l r o := by
  rintro ⟨ho, hl, hr⟩
  have hs : ∀ a b, Step l r a b → o.idxOf a < o.idxOf b := by
    rintro a b (hab | hab)
    · exact idxOf_lt_of_sublist ho (hab.sublist.trans hl)
    · exact idxOf_lt_of_sublist ho (hab.sublist.trans hr)
  obtain ⟨a, hc⟩ := h
  have hlt : ∀ b, Relation.TransGen (Step l r) a b → o.idxOf a < o.idxOf b := by
    intro b hab
    induction hab with
    | single hab => exact hs _ _ hab
    | tail _ hbc ih => exact ih.trans (hs _ _ hbc)
  exact lt_irrefl _ (hlt a hc)

/-! ## Chains that are not opposed have a common order -/

omit [DecidableEq α] in
/-- Element by element of the first chain: what the second has before an element goes before it. -/
theorem exists_isCommonOrder {l r : List α} (hl : l.Nodup) (hr : r.Nodup) (h : ¬ Opposed l r) :
    ∃ o, IsCommonOrder l r o ∧ ∀ a ∈ o, a ∈ l ∨ a ∈ r := by
  induction l generalizing r with
  | nil => exact ⟨r, ⟨hr, List.nil_sublist r, List.Sublist.refl r⟩, fun a ha => .inr ha⟩
  | cons c l ih =>
    obtain ⟨hc, hl⟩ := List.nodup_cons.mp hl
    by_cases hcr : c ∈ r
    · obtain ⟨be, after, rfl⟩ := List.append_of_mem hcr
      obtain ⟨hbe, haf, hap⟩ := List.nodup_append.mp hr
      obtain ⟨hca, haf⟩ := List.nodup_cons.mp haf
      have hre : ¬ Opposed l after := by
        rintro ⟨a, b, hab, hba⟩
        exact h ⟨a, b, hab.cons c,
          hba.trans ((List.suffix_append (be ++ [c]) after).sublist.trans (by simp))⟩
      obtain ⟨o, ⟨ho, hlo, hro⟩, hm⟩ := ih hl haf hre
      -- what comes before the element in the second chain is not in the first one
      have hn : ∀ a ∈ be, a ∉ l := by
        intro a ha hal
        refine h ⟨c, a, (List.singleton_sublist.mpr hal).cons_cons c, ?_⟩
        exact (List.singleton_sublist.mpr ha).append (List.singleton_sublist.mpr List.mem_cons_self)
      refine ⟨be ++ c :: o, ⟨?_, ?_, ?_⟩, ?_⟩
      · rw [List.nodup_append]
        refine ⟨hbe, List.nodup_cons.mpr ⟨fun hco => ?_, ho⟩, ?_⟩
        · rcases hm c hco with hin | hin
          · exact hc hin
          · exact hca hin
        · intro a ha b hb heq
          subst heq
          rcases List.mem_cons.mp hb with rfl | hb
          · exact hap a ha a List.mem_cons_self rfl
          · rcases hm a hb with hin | hin
            · exact hn a ha hin
            · exact hap a ha a (List.mem_cons_of_mem c hin) rfl
      · exact (hlo.cons_cons c).trans (List.sublist_append_right be (c :: o))
      · exact (List.Sublist.refl be).append (hro.cons_cons c)
      · intro a ha
        simp only [List.mem_append, List.mem_cons] at ha ⊢
        rcases ha with ha | rfl | ha
        · exact .inr (.inl ha)
        · exact .inl (.inl rfl)
        · exact (hm a ha).imp .inr fun hin => .inr (.inr hin)
    · have hre : ¬ Opposed l r := by
        rintro ⟨a, b, hab, hba⟩
        exact h ⟨a, b, hab.cons c, hba⟩
      obtain ⟨o, ⟨ho, hlo, hro⟩, hm⟩ := ih hl hr hre
      refine ⟨c :: o, ⟨List.nodup_cons.mpr ⟨fun hco => ?_, ho⟩, hlo.cons_cons c, hro.cons c⟩, ?_⟩
      · rcases hm c hco with hin | hin
        · exact hc hin
        · exact hcr hin
      · intro a ha
        rcases List.mem_cons.mp ha with rfl | ha
        · exact .inl List.mem_cons_self
        · exact (hm a ha).imp_left (List.mem_cons_of_mem c)

omit [DecidableEq α] in
/-- **Two chains are opposed where their steps run in a cycle.** -/
theorem opposed_iff_hasCycle {l r : List α} (hl : l.Nodup) (hr : r.Nodup) :
    Opposed l r ↔ HasCycle l r := by
  classical
  refine ⟨Opposed.hasCycle, fun hc => ?_⟩
  by_contra hnot
  obtain ⟨o, ho, -⟩ := exists_isCommonOrder hl hr hnot
  exact hc.not_isCommonOrder o ho

omit [DecidableEq α] in
/-- **Two chains are opposed where no single order satisfies both.** -/
theorem opposed_iff_no_common_order {l r : List α} (hl : l.Nodup) (hr : r.Nodup) :
    Opposed l r ↔ ¬ ∃ o, IsCommonOrder l r o := by
  classical
  constructor
  · rintro hop ⟨o, ho⟩
    exact hop.hasCycle.not_isCommonOrder o ho
  · intro hn
    by_contra hnot
    obtain ⟨o, ho, -⟩ := exists_isCommonOrder hl hr hnot
    exact hn ⟨o, ho⟩

end ChainUnion
