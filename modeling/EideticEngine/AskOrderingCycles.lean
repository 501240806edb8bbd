/-
# Conflicts of ordering claims

The commands of a claim of `src/core/ask_ordering.rs` are distinct.  So two claims conflict exactly
where the next steps of the two lists together run in a cycle, that is, where no single order
satisfies both.  Claims agree when their lists are the same, and texts that are no claims when
their literals do.
-/
import EideticEngine.AskLiterals
import EideticEngine.ChainUnion
import EideticEngine.ListRules

namespace Ask

open ChainUnion (HasCycle IsCommonOrder Opposed)

/-- `compatible` of the ordering constraints; `none` stands for a panic. -/
def orderingCompatible (rules : AskRules) (left right : String) : Option Bool :=
  match orderingClaim left, orderingClaim right with
  | some left, some right => some (left = right)
  | none, none => literalsCompatible rules left right
  | _, _ => some false

/-! ## Opposite pairs -/

/-- The loop over the pairs finds an opposite one where there is one. -/
theorem hasOppositePair_iff {left right : List String} (hr : right.Nodup) :
    hasOppositePair right left = true ↔ Opposed left right := by
  induction left with
  | nil =>
    refine ⟨fun h => Bool.noConfusion h, ?_⟩
    rintro ⟨a, b, hab, -⟩
    cases hab
  | cons be l ih =>
    unfold hasOppositePair
    rw [Bool.or_eq_true, ih]
    constructor
    · rintro (hpa | ⟨a, b, hab, hba⟩)
      · cases hbe : right.idxOf? be with
        | none => rw [hbe] at hpa; cases hpa
        | some rb =>
          rw [hbe, Option.any_some, List.any_eq_true] at hpa
          obtain ⟨after, ha, hl⟩ := hpa
          cases hp : right.idxOf? after with
          | none => rw [hp] at hl; cases hl
          | some ra =>
            rw [hp, Option.any_some, decide_eq_true_eq] at hl
            obtain ⟨hm, rfl⟩ := ListRules.idxOf?_eq_some_iff_idxOf.mp hbe
            obtain ⟨-, rfl⟩ := ListRules.idxOf?_eq_some_iff_idxOf.mp hp
            exact ⟨be, after, (List.singleton_sublist.mpr ha).cons_cons be,
              ChainUnion.sublist_of_idxOf_lt hm hl⟩
      · exact ⟨a, b, hab.cons be, hba⟩
    · rintro ⟨a, b, hab, hba⟩
      cases hab with
      | cons _ hab => exact .inr ⟨a, b, hab, hba⟩
      | cons_cons _ hab =>
        left
        have hb : b ∈ l := List.singleton_sublist.mp hab
        have hlt := ChainUnion.idxOf_lt_of_sublist hr hba
        have hbr : b ∈ right := hba.subset List.mem_cons_self
        have har : be ∈ right := hba.subset (List.mem_cons_of_mem b List.mem_cons_self)
        rw [ListRules.idxOf?_eq_some_iff_idxOf.mpr ⟨har, rfl⟩, Option.any_some, List.any_eq_true]
        refine ⟨b, hb, ?_⟩
        rw [ListRules.idxOf?_eq_some_iff_idxOf.mpr ⟨hbr, rfl⟩, Option.any_some]
        exact decide_eq_true hlt

/-- **Ordering claims conflict exactly when they cannot both be followed.** For lists of any
length without repetitions, and so for every two texts that parse, a conflict is a cycle in the
next steps of both lists, and it is the lack of an order that satisfies both.  Conflict is
symmetric, and texts that agree do not conflict. -/
theorem ordering_conflict_iff_cycle (rules : AskRules) :
    (∀ left right : List String, left.Nodup → right.Nodup →
      (hasOppositePair right left = true ↔ HasCycle left right)
        ∧ (hasOppositePair right left = true ↔ ¬ ∃ order, IsCommonOrder left right order))
      ∧ (∀ (left right : String) (first second : OrderingClaim),
        orderingClaim left = some first → orderingClaim right = some second →
        first.operations.Nodup ∧ second.operations.Nodup ∧ (orderingConflicts left right = true
            ↔ HasCycle first.operations second.operations)
          ∧ (orderingConflicts left right = true
            ↔ ¬ ∃ order, IsCommonOrder first.operations second.operations order))
      ∧ (∀ left right, orderingConflicts left right = orderingConflicts right left)
      ∧ ∀ left right, orderingCompatible rules left right = some true →
        orderingConflicts left right = false := by
  have hli : ∀ left right : List String, left.Nodup → right.Nodup →
      (hasOppositePair right left = true ↔ HasCycle left right)
        ∧ (hasOppositePair right left = true ↔ ¬ ∃ order, IsCommonOrder left right order) := by
    intro left right hl hr
    rw [hasOppositePair_iff hr]
    exact ⟨ChainUnion.opposed_iff_hasCycle hl hr, ChainUnion.opposed_iff_no_common_order hl hr⟩
  refine ⟨hli, ?_, ?_, ?_⟩
  · intro left right first second hf hs
    have hl := orderingClaim_nodup hf
    have hr := orderingClaim_nodup hs
    have hco : orderingConflicts left right
        = hasOppositePair second.operations first.operations := by
      unfold orderingConflicts
      rw [hf, hs]
    rw [hco]
    exact ⟨hl, hr, hli _ _ hl hr⟩
  · intro left right
    unfold orderingConflicts
    cases hf : orderingClaim left with
    | none => cases orderingClaim right <;> rfl
    | some first =>
      cases hs : orderingClaim right with
      | none => rfl
      | some second =>
        simp only
        rw [Bool.eq_iff_iff, hasOppositePair_iff (orderingClaim_nodup hs),
          hasOppositePair_iff (orderingClaim_nodup hf)]
        exact ⟨Opposed.symm, Opposed.symm⟩
  · intro left right hc
    unfold orderingConflicts
    unfold orderingCompatible at hc
    cases hf : orderingClaim left with
    | none => rfl
    | some first =>
      cases hs : orderingClaim right with
      | none => rfl
      | some second =>
        rw [hf, hs] at hc
        have hsa : first = second := by simpa using hc
        subst hsa
        have hn := orderingClaim_nodup hf
        rw [Bool.eq_false_iff, Ne, hasOppositePair_iff hn]
        -- the same list is an order for both
        have ho : IsCommonOrder first.operations first.operations first.operations :=
          ⟨hn, List.Sublist.refl _, List.Sublist.refl _⟩
        rw [ChainUnion.opposed_iff_no_common_order hn hn, not_not]
        exact ⟨first.operations, ho⟩

end Ask
