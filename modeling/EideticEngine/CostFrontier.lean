/-
# Greedy choice from bounded frontiers

Items with costs are taken in their order, whatever still fits into a limit.  Of the items of
one cost those that are taken come first, because what fits later fits earlier, and there are no
more of them than fit.  So it is enough to keep, for each cost, the first items that would fit
if nothing else were taken.
-/
import EideticEngine.BestPerKey

namespace CostFrontier

open BestPerKey (IsFirst)
open BoundedInsert (StrictlySorted)

variable {α : Type*} {cmp : α → α → Ordering} {cost : α → ℕ} {limit : ℕ}

/-! ## The greedy choice -/

/-- Take what still fits, in order. -/
def greedy (cost : α → ℕ) (limit : ℕ) : ℕ → List α → List α
  | _, [] => []
  | used, a :: l =>
    if used + cost a ≤ limit then a :: greedy cost limit (used + cost a) l
    else greedy cost limit used l

/-- The greedy choice keeps the order. -/
theorem greedy_sublist (used : ℕ) (l : List α) : (greedy cost limit used l).Sublist l := by
  fun_induction greedy cost limit used l with
  | case1 => exact List.Sublist.refl _
  | case2 used a l hf ih => exact ih.cons_cons a
  | case3 used a l hf ih => exact ih.cons a

/-- The total cost stays within the limit. -/
theorem sum_greedy_le {used : ℕ} (hu : used ≤ limit) (l : List α) :
    used + ((greedy cost limit used l).map cost).sum ≤ limit := by
  fun_induction greedy cost limit used l with
  | case1 => simpa using hu
  | case2 used a l hf ih =>
    have hr := ih hf
    rw [List.map_cons, List.sum_cons]
    omega
  | case3 used a l hf ih => exact ih hu

/-- Leaving out items that are not taken changes nothing. -/
theorem greedy_filter {p : α → Bool} {used : ℕ} {l : List α}
    (h : ∀ a ∈ greedy cost limit used l, p a = true) :
    greedy cost limit used (l.filter p) = greedy cost limit used l := by
  fun_induction greedy cost limit used l with
  | case1 => rfl
  | case2 used a l hf ih =>
    rw [List.filter_cons_of_pos (h a List.mem_cons_self), greedy, if_pos hf,
      ih fun b hb => h b (List.mem_cons_of_mem a hb)]
  | case3 used a l hf ih =>
    rw [List.filter_cons]
    split
    · rw [greedy, if_neg hf, ih h]
    · exact ih h

/-- An item that is taken fits together with all earlier items of its cost. -/
theorem le_limit_of_mem_greedy {be after : List α} {a : α} {used : ℕ}
    (hn : (be ++ a :: after).Nodup)
    (h : a ∈ greedy cost limit used (be ++ a :: after)) :
    used + (be.countP (fun b => cost b = cost a) + 1) * cost a ≤ limit := by
  induction be generalizing used with
  | nil =>
    rw [List.nil_append, greedy] at h
    rw [List.nil_append, List.nodup_cons] at hn
    split at h
    · rename_i hf
      simpa using hf
    · exact absurd ((greedy_sublist _ _).subset h) hn.1
  | cons b be ih =>
    rw [List.cons_append, List.nodup_cons] at hn
    have hne : a ≠ b := by
      rintro rfl
      exact hn.1 (by simp)
    rw [List.cons_append, greedy] at h
    rw [List.countP_cons]
    split at h
    · rcases List.mem_cons.mp h with heq | ht
      · exact absurd heq hne
      · have hr := ih hn.2 ht
        by_cases hc : cost b = cost a
        · rw [if_pos (by simpa using hc)]
          rw [hc] at hr
          calc used + (be.countP (fun b => cost b = cost a) + 1 + 1) * cost a
              = used + cost a + (be.countP (fun b => cost b = cost a) + 1) * cost a := by ring
            _ ≤ limit := hr
        · rw [if_neg (by simpa using hc), Nat.add_zero]
          omega
    · rename_i hf
      have hr := ih hn.2 h
      by_cases hc : cost b = cost a
      · -- the earlier item had the same room and would have been taken
        have ho : cost a ≤ (be.countP (fun b => cost b = cost a) + 1) * cost a :=
          Nat.le_mul_of_pos_left _ (Nat.succ_pos _)
        omega
      · rw [if_neg (by simpa using hc), Nat.add_zero]
        exact hr

/-! ## The frontiers -/

section Frontiers

variable [Std.TransCmp cmp]

/-- **What is taken is in the frontier of its cost.** -/
theorem mem_frontier_of_mem_greedy {l f : List α} {a : α} (hs : StrictlySorted cmp l)
    (hp : 0 < cost a)
    (hf : IsFirst cmp (limit / cost a) (fun b => b ∈ l ∧ cost b = cost a) f)
    (h : a ∈ greedy cost limit 0 l) : a ∈ f := by
  have hm := (greedy_sublist _ _).subset h
  by_contra hout
  obtain ⟨hfu, hbeh⟩ := hf.rest a ⟨hm, rfl⟩ hout
  obtain ⟨be, after, rfl⟩ := List.append_of_mem hm
  have hle := le_limit_of_mem_greedy hs.nodup h
  rw [Nat.zero_add, ← Nat.le_div_iff_mul_le hp, ← hfu, List.countP_eq_length_filter] at hle
  -- the frontier is in front of the item
  have hsu : f.Subperm (be.filter fun b => cost b = cost a) := by
    refine List.subperm_of_subset hf.sorted.nodup fun b hb => ?_
    obtain ⟨hin, hc⟩ := hf.mem b hb
    refine List.mem_filter.mpr ⟨?_, by simpa using hc⟩
    rcases List.mem_append.mp hin with hbe | ha
    · exact hbe
    · have hlt := hbeh b hb
      rcases List.mem_cons.mp ha with rfl | ha
      · exact (BestPerKey.lt_asymm hlt hlt).elim
      · have hgt := (List.pairwise_cons.mp (List.pairwise_append.mp hs).2.1).1 b ha
        exact (BestPerKey.lt_asymm hlt hgt).elim
  have hl := hsu.length_le
  omega

/-- **The greedy choice from the frontiers is the greedy choice from all items.** -/
theorem greedy_frontiers {items k : List α} (hi : items.Pairwise fun a b => cmp a b ≠ .eq)
    (hk : k.Pairwise fun a b => cmp a b ≠ .eq) (hp : ∀ a ∈ items, 0 < cost a)
    (hke : ∀ a ∈ items, ∃ f, IsFirst cmp (limit / cost a) (fun b => b ∈ items ∧ cost b = cost a) f
        ∧ (a ∈ f → a ∈ k))
    (hsu : ∀ a ∈ k, a ∈ items) :
    greedy cost limit 0 (StableSort.sortBy cmp k)
      = greedy cost limit 0 (StableSort.sortBy cmp items) := by
  classical
  have hs : ∀ {l : List α}, (l.Pairwise fun a b => cmp a b ≠ .eq) →
      StrictlySorted cmp (StableSort.sortBy cmp l) := by
    intro l hne
    have hf := BestPerKey.isFirst_take_sortBy l.length hne
    have hl : (StableSort.sortBy cmp l).length = l.length := List.length_insertionSort _ l
    rw [List.take_of_length_le hl.le] at hf
    exact hf.sorted
  have hm : ∀ {l : List α} {a : α}, a ∈ StableSort.sortBy cmp l ↔ a ∈ l := fun {l a} =>
    List.mem_insertionSort _
  have hfi : StableSort.sortBy cmp k = (StableSort.sortBy cmp items).filter fun a => a ∈ k := by
    refine (hs hk).eq_of_mem_iff ((hs hi).filter _) fun a => ?_
    rw [hm, List.mem_filter, hm, decide_eq_true_eq]
    exact ⟨fun ha => ⟨hsu a ha, ha⟩, fun ha => ha.2⟩
  rw [hfi]
  refine greedy_filter fun a ha => decide_eq_true ?_
  have hin : a ∈ items := hm.mp ((greedy_sublist _ _).subset ha)
  obtain ⟨f, hfr, hto⟩ := hke a hin
  refine hto (mem_frontier_of_mem_greedy (hs hi) (hp a hin) ?_ ha)
  exact hfr.congr fun b => by rw [hm]

end Frontiers

end CostFrontier
