/-
# Hash chains

A chain is a list of rows in which every row carries the hash of the row before it.  Where the
hash tells rows apart, the last hash determines the chain back to its first row, and the rows
of a chain can be put into a chain in one order only.
-/
import Mathlib

namespace HashChain

variable {R H : Type*} (prev : R → Option H) (hash : R → H)

/-- Every row carries the hash before it; `expected` is the one before the first row. -/
def Linked : Option H → List R → Prop
  | _, [] => True
  | expected, row :: rows => prev row = expected ∧ Linked (some (hash row)) rows

/-- The hash after the rows: that of the last one, or the expected one when there is none. -/
def endOf (expected : Option H) (rows : List R) : Option H :=
  rows.foldl (fun _ row => some (hash row)) expected

variable {prev hash}

@[simp] theorem endOf_concat (ex : Option H) (r : List R) (row : R) :
    endOf hash ex (r ++ [row]) = some (hash row) := by
  unfold endOf
  rw [List.foldl_append, List.foldl_cons, List.foldl_nil]

/-- After no expected hash the last row decides. -/
theorem endOf_none (r : List R) : endOf hash none r = r.getLast?.map hash := by
  induction r using List.reverseRecOn with
  | nil => rfl
  | append_singleton r row _ => rw [endOf_concat, List.getLast?_concat, Option.map_some]

theorem linked_append (r : List R) : ∀ (ex : Option H) (l : List R), Linked prev hash ex (r ++ l) ↔
      Linked prev hash ex r ∧ Linked prev hash (endOf hash ex r) l := by
  induction r with
  | nil =>
    intro ex l
    exact ⟨fun h => ⟨trivial, h⟩, fun h => h.2⟩
  | cons row r ih =>
    intro ex l
    show prev row = ex ∧ Linked prev hash _ (r ++ l) ↔ _
    rw [ih]
    exact and_assoc.symm

theorem linked_concat (ex : Option H) (r : List R) (row : R) : Linked prev hash ex (r ++ [row]) ↔
      Linked prev hash ex r ∧ prev row = endOf hash ex r := by
  rw [linked_append]
  exact and_congr_right fun _ => ⟨fun h => h.1, fun h => ⟨h, trivial⟩⟩

/-- The hashes that the rows of a chain carry. -/
theorem Linked.map_prev {row : R} {ro : List R} : ∀ {ex : Option H},
    Linked prev hash ex (row :: ro) →
      (row :: ro).map prev = ex :: (row :: ro).dropLast.map (fun r => some (hash r)) := by
  induction ro generalizing row with
  | nil =>
    intro ex h
    rw [List.map_cons, h.1]
    rfl
  | cons next ro ih =>
    intro ex h
    rw [List.map_cons, h.1, ih h.2]
    rfl

/-- A chain that starts with nothing before it is linear: no two of its rows carry the same
hash. -/
theorem Linked.nodup_prev {ro : List R} (h : Linked prev hash none ro)
    (hn : ro.Nodup) (hi : Set.InjOn hash {r | r ∈ ro}) : (ro.map prev).Nodup := by
  cases ro with
  | nil => exact List.nodup_nil
  | cons row ro =>
    rw [h.map_prev, List.nodup_cons]
    refine ⟨fun hm => ?_, ?_⟩
    · obtain ⟨r, -, hr⟩ := List.mem_map.mp hm
      cases hr
    have hs := List.dropLast_sublist (row :: ro)
    refine (hn.sublist hs).map_on fun a ha b hb hab => ?_
    exact hi (hs.subset ha) (hs.subset hb) (Option.some.inj hab)

/-- **Rows form a chain in one order only**, when no two carry the same hash. -/
theorem Linked.eq_of_perm {r : List R} : ∀ {ex : Option H} {r' : List R},
    Linked prev hash ex r → Linked prev hash ex r' → r.Perm r' → (r.map prev).Nodup → r = r' := by
  induction r with
  | nil =>
    intro ex r' _ _ hp _
    exact hp.nil_eq
  | cons row r ih =>
    intro ex r' h h' hp hn
    cases r' with
    | nil => exact absurd hp.symm.nil_eq (by simp)
    | cons ro' r' =>
      have hm : ro' ∈ row :: r := hp.mem_iff.mpr List.mem_cons_self
      obtain rfl : row = ro' := List.inj_on_of_nodup_map hn List.mem_cons_self hm
        (h.1.trans h'.1.symm)
      rw [ih h.2 h'.2 hp.cons_inv (List.nodup_cons.mp hn).2]

/-- **The last hash binds the chain.**  Of two chains that end in the same hash one is the end
of the other. -/
theorem Linked.suffix_or_suffix {S : Set R} (hi : Set.InjOn hash S) (ro : List R) :
    ∀ {ex e' : Option H} {r' : List R}, (∀ r ∈ ro, r ∈ S) →
      (∀ r ∈ r', r ∈ S) → Linked prev hash ex ro → Linked prev hash e' r' →
      endOf hash none ro = endOf hash none r' → ro <:+ r' ∨ r' <:+ ro := by
  induction ro using List.reverseRecOn with
  | nil =>
    intro _ _ r' _ _ _ _ _
    exact Or.inl (List.nil_suffix)
  | append_singleton ro row ih =>
    intro ex e' r' hS hS' h h' he
    rcases List.eq_nil_or_concat r' with rfl | ⟨init, l, rfl⟩
    · exact Or.inr List.nil_suffix
    rw [List.concat_eq_append] at hS' h' he ⊢
    rw [endOf_concat, endOf_concat] at he
    obtain rfl : row = l := hi (hS row (by simp)) (hS' l (by simp)) (Option.some.inj he)
    rw [linked_concat] at h h'
    -- both rows before the last one have the hash that it carries
    rcases List.eq_nil_or_concat ro with rfl | ⟨ro, b, rfl⟩
    · exact Or.inl ⟨init, rfl⟩
    rcases List.eq_nil_or_concat init with rfl | ⟨init, b', rfl⟩
    · exact Or.inr ⟨ro.concat b, rfl⟩
    rw [List.concat_eq_append, List.concat_eq_append] at *
    have hs : endOf hash none (ro ++ [b]) = endOf hash none (init ++ [b']) := by
      rw [endOf_concat] at h h' ⊢
      rw [endOf_concat, ← h.2, ← h'.2]
    rcases ih (fun r hr => hS r (List.mem_append_left _ hr))
        (fun r hr => hS' r (List.mem_append_left _ hr)) h.1 h'.1 hs with hsuffix | hsuffix
    · obtain ⟨f, hf⟩ := hsuffix
      exact Or.inl ⟨f, by rw [← List.append_assoc, hf]⟩
    · obtain ⟨f, hf⟩ := hsuffix
      exact Or.inr ⟨f, by rw [← List.append_assoc, hf]⟩

/-- A row that is not the first one carries a hash. -/
theorem Linked.eq_of_suffix {r r' : List R} (h : Linked prev hash none r)
    (h' : Linked prev hash none r') (he : endOf hash none r = endOf hash none r')
    (hs : r <:+ r') : r = r' := by
  obtain ⟨f, rfl⟩ := hs
  rcases List.eq_nil_or_concat f with rfl | ⟨f, b, rfl⟩
  · rfl
  rw [List.concat_eq_append] at *
  cases r with
  | nil =>
    rw [List.append_nil, endOf_concat] at he
    cases he
  | cons row r =>
    rw [linked_append, endOf_concat] at h'
    have hc := h'.2.1
    rw [h.1] at hc
    cases hc

/-- **From the first row on, the last hash determines the chain.** -/
theorem Linked.eq_of_endOf {S : Set R} (hi : Set.InjOn hash S) {ro r' : List R}
    (hS : ∀ r ∈ ro, r ∈ S) (hS' : ∀ r ∈ r', r ∈ S) (h : Linked prev hash none ro)
    (h' : Linked prev hash none r') (he : endOf hash none ro = endOf hash none r') :
    ro = r' := by
  rcases Linked.suffix_or_suffix hi ro hS hS' h h' he with hs | hs
  · exact h.eq_of_suffix h' he hs
  · exact (h'.eq_of_suffix h he.symm hs).symm

end HashChain
