/-
# The first elements of a sorted list

A buffer keeps the first elements, by a comparison, of those that have been read: a new element
is searched in the buffer, put in its place when it is not there and its place is within the
bound, and the last element leaves a buffer that has grown too long.  However the elements are
read, the buffer ends as the beginning of the sorted list of all of them without repetition.
Strictly sorted lists are compared by their elements: a part that holds, with an element, all
that come before it, is a beginning.
-/
import EideticEngine.ComparisonSort

namespace BoundedInsert

variable {α : Type*} {cmp : α → α → Ordering}

/-! ## Insertion -/

/-- Insertion into a sorted list; an element that is there is not inserted again. -/
def insertSorted (cmp : α → α → Ordering) (x : α) : List α → List α
  | [] => [x]
  | y :: l =>
    match cmp y x with
    | .lt => y :: insertSorted cmp x l
    | .eq => y :: l
    | .gt => x :: y :: l

/-- `binary_search_by` on a sorted list: whether the element is there, and the place where it is
or would be. -/
def binarySearchBy (cmp : α → α → Ordering) (x : α) (l : List α) : Bool × ℕ :=
  let index := (l.takeWhile fun y => cmp y x = .lt).length
  (l[index]?.any fun y => cmp y x = .eq, index)

/-- Insertion into a buffer of at most `bound` elements. -/
def insertBounded (cmp : α → α → Ordering) (bound : ℕ) (buffer : List α) (x : α) : List α :=
  match binarySearchBy cmp x buffer with
  | (true, _) => buffer
  | (false, index) =>
    if index < bound then
      let longer := buffer.insertIdx index x
      if bound < longer.length then longer.dropLast else longer
    else buffer

theorem binarySearchBy_cons_of_lt {x y : α} {l : List α} (h : cmp y x = .lt) :
    binarySearchBy cmp x (y :: l)
      = ((binarySearchBy cmp x l).1, (binarySearchBy cmp x l).2 + 1) := by
  unfold binarySearchBy
  simp [h]

theorem binarySearchBy_cons_of_not_lt {x y : α} {l : List α} (h : cmp y x ≠ .lt) :
    binarySearchBy cmp x (y :: l) = (decide (cmp y x = .eq), 0) := by
  unfold binarySearchBy
  simp [h]

/-- An element that is smaller than the new one stays in front. -/
theorem insertBounded_cons_of_lt {bound : ℕ} {x y : α} {b : List α} (h : cmp y x = .lt) :
    insertBounded cmp (bound + 1) (y :: b) x = y :: insertBounded cmp bound b x := by
  unfold insertBounded
  rw [binarySearchBy_cons_of_lt h]
  rcases hs : binarySearchBy cmp x b with ⟨f, index⟩
  cases f with
  | true => rfl
  | false =>
    dsimp only
    by_cases hi : index < bound
    · rw [if_pos (by omega), if_pos hi, List.insertIdx_succ_cons, List.length_cons]
      by_cases hl : bound < (b.insertIdx index x).length
      · rw [if_pos (by omega), if_pos hl, List.dropLast_cons_of_ne_nil]
        rintro hn
        rw [hn] at hl
        cases hl
      · rw [if_neg (by omega), if_neg hl]
    · rw [if_neg (by omega), if_neg hi]

/-- **Inserting into a bounded beginning of a list gives the beginning of the longer list.** -/
theorem insertBounded_take (x : α) (l : List α) :
    ∀ bound, insertBounded cmp bound (l.take bound) x = (insertSorted cmp x l).take bound := by
  induction l with
  | nil =>
    intro bound
    cases bound with
    | zero => rfl
    | succ bound =>
      rw [List.take_nil]
      simp [insertBounded, binarySearchBy, insertSorted]
  | cons y l ih =>
    intro bound
    cases bound with
    | zero => rfl
    | succ bound =>
      rw [List.take_succ_cons, insertSorted]
      cases hc : cmp y x with
      | lt =>
        rw [insertBounded_cons_of_lt hc, ih, List.take_succ_cons]
      | eq =>
        unfold insertBounded
        rw [binarySearchBy_cons_of_not_lt (by rw [hc]; decide), hc]
        rfl
      | gt =>
        unfold insertBounded
        rw [binarySearchBy_cons_of_not_lt (by rw [hc]; decide), hc]
        have hl : (y :: l.take bound).insertIdx 0 x = x :: y :: l.take bound := rfl
        have ht : (x :: y :: l.take bound).take (bound + 1) = (x :: y :: l).take (bound + 1) := by
          rw [List.take_succ_cons, List.take_succ_cons]
          cases bound with
          | zero => rfl
          | succ bound =>
            rw [List.take_succ_cons, List.take_succ_cons, List.take_take,
              Nat.min_eq_left (Nat.le_succ bound)]
        have hb : (x :: y :: l.take bound).length ≤ bound + 2 := by
          rw [List.length_cons, List.length_cons]
          have hle := List.length_take_le bound l
          omega
        show (if 0 < bound + 1 then _ else _) = _
        rw [if_pos (Nat.succ_pos bound)]
        dsimp only
        rw [hl]
        split
        · rename_i hlo
          rw [List.dropLast_eq_take, ← ht]
          congr 1
          omega
        · rename_i hs
          rw [← ht, List.take_of_length_le (not_lt.mp hs)]

/-- Insertion into an ordered set that then loses its last element if it has grown too long. -/
def insertPop (cmp : α → α → Ordering) (bound : ℕ) (buffer : List α) (x : α) : List α :=
  let longer := insertSorted cmp x buffer
  if bound < longer.length then longer.dropLast else longer

theorem length_insertSorted_le (x : α) (l : List α) :
    (insertSorted cmp x l).length ≤ l.length + 1 := by
  induction l with
  | nil => exact le_rfl
  | cons y l ih =>
    rw [insertSorted]
    cases cmp y x with
    | lt => exact Nat.succ_le_succ ih
    | eq => exact Nat.le_succ _
    | gt => exact le_rfl

/-- What is cut off does not come back by an insertion. -/
theorem take_insertSorted_take (bound : ℕ) (x : α) (l : List α) :
    (insertSorted cmp x (l.take bound)).take bound = (insertSorted cmp x l).take bound := by
  induction l generalizing bound with
  | nil => rw [List.take_nil]
  | cons y l ih =>
    cases bound with
    | zero => rfl
    | succ bound =>
      rw [List.take_succ_cons, insertSorted, insertSorted]
      cases cmp y x with
      | lt => exact congrArg (y :: ·) (ih bound)
      | eq => exact congrArg (y :: ·) (List.take_take.trans (by rw [Nat.min_self]))
      | gt =>
        refine congrArg (x :: ·) ?_
        cases bound with
        | zero => rfl
        | succ bound =>
          refine congrArg (y :: ·) (List.take_take.trans ?_)
          rw [Nat.min_eq_left (Nat.le_succ bound)]

theorem insertPop_take (bound : ℕ) (x : α) (l : List α) :
    insertPop cmp bound (l.take bound) x = (insertSorted cmp x l).take bound := by
  have hl : (insertSorted cmp x (l.take bound)).length ≤ bound + 1 :=
    (length_insertSorted_le x _).trans (Nat.succ_le_succ (List.length_take_le bound l))
  rw [← take_insertSorted_take, insertPop]
  split
  · rw [List.dropLast_eq_take]
    congr 1
    omega
  · rename_i hs
    exact (List.take_of_length_le (not_lt.mp hs)).symm

/-! ## Strictly sorted lists -/

/-- Sorted without repetition. -/
def StrictlySorted (cmp : α → α → Ordering) (l : List α) : Prop :=
  l.Pairwise fun a b => cmp a b = .lt

variable [Std.TransCmp cmp]

theorem StrictlySorted.nodup {l : List α} (h : StrictlySorted cmp l) : l.Nodup := by
  refine List.Pairwise.imp ?_ h
  rintro a _ hlt rfl
  have heq : cmp a a = .eq := Std.ReflCmp.compare_self
  rw [heq] at hlt
  cases hlt

/-- **Strictly sorted lists with the same elements are equal.** -/
theorem StrictlySorted.eq_of_mem_iff {l l' : List α} (h : StrictlySorted cmp l)
    (h' : StrictlySorted cmp l') (hm : ∀ a, a ∈ l ↔ a ∈ l') : l = l' := by
  refine List.Perm.eq_of_pairwise ?_ h h' ((List.perm_ext_iff_of_nodup h.nodup h'.nodup).mpr hm)
  intro a b _ _ hab hba
  rw [← Std.OrientedCmp.gt_iff_lt, hab] at hba
  cases hba

/-- A part that holds, with an element, all that come before it is a beginning. -/
theorem StrictlySorted.append_of_initial [DecidableEq α] {l p : List α}
    (h : StrictlySorted cmp l) (hp : StrictlySorted cmp p) (hs : ∀ a ∈ p, a ∈ l)
    (hi : ∀ a ∈ p, ∀ b ∈ l, b ∉ p → cmp a b = .lt) :
    l = p ++ l.filter fun b => b ∉ p := by
  refine h.eq_of_mem_iff ?_ ?_
  · refine List.pairwise_append.mpr ⟨hp, h.filter _, ?_⟩
    intro a ha b hb
    rw [List.mem_filter, decide_eq_true_eq] at hb
    exact hi a ha b hb.1 hb.2
  · intro a
    rw [List.mem_append, List.mem_filter, decide_eq_true_eq]
    constructor
    · intro ha
      by_cases hin : a ∈ p
      · exact Or.inl hin
      · exact Or.inr ⟨ha, hin⟩
    · rintro (ha | ha)
      · exact hs a ha
      · exact ha.1

variable [Std.LawfulEqCmp cmp]

omit [Std.TransCmp cmp] in
theorem mem_insertSorted {x z : α} {l : List α} : z ∈ insertSorted cmp x l ↔ z = x ∨ z ∈ l := by
  induction l with
  | nil => simp [insertSorted]
  | cons y l ih =>
    rw [insertSorted]
    cases hc : cmp y x with
    | lt =>
      dsimp only
      rw [List.mem_cons, ih, List.mem_cons]
      tauto
    | eq =>
      have hyx : y = x := Std.LawfulEqCmp.eq_of_compare hc
      rw [hyx]
      simp
    | gt => simp

theorem strictlySorted_insertSorted {x : α} {l : List α} (h : StrictlySorted cmp l) :
    StrictlySorted cmp (insertSorted cmp x l) := by
  induction l with
  | nil => exact List.pairwise_singleton _ x
  | cons y l ih =>
    obtain ⟨hy, hl⟩ := List.pairwise_cons.mp h
    rw [insertSorted]
    cases hc : cmp y x with
    | lt =>
      refine List.pairwise_cons.mpr ⟨?_, ih hl⟩
      intro z hz
      rcases mem_insertSorted.mp hz with rfl | hz
      · exact hc
      · exact hy z hz
    | eq => exact h
    | gt =>
      have hxy : cmp x y = .lt := Std.OrientedCmp.gt_iff_lt.mp hc
      refine List.pairwise_cons.mpr ⟨?_, h⟩
      intro z hz
      rcases List.mem_cons.mp hz with rfl | hz
      · exact hxy
      · exact Std.TransCmp.lt_trans hxy (hy z hz)

/-! ## Reading a list -/

/-- The elements of a list in their order, without repetition. -/
def sortDedup (cmp : α → α → Ordering) (l : List α) : List α :=
  l.foldl (fun sorted x => insertSorted cmp x sorted) []

theorem sortDedup_spec (l : List α) :
    StrictlySorted cmp (sortDedup cmp l) ∧ ∀ a, a ∈ sortDedup cmp l ↔ a ∈ l := by
  have hf : ∀ (l sorted : List α), StrictlySorted cmp sorted →
      StrictlySorted cmp (l.foldl (fun sorted x => insertSorted cmp x sorted) sorted) ∧
        ∀ a, a ∈ l.foldl (fun sorted x => insertSorted cmp x sorted) sorted ↔
          a ∈ l ∨ a ∈ sorted := by
    intro l
    induction l with
    | nil => exact fun sorted h => ⟨h, fun a => by simp⟩
    | cons x l ih =>
      intro sorted h
      obtain ⟨hs, hm⟩ := ih _ (strictlySorted_insertSorted (x := x) h)
      refine ⟨hs, fun a => ?_⟩
      rw [List.foldl_cons, hm, mem_insertSorted, List.mem_cons]
      tauto
  obtain ⟨hs, hm⟩ := hf l [] List.Pairwise.nil
  exact ⟨hs, fun a => by rw [sortDedup, hm]; simp⟩

omit [Std.TransCmp cmp] [Std.LawfulEqCmp cmp] in
/-- A buffer that each insertion keeps as the beginning of what was read is so at the end. -/
theorem foldl_eq_take {bound : ℕ} {insert : List α → α → List α}
    (h : ∀ x l, insert (l.take bound) x = (insertSorted cmp x l).take bound) (l : List α) :
    l.foldl insert [] = (sortDedup cmp l).take bound := by
  have hf : ∀ (l sorted : List α), l.foldl insert (sorted.take bound)
      = (l.foldl (fun sorted x => insertSorted cmp x sorted) sorted).take bound := by
    intro l
    induction l with
    | nil => exact fun _ => rfl
    | cons x l ih =>
      intro sorted
      rw [List.foldl_cons, List.foldl_cons, h, ih]
  have hn := hf l []
  rwa [List.take_nil] at hn

omit [Std.TransCmp cmp] [Std.LawfulEqCmp cmp] in
/-- **The buffer is the beginning of the sorted list of all elements that were read.** -/
theorem foldl_insertBounded (bound : ℕ) (l : List α) :
    l.foldl (insertBounded cmp bound) [] = (sortDedup cmp l).take bound :=
  foldl_eq_take (fun x l => insertBounded_take x l bound) l

omit [Std.TransCmp cmp] [Std.LawfulEqCmp cmp] in
/-- The same for an ordered set that loses its last element when it has grown too long. -/
theorem foldl_insertPop (bound : ℕ) (l : List α) :
    l.foldl (insertPop cmp bound) [] = (sortDedup cmp l).take bound :=
  foldl_eq_take (insertPop_take bound) l

end BoundedInsert
