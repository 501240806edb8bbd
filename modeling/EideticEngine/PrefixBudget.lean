/-
# The longest beginning within a budget

Elements come in any order and are ranked by a comparison.  Of the ranked list only the longest
beginning is wanted that has at most so many elements of at most so much total size.  A window
keeps such a beginning of what it has seen: an element behind the first one that was left out can
never come back, since more elements in front of it only take more of the budget.
-/
import EideticEngine.StableSort

namespace PrefixBudget

open StableSort (sortBy)

variable {α : Type*}

/-! ## Lists within a budget -/

section

variable (size : α → ℕ) (rowLimit byteLimit : ℕ)

/-- A list within both limits. -/
structure Fits (l : List α) : Prop where
  rows : l.length ≤ rowLimit
  bytes : (l.map size).sum ≤ byteLimit

/-- `kept` is the longest beginning of `l` within both limits. -/
structure IsLongestFit (l kept : List α) : Prop where
  beginning : kept <+: l
  fits : Fits size rowLimit byteLimit kept
  longest : ∀ front, front <+: l → Fits size rowLimit byteLimit front →
    front.length ≤ kept.length

end

variable {size : α → ℕ} {rowLimit byteLimit : ℕ}

/-- What is taken from a list that fits, fits. -/
theorem Fits.subperm {l l' : List α} (h : Fits size rowLimit byteLimit l') (hsu : l.Subperm l') :
    Fits size rowLimit byteLimit l := by
  obtain ⟨m, hp, hs⟩ := hsu
  constructor
  · calc l.length = m.length := hp.length_eq.symm
      _ ≤ l'.length := hs.length_le
      _ ≤ rowLimit := h.rows
  · calc (l.map size).sum = (m.map size).sum := (hp.map size).sum_eq.symm
      _ ≤ (l'.map size).sum := (hs.map size).sum_le_sum (fun _ _ => Nat.zero_le _)
      _ ≤ byteLimit := h.bytes

theorem Fits.of_append_left {l l' : List α} (h : Fits size rowLimit byteLimit (l ++ l')) :
    Fits size rowLimit byteLimit l :=
  h.subperm (List.sublist_append_left l l').subperm

/-- A beginning that cannot be continued is the longest. -/
theorem isLongestFit_of_full {kept rest : List α} (hfi : Fits size rowLimit byteLimit kept)
    (hfu : ∀ e ∈ rest.head?, ¬ Fits size rowLimit byteLimit (kept ++ [e])) :
    IsLongestFit size rowLimit byteLimit (kept ++ rest) kept where
  beginning := List.prefix_append kept rest
  fits := hfi
  longest := by
    intro f hf hf'
    by_contra hlt
    have hk : kept <+: f :=
      List.prefix_of_prefix_length_le (List.prefix_append kept rest) hf (by omega)
    obtain ⟨m, rfl⟩ := hk
    cases m with
    | nil =>
      rw [List.append_nil] at hlt
      exact hlt le_rfl
    | cons e m =>
      have hr : e :: m <+: rest := (List.prefix_append_right_inj kept).mp hf
      obtain ⟨behind, rfl⟩ := hr
      refine hfu e rfl ?_
      rw [List.append_cons] at hf'
      exact hf'.of_append_left

/-- There is one longest beginning. -/
theorem IsLongestFit.unique {l kept k' : List α} (h : IsLongestFit size rowLimit byteLimit l kept)
    (h' : IsLongestFit size rowLimit byteLimit l k') : kept = k' := by
  have hl : kept.length = k'.length :=
    le_antisymm (h'.longest kept h.beginning h.fits) (h.longest k' h'.beginning h'.fits)
  exact (List.prefix_of_prefix_length_le h.beginning h'.beginning hl.le).eq_of_length hl

/-! ## A window over a stream -/

variable {cmp : α → α → Ordering}

/-- What was seen, ranked, is `kept` and then `rest`, and the first of the rest no longer
fits. -/
structure Window (cmp : α → α → Ordering) (size : α → ℕ) (rowLimit byteLimit : ℕ)
    (seen kept rest : List α) : Prop where
  ranked : sortBy cmp seen = kept ++ rest
  fits : Fits size rowLimit byteLimit kept
  full : ∀ e ∈ rest.head?, ¬ Fits size rowLimit byteLimit (kept ++ [e])

theorem Window.isLongestFit {seen kept rest : List α}
    (h : Window cmp size rowLimit byteLimit seen kept rest) :
    IsLongestFit size rowLimit byteLimit (sortBy cmp seen) kept := by
  rw [h.ranked]
  exact isLongestFit_of_full h.fits h.full

/-- Nothing was seen. -/
theorem window_nil : Window cmp size rowLimit byteLimit [] [] [] where
  ranked := rfl
  fits := ⟨Nat.zero_le _, Nat.zero_le _⟩
  full := fun _ h => by cases h

section

variable {seen kept rest : List α} {x : α}

theorem Window.perm (h : Window cmp size rowLimit byteLimit seen kept rest) :
    (kept ++ rest).Perm seen := by
  rw [← h.ranked]
  exact List.perm_insertionSort _ seen

variable [Std.TransCmp cmp]

theorem Window.pairwise (h : Window cmp size rowLimit byteLimit seen kept rest) :
    (kept ++ rest).Pairwise fun a b => cmp a b ≠ .gt := by
  rw [← h.ranked]
  exact List.pairwise_insertionSort _ seen

/-- **An element behind the barrier is left out** and the window stays as it is. -/
theorem Window.skip {ba : α} (h : Window cmp size rowLimit byteLimit seen kept (ba :: rest))
    (hin : ∀ a ∈ seen ++ [x], ∀ b ∈ seen ++ [x], cmp a b = .eq → a = b)
    (hbe : cmp ba x ≠ .gt) :
    ∃ r', Window cmp size rowLimit byteLimit (seen ++ [x]) kept (ba :: r') := by
  let r' := rest.orderedInsert (fun a b => cmp a b ≠ .gt) x
  have hi : r'.Perm (x :: rest) := List.perm_orderedInsert _ x rest
  have hs := List.pairwise_append.mp h.pairwise
  have hr := List.pairwise_cons.mp hs.2.1
  refine ⟨r', ?_, h.fits, h.full⟩
  refine ComparisonSort.insertionSort_eq hin ?_ ?_
  · calc List.Perm (kept ++ ba :: r') (kept ++ ba :: x :: rest) := (hi.cons ba).append_left kept
      List.Perm _ (kept ++ (ba :: rest) ++ [x]) := by
          rw [List.append_assoc]
          exact (((List.perm_append_singleton x rest).symm).cons ba).append_left kept
      List.Perm _ (seen ++ [x]) := h.perm.append_right [x]
  · refine List.pairwise_append.mpr ⟨hs.1, List.pairwise_cons.mpr ⟨?_, ?_⟩, ?_⟩
    · intro b hb
      rcases List.mem_cons.mp (hi.subset hb) with rfl | hb
      · exact hbe
      · exact hr.1 b hb
    · exact hr.2.orderedInsert x rest
    · intro a ha b hb
      have hba : cmp a ba ≠ .gt := hs.2.2 a ha ba List.mem_cons_self
      rcases List.mem_cons.mp hb with rfl | hb
      · exact hba
      · rcases List.mem_cons.mp (hi.subset hb) with rfl | hb
        · exact IsTrans.trans (r := fun a b => cmp a b ≠ .gt) a ba _ hba hbe
        · exact hs.2.2 a ha b (List.mem_cons_of_mem ba hb)

/-- **An element in front of the barrier is ranked among what is kept**, of which again the
longest beginning within the limits stays. -/
theorem Window.place {f bac : List α} (h : Window cmp size rowLimit byteLimit seen kept rest)
    (hi : ∀ a ∈ seen ++ [x], ∀ b ∈ seen ++ [x], cmp a b = .eq → a = b)
    (hf : ∀ ba ∈ rest.head?, cmp x ba ≠ .gt)
    (hsp : sortBy cmp (kept ++ [x]) = f ++ bac)
    (hfi : Fits size rowLimit byteLimit f)
    (hfu : ∀ e ∈ bac.head?, ¬ Fits size rowLimit byteLimit (f ++ [e])) :
    Window cmp size rowLimit byteLimit (seen ++ [x]) f (bac ++ rest) := by
  have hp : (f ++ bac).Perm (kept ++ [x]) := by
    rw [← hsp]
    exact List.perm_insertionSort _ _
  have hs := List.pairwise_append.mp h.pairwise
  refine ⟨?_, hfi, ?_⟩
  · refine ComparisonSort.insertionSort_eq hi ?_ ?_
    · have hc : ([x] ++ rest).Perm (rest ++ [x]) := List.perm_append_comm
      rw [← List.append_assoc]
      calc List.Perm ((f ++ bac) ++ rest) ((kept ++ [x]) ++ rest) := hp.append_right rest
        List.Perm _ (kept ++ rest ++ [x]) := by
            rw [List.append_assoc, List.append_assoc]
            exact hc.append_left kept
        List.Perm _ (seen ++ [x]) := h.perm.append_right [x]
    · rw [← List.append_assoc, ← hsp]
      refine List.pairwise_append.mpr ⟨List.pairwise_insertionSort _ _, hs.2.1, ?_⟩
      intro a ha b hb
      have ha' : a ∈ kept ++ [x] := (List.mem_insertionSort _).mp ha
      rcases List.mem_append.mp ha' with hk | hx
      · exact hs.2.2 a hk b hb
      · -- the new element comes before the barrier, and the barrier before all of the rest
        rw [List.mem_singleton] at hx
        subst hx
        cases rest with
        | nil => cases hb
        | cons ba rest =>
          have hlt := hf ba rfl
          rcases List.mem_cons.mp hb with rfl | hb
          · exact hlt
          · exact IsTrans.trans (r := fun a b => cmp a b ≠ .gt) a ba b hlt
              (List.rel_of_pairwise_cons hs.2.1 hb)
  · intro e he
    cases bac with
    | cons b bac => exact hfu e he
    | nil =>
      intro hf'
      refine h.full e he (hf'.subperm ?_)
      have hsu : kept.Subperm f := by
        rw [List.append_nil] at hp
        exact (List.sublist_append_left kept [x]).subperm.trans hp.symm.subperm
      exact (List.subperm_append_right [e]).mpr hsu

end

end PrefixBudget
