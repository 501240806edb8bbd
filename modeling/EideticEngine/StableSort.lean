/-
# Stable sorting

A list is the stable sort of another by a comparison when it is sorted and the elements that
compare equal to a given one stand in it as they stood before.  There is one such list; the
insertion sort finds it, and sorting stably by one comparison after another sorts by both.
A counting pass sorts stably by a digit, so that passes over the digits, the last one first,
sort by the whole number.
-/
import EideticEngine.ComparisonSort

namespace StableSort

variable {α β : Type*} {cmp cmp' : α → α → Ordering}

/-! ## Stable sorts -/

/-- `l'` is the stable sort of `l`. -/
structure IsStableSort (cmp : α → α → Ordering) (l l' : List α) : Prop where
  sorted : l'.Pairwise fun a b => cmp a b ≠ .gt
  classes : ∀ a, l'.filter (fun b => cmp a b = .eq) = l.filter (fun b => cmp a b = .eq)

/-- `slice::sort_by`: the stable sort by a comparison. -/
def sortBy (cmp : α → α → Ordering) (l : List α) : List α :=
  l.insertionSort fun a b => cmp a b ≠ .gt

/-- Sorting only reorders. -/
theorem sortBy_perm (cmp : α → α → Ordering) (l : List α) : (sortBy cmp l).Perm l :=
  List.perm_insertionSort _ l

/-- A sorted list has the members of the list. -/
theorem IsStableSort.mem_iff [Std.ReflCmp cmp] {l sorted : List α} (h : IsStableSort cmp l sorted)
    {a : α} : a ∈ sorted ↔ a ∈ l := by
  have hs : ∀ l : List α, a ∈ l ↔ a ∈ l.filter fun b => cmp a b = .eq := by
    intro l
    rw [List.mem_filter, decide_eq_true_eq]
    exact ⟨fun hm => ⟨hm, Std.ReflCmp.compare_self⟩, fun hm => hm.1⟩
  rw [hs sorted, hs l, h.classes]

/-- Sorted lists with the same classes are equal. -/
theorem eq_of_sorted_of_classes [Std.TransCmp cmp] {l l' : List α}
    (hso : l.Pairwise fun a b => cmp a b ≠ .gt)
    (hs' : l'.Pairwise fun a b => cmp a b ≠ .gt)
    (hcl : ∀ a, l.filter (fun b => cmp a b = .eq) = l'.filter (fun b => cmp a b = .eq)) :
    l = l' := by
  have hm : ∀ a, a ∈ l ↔ a ∈ l' := by
    intro a
    have hst : IsStableSort cmp l' l := ⟨hso, hcl⟩
    exact hst.mem_iff
  induction l generalizing l' with
  | nil =>
    cases l' with
    | nil => rfl
    | cons b l' => exact absurd ((hm b).mpr List.mem_cons_self) (by simp)
  | cons a l ih =>
    cases l' with
    | nil => exact absurd ((hm a).mp List.mem_cons_self) (by simp)
    | cons b l' =>
      obtain ⟨hh, ht⟩ := List.pairwise_cons.mp hso
      obtain ⟨hh', ht'⟩ := List.pairwise_cons.mp hs'
      -- each head comes before the other, so they are of one class, of which both are the first
      have hab : cmp a b ≠ .gt := by
        rcases List.mem_cons.mp ((hm b).mpr List.mem_cons_self) with rfl | hin
        · have hs : cmp b b = .eq := Std.ReflCmp.compare_self
          rw [hs]
          decide
        · exact hh b hin
      have hba : cmp b a ≠ .gt := by
        rcases List.mem_cons.mp ((hm a).mp List.mem_cons_self) with rfl | hin
        · have hs : cmp a a = .eq := Std.ReflCmp.compare_self
          rw [hs]
          decide
        · exact hh' a hin
      have heq := ComparisonSort.eq_of_ne_gt hab hba
      have hs : cmp a a = .eq := Std.ReflCmp.compare_self
      have hcla := hcl a
      rw [List.filter_cons_of_pos (by simpa using hs),
        List.filter_cons_of_pos (by simpa using heq)] at hcla
      obtain rfl := (List.cons.inj hcla).1
      have hr : ∀ c, l.filter (fun b => cmp c b = .eq) = l'.filter (fun b => cmp c b = .eq) := by
        intro c
        have hc := hcl c
        rw [List.filter_cons, List.filter_cons] at hc
        split at hc
        · exact (List.cons.inj hc).2
        · exact hc
      have hst : IsStableSort cmp l' l := ⟨ht, hr⟩
      rw [ih ht ht' hr fun c => hst.mem_iff]

/-- **There is one stable sort.** -/
theorem IsStableSort.unique [Std.TransCmp cmp] {l sorted s' : List α}
    (h : IsStableSort cmp l sorted) (h' : IsStableSort cmp l s') : sorted = s' :=
  eq_of_sorted_of_classes h.sorted h'.sorted fun a => (h.classes a).trans (h'.classes a).symm

/-- Inserting keeps every class as it was, with the new element first in its own. -/
theorem filter_orderedInsert [Std.TransCmp cmp] (a x : α) (l : List α) :
    (l.orderedInsert (fun a b => cmp a b ≠ .gt) x).filter (fun b => cmp a b = .eq)
      = (x :: l).filter (fun b => cmp a b = .eq) := by
  induction l with
  | nil => rfl
  | cons b l ih =>
    rw [List.orderedInsert_cons]
    split
    · rfl
    · rename_i hgt
      rw [List.filter_cons, ih]
      by_cases hx : cmp a x = .eq
      · -- what `x` passes over is greater, so of another class
        have hb : ¬ cmp a b = .eq := by
          intro hb
          refine hgt ?_
          rw [← Std.TransCmp.congr_left hx, hb]
          decide
        simp [hx, hb]
      · simp [List.filter_cons, hx]

/-- The insertion sort is stable. -/
theorem isStableSort_sortBy [Std.TransCmp cmp] (l : List α) :
    IsStableSort cmp l (sortBy cmp l) where
  sorted := List.pairwise_insertionSort _ l
  classes := by
    intro a
    unfold sortBy
    induction l with
    | nil => rfl
    | cons x l ih =>
      rw [List.insertionSort_cons, filter_orderedInsert, List.filter_cons, List.filter_cons, ih]

/-! ## One comparison after another -/

theorem then_ne_gt {a b : Ordering} (ha : a ≠ .gt) (hb : a = .eq → b ≠ .gt) :
    a.then b ≠ .gt := by
  cases a with
  | lt => simp
  | eq => exact hb rfl
  | gt => exact absurd rfl ha

instance reflThen [Std.ReflCmp cmp] [Std.ReflCmp cmp'] :
    Std.ReflCmp fun a b => (cmp a b).then (cmp' a b) where
  compare_self {a} := by
    have hmajor : cmp a a = .eq := Std.ReflCmp.compare_self
    have hminor : cmp' a a = .eq := Std.ReflCmp.compare_self
    rw [hmajor, hminor]
    rfl

/-- A class of both comparisons is a class of the one within a class of the other. -/
theorem filter_then (a : α) (l : List α) :
    l.filter (fun b => (cmp a b).then (cmp' a b) = .eq)
      = (l.filter fun b => cmp a b = .eq).filter fun b => cmp' a b = .eq := by
  rw [List.filter_filter]
  refine List.filter_congr fun b _ => ?_
  rw [Bool.and_comm]
  simp [Ordering.then_eq_eq]

/-- **Sorting by the minor comparison and then by the major one** sorts by both. -/
theorem IsStableSort.then [Std.TransCmp cmp] {l l' l'' : List α}
    (hmi : IsStableSort cmp' l l') (hm : IsStableSort cmp l' l'') :
    IsStableSort (fun a b => (cmp a b).then (cmp' a b)) l l'' where
  sorted := by
    rw [List.pairwise_iff_forall_sublist]
    intro a b hsu
    have hab := (List.pairwise_iff_forall_sublist.mp hm.sorted) hsu
    refine then_ne_gt hab fun heq => ?_
    -- two elements of one class stand as the minor sort left them
    have hse : cmp a a = .eq := Std.ReflCmp.compare_self
    have hc : [a, b].Sublist (l'.filter fun c => cmp a c = .eq) := by
      rw [← hm.classes a]
      have hf := hsu.filter fun c => decide (cmp a c = .eq)
      simpa [hse, heq] using hf
    exact (List.pairwise_iff_forall_sublist.mp hmi.sorted) (hc.trans List.filter_sublist)
  classes := by
    intro a
    have hs : ∀ l : List α, (l.filter fun b => cmp a b = .eq).filter (fun b => cmp' a b = .eq)
        = (l.filter fun b => cmp' a b = .eq).filter fun b => cmp a b = .eq := by
      intro l
      rw [List.filter_filter, List.filter_filter]
      refine List.filter_congr fun b _ => ?_
      rw [Bool.and_comm]
    rw [filter_then, filter_then, hm.classes, hs, hmi.classes, ← hs]

/-- A sorted list that is refined within its classes. -/
theorem IsStableSort.refine {l l' l'' : List α} (hm : IsStableSort cmp l l')
    (hb : IsStableSort (fun a b => (cmp a b).then (cmp' a b)) l' l'') :
    IsStableSort (fun a b => (cmp a b).then (cmp' a b)) l l'' where
  sorted := hb.sorted
  classes := by
    intro a
    rw [hb.classes, filter_then, filter_then, hm.classes]

/-- Only the comparison of the elements matters. -/
theorem IsStableSort.congr [Std.ReflCmp cmp] [Std.TransCmp cmp'] {l l' : List α}
    (h : IsStableSort cmp l l') (hag : ∀ a ∈ l, ∀ b ∈ l, cmp a b = cmp' a b) :
    IsStableSort cmp' l l' where
  sorted := by
    refine h.sorted.imp_of_mem ?_
    intro a b ha hb hab
    rwa [← hag a (h.mem_iff.mp ha) b (h.mem_iff.mp hb)]
  classes := by
    intro a
    by_cases hcl : ∃ b ∈ l, cmp' a b = .eq
    · -- the class of `a` is the class of an element
      obtain ⟨b, hb, heq⟩ := hcl
      have hs : ∀ k : List α, (∀ c ∈ k, c ∈ l) →
          k.filter (fun c => cmp' a c = .eq) = k.filter fun c => cmp b c = .eq := by
        intro k hk
        refine List.filter_congr fun c hc => ?_
        rw [hag b hb c (hk c hc), Std.TransCmp.congr_left heq]
      rw [hs l' fun c hc => h.mem_iff.mp hc, hs l fun _ hc => hc, h.classes]
    · have hn : ∀ k : List α, (∀ c ∈ k, c ∈ l) → k.filter (fun c => cmp' a c = .eq) = [] :=
        fun k hk => List.filter_eq_nil_iff.mpr fun c hc heq => hcl ⟨c, hk c hc, by simpa using heq⟩
      rw [hn l' fun c hc => h.mem_iff.mp hc, hn l fun _ hc => hc]

/-- Sorting decorated elements and taking the decoration off. -/
theorem IsStableSort.of_decorated {cd : β → β → Ordering} {d : α → β}
    {p : β → α} (hp : ∀ a, p (d a) = a)
    (hcm : ∀ a b, cd (d a) (d b) = cmp a b) {l : List α}
    {sorted : List β} (hm : ∀ b ∈ sorted, b ∈ l.map d)
    (h : IsStableSort cd (l.map d) sorted) :
    IsStableSort cmp l (sorted.map p) := by
  have hba : (sorted.map p).map d = sorted := by
    rw [List.map_map]
    conv_rhs => rw [← List.map_id sorted]
    refine List.map_congr_left fun b hb => ?_
    obtain ⟨a, -, rfl⟩ := List.mem_map.mp (hm b hb)
    simp [hp]
  rw [← hba] at h
  constructor
  · have hs := h.sorted
    rw [List.pairwise_map] at hs
    exact hs.imp fun {a b} hab => by rwa [hcm] at hab
  · intro a
    have hc := h.classes (d a)
    have hi : Function.Injective d := Function.LeftInverse.injective hp
    have hf : ∀ l : List α, (l.map d).filter (fun b => cd (d a) b = .eq)
          = (l.filter fun b => cmp a b = .eq).map d := by
      intro l
      rw [List.filter_map]
      simp only [Function.comp_def, hcm]
    rw [hf, hf] at hc
    exact List.map_injective_iff.mpr hi hc

/-! ## Sorting within runs -/

/-- Sort every run of elements that compare equal to its first one by another comparison. -/
def sortRuns (cmp cmp' : α → α → Ordering) : List α → List α
  | [] => []
  | first :: rest =>
    let run := first :: rest.takeWhile fun b => cmp first b = .eq
    (if run.length > 1 then sortBy cmp' run else run)
      ++ sortRuns cmp cmp' (rest.dropWhile fun b => cmp first b = .eq)
termination_by l => l.length
decreasing_by
  exact Nat.lt_succ_of_le (List.dropWhile_sublist _).length_le

/-- In a sorted list, what comes after the run of an element is greater than the element. -/
theorem lt_of_mem_dropWhile [Std.TransCmp cmp] {a : α} {l : List α}
    (hs : (a :: l).Pairwise fun a b => cmp a b ≠ .gt) {b : α}
    (hb : b ∈ l.dropWhile fun b => cmp a b = .eq) : cmp a b = .lt := by
  induction l with
  | nil => cases hb
  | cons c l ih =>
    obtain ⟨hh, ht⟩ := List.pairwise_cons.mp hs
    obtain ⟨hc, hr⟩ := List.pairwise_cons.mp ht
    by_cases heq : cmp a c = .eq
    · rw [List.dropWhile_cons_of_pos (by simpa using heq)] at hb
      exact ih (List.pairwise_cons.mpr ⟨fun d hd => hh d (List.mem_cons_of_mem _ hd), hr⟩) hb
    · rw [List.dropWhile_cons_of_neg (by simpa using heq)] at hb
      have hlt : cmp a c = .lt := by
        cases hca : cmp a c with
        | lt => rfl
        | eq => exact absurd hca heq
        | gt => exact absurd hca (hh c List.mem_cons_self)
      rcases List.mem_cons.mp hb with rfl | hin
      · exact hlt
      · exact Std.TransCmp.lt_of_lt_of_isLE hlt (Ordering.isLE_iff_ne_gt.mpr (hc b hin))

/-- Sorting one run of equal elements by the minor comparison. -/
theorem isStableSort_run [Std.TransCmp cmp] [Std.TransCmp cmp'] {a : α} {run : List α}
    (hr : ∀ b ∈ run, cmp a b = .eq) :
    IsStableSort (fun a b => (cmp a b).then (cmp' a b)) run (sortBy cmp' run) := by
  have hm : IsStableSort cmp' run (sortBy cmp' run) := isStableSort_sortBy run
  have he : ∀ b ∈ run, ∀ c ∈ run, cmp b c = .eq := by
    intro b hb c hc
    rw [Std.TransCmp.congr_left (Std.OrientedCmp.eq_symm (hr b hb))]
    exact hr c hc
  constructor
  · refine List.Pairwise.imp_of_mem ?_ hm.sorted
    intro b c hb hc hbc
    rw [he b (hm.mem_iff.mp hb) c (hm.mem_iff.mp hc)]
    exact hbc
  · intro b
    rw [filter_then, filter_then]
    by_cases hb : cmp b a = .eq
    · have ha : ∀ c ∈ run, cmp b c = .eq := fun c hc => by
        rw [Std.TransCmp.congr_left hb]
        exact hr c hc
      have hk : ∀ l : List α, (∀ c ∈ l, c ∈ run) →
          l.filter (fun c => cmp b c = .eq) = l := fun l hl =>
        List.filter_eq_self.mpr fun c hc => by simpa using ha c (hl c hc)
      rw [hk _ fun c hc => hm.mem_iff.mp hc, hk run fun _ hc => hc, hm.classes]
    · have hn : ∀ c ∈ run, ¬ cmp b c = .eq := fun c hc heq => by
        refine hb ?_
        rw [Std.TransCmp.congr_right (hr c hc)]
        exact heq
      have hd : ∀ l : List α, (∀ c ∈ l, c ∈ run) →
          l.filter (fun c => cmp b c = .eq) = [] := fun l hl =>
        List.filter_eq_nil_iff.mpr fun c hc => by simpa using hn c (hl c hc)
      rw [hd _ fun c hc => hm.mem_iff.mp hc, hd run fun _ hc => hc]

/-- **Sorting the runs of a sorted list** sorts by both comparisons. -/
theorem isStableSort_sortRuns [Std.TransCmp cmp] [Std.TransCmp cmp'] {l : List α}
    (hs : l.Pairwise fun a b => cmp a b ≠ .gt) :
    IsStableSort (fun a b => (cmp a b).then (cmp' a b)) l (sortRuns cmp cmp' l) := by
  induction l using sortRuns.induct cmp with
  | case1 =>
    rw [sortRuns]
    exact ⟨List.Pairwise.nil, fun _ => rfl⟩
  | case2 first r ih =>
    have hsp : first :: r = (first :: r.takeWhile fun b => cmp first b = .eq)
        ++ r.dropWhile fun b => cmp first b = .eq := by
      rw [List.cons_append, List.takeWhile_append_dropWhile]
    have hru : ∀ b ∈ first :: r.takeWhile (fun b => cmp first b = .eq), cmp first b = .eq := by
      intro b hb
      rcases List.mem_cons.mp hb with rfl | hb
      · exact Std.ReflCmp.compare_self
      · simpa using List.mem_takeWhile_imp hb
    have hr := ih ((List.pairwise_cons.mp hs).2.sublist (List.dropWhile_sublist _))
    have hl : ∀ b ∈ r.dropWhile (fun b => cmp first b = .eq), cmp first b = .lt :=
      fun b hb => lt_of_mem_dropWhile hs hb
    rw [sortRuns]
    generalize hrunDef : (first :: r.takeWhile fun b => cmp first b = .eq) = run at *
    have hrun : IsStableSort (fun a b => (cmp a b).then (cmp' a b)) run
        (if run.length > 1 then sortBy cmp' run else run) := by
      split
      · exact isStableSort_run hru
      · rename_i hsh
        obtain ⟨b, rfl⟩ : ∃ b, run = [b] := ⟨first, by
          rw [← hrunDef] at hsh ⊢
          simpa using hsh⟩
        exact ⟨List.pairwise_singleton _ _, fun _ => rfl⟩
    constructor
    · rw [List.pairwise_append]
      refine ⟨hrun.sorted, hr.sorted, ?_⟩
      intro b hb c hc
      have hlt : cmp b c = .lt := by
        rw [Std.TransCmp.congr_left (Std.OrientedCmp.eq_symm (hru b (hrun.mem_iff.mp hb)))]
        exact hl c (hr.mem_iff.mp hc)
      simp [hlt]
    · intro a
      rw [List.filter_append, hrun.classes, hr.classes, ← List.filter_append, ← hsp]

/-! ## Counting passes -/

section Counting

variable (radix : ℕ) (digit : α → ℕ)

/-- The number of rows with each digit. -/
def digitCounts (rows : List α) : List ℕ :=
  rows.foldl (fun counts row => counts.modify (digit row) (· + 1)) (List.replicate radix 0)

/-- The running sums before each count. -/
def startOffsets (counts : List ℕ) : List ℕ :=
  (counts.foldl (fun (acc : List ℕ × ℕ) count => (acc.1 ++ [acc.2], acc.2 + count)) ([], 0)).1

/-- Put one row into the next free slot of its digit. -/
def placeRow (acc : List ℕ × List (Option α)) (row : α) : List ℕ × List (Option α) :=
  let slot := acc.1.getD (digit row) 0
  (acc.1.modify (digit row) (· + 1), acc.2.set slot (some row))

/-- One counting pass: count the digits, find where each digit starts, place the rows and take
the filled slots. -/
def countingPass (rows : List α) : List α :=
  (rows.foldl (placeRow digit) (startOffsets (digitCounts radix digit rows),
    List.replicate rows.length none)).2.filterMap id

/-- The rows by digit, each digit in the order of the rows. -/
def buckets (rows : List α) : List α :=
  (List.range radix).flatMap fun d => rows.filter fun row => digit row = d

/-- How many rows have a digit. -/
def digitCount (rows : List α) (d : ℕ) : ℕ :=
  (rows.filter fun row => digit row = d).length

variable {radix digit}

@[simp] theorem digitCount_concat (r : List α) (row : α) (d : ℕ) : digitCount digit (r ++ [row]) d
      = digitCount digit r d + if digit row = d then 1 else 0 := by
  unfold digitCount
  by_cases h : digit row = d <;> simp [h]

theorem digitCounts_eq (r : List α) :
    digitCounts radix digit r = (List.range radix).map (digitCount digit r) := by
  induction r using List.reverseRecOn with
  | nil =>
    have hz : digitCount digit [] = fun _ => 0 := rfl
    rw [hz, List.map_const', List.length_range]
    rfl
  | append_singleton r row ih =>
    unfold digitCounts at ih ⊢
    rw [List.foldl_append, ih, List.foldl_cons, List.foldl_nil]
    apply List.ext_getElem
    · simp
    · intro d h₁ h₂
      rw [List.getElem_modify]
      simp only [List.getElem_map, List.getElem_range, digitCount_concat]
      split <;> simp

theorem startOffsets_eq (cs : List ℕ) :
    startOffsets cs = (List.range cs.length).map fun d => (cs.take d).sum := by
  have hf : ∀ cs : List ℕ,
      cs.foldl (fun (acc : List ℕ × ℕ) count => (acc.1 ++ [acc.2], acc.2 + count)) ([], 0)
        = ((List.range cs.length).map (fun d => (cs.take d).sum), cs.sum) := by
    intro cs
    induction cs using List.reverseRecOn with
    | nil => rfl
    | append_singleton cs count ih =>
      rw [List.foldl_append, ih]
      simp only [List.foldl_cons, List.foldl_nil, List.length_append, List.length_singleton,
        List.range_succ, List.map_append, List.map_cons, List.map_nil, List.sum_append,
        List.sum_cons, List.sum_nil, Nat.add_zero, List.take_left]
      congr 2
      refine List.map_congr_left fun d hd => ?_
      rw [List.take_append_of_le_length (List.mem_range.mp hd).le]
  unfold startOffsets
  rw [hf]

/-- Where a digit starts. -/
def digitStart (total : ℕ → ℕ) (d : ℕ) : ℕ :=
  ((List.range d).map total).sum

theorem length_flatMap_range {β : Type*} (b : ℕ → List β) (n : ℕ) :
    ((List.range n).flatMap b).length = digitStart (fun d => (b d).length) n := by
  rw [List.length_flatMap]
  rfl

/-- Writing into a concatenation of buckets writes into one of them. -/
theorem set_flatMap_range {β : Type*} (b : ℕ → List β) {n d j : ℕ} (x : β) (hd : d < n)
    (hj : j < (b d).length) :
    ((List.range n).flatMap b).set (digitStart (fun d => (b d).length) d + j) x
      = (List.range n).flatMap (Function.update b d ((b d).set j x)) := by
  induction n with
  | zero => omega
  | succ n ih =>
    have hl := length_flatMap_range b n
    rw [List.range_succ, List.flatMap_append, List.flatMap_append, List.flatMap_singleton,
      List.flatMap_singleton]
    rcases Nat.lt_succ_iff_lt_or_eq.mp hd with hlt | rfl
    · -- the bucket lies in the front part
      have hs : digitStart (fun d => (b d).length) d + (b d).length
          ≤ digitStart (fun d => (b d).length) n := by
        have hle : digitStart (fun d => (b d).length) (d + 1)
            ≤ digitStart (fun d => (b d).length) n :=
          ((List.range_sublist.mpr hlt).map _).sum_le_sum (by simp)
        simpa [digitStart, List.range_succ] using hle
      rw [List.set_append_left _ _ (by omega), ih hlt, Function.update_of_ne hlt.ne']
    · rw [List.set_append_right _ _ (by omega), hl, Nat.add_sub_cancel_left, Function.update_self]
      congr 1
      refine List.flatMap_congr fun e he => ?_
      rw [Function.update_of_ne (List.mem_range.mp he).ne]

/-- What the slots hold after a part of the rows was placed: for each digit its rows so far, and
free slots for the others. -/
def filledBucket (digit : α → ℕ) (rows placed : List α) (d : ℕ) : List (Option α) :=
  (placed.filter fun row => digit row = d).map some
    ++ List.replicate (digitCount digit rows d - digitCount digit placed d) none

theorem length_filledBucket {r p : List α} {d : ℕ}
    (hle : digitCount digit p d ≤ digitCount digit r d) :
    (filledBucket digit r p d).length = digitCount digit r d := by
  unfold filledBucket
  rw [List.length_append, List.length_map, List.length_replicate]
  exact Nat.add_sub_cancel' hle

/-- **The placement**: after every row the slots are the filled buckets, and each digit's offset
is its first free slot. -/
theorem foldl_placeRow {ro : List α} (hdi : ∀ row ∈ ro, digit row < radix)
    {p re : List α} (hr : ro = p ++ re) :
    p.foldl (placeRow digit) ((List.range radix).map (digitStart (digitCount digit ro)),
        (List.range radix).flatMap (filledBucket digit ro []))
      = ((List.range radix).map fun d => digitStart (digitCount digit ro) d + digitCount digit p d,
        (List.range radix).flatMap (filledBucket digit ro p)) := by
  induction p using List.reverseRecOn generalizing re with
  | nil => simp [digitCount]
  | append_singleton p row ih =>
    have hro : digit row < radix := hdi row (by simp [hr])
    rw [List.foldl_append, ih (by rw [hr]; simp : ro = p ++ (row :: re))]
    have hle : ∀ d, digitCount digit (p ++ [row]) d ≤ digitCount digit ro d := by
      intro d
      unfold digitCount
      rw [hr, List.filter_append (p ++ [row]) re, List.length_append]
      exact Nat.le_add_right _ _
    have hl : ∀ d, digitCount digit p d ≤ digitCount digit ro d := by
      intro d
      have hd := hle d
      rw [digitCount_concat] at hd
      omega
    have hf : digitCount digit p (digit row) < digitCount digit ro (digit row) := by
      have hd := hle (digit row)
      rw [digitCount_concat, if_pos rfl] at hd
      omega
    simp only [List.foldl_cons, List.foldl_nil, placeRow]
    refine Prod.ext ?_ ?_
    · apply List.ext_getElem
      · simp
      · intro d h₁ h₂
        rw [List.getElem_modify]
        simp only [List.getElem_map, List.getElem_range, digitCount_concat]
        split <;> omega
    · have hs : ((List.range radix).map fun d =>
          digitStart (digitCount digit ro) d + digitCount digit p d).getD (digit row) 0
            = digitStart (fun d => (filledBucket digit ro p d).length) (digit row)
              + digitCount digit p (digit row) := by
        simp only [length_filledBucket (hl _)]
        rw [List.getD_eq_getElem _ _ (by simpa using hro)]
        simp
      have hb : digitCount digit p (digit row) < (filledBucket digit ro p (digit row)).length := by
        rw [length_filledBucket (hl _)]
        exact hf
      simp only [hs]
      rw [set_flatMap_range _ _ hro hb]
      refine List.flatMap_congr fun d _ => ?_
      by_cases hd : d = digit row
      · -- the first free slot of the digit is taken
        subst hd
        obtain ⟨k, hk⟩ := Nat.exists_eq_add_of_lt hf
        rw [Function.update_self]
        unfold filledBucket
        rw [digitCount_concat, if_pos rfl, List.set_append_right _ _ (by simp [digitCount])]
        have hz : digitCount digit p (digit row)
            - ((p.filter fun r => digit r = digit row).map some).length = 0 := by
          simp [digitCount]
        have hsu : digitCount digit ro (digit row) - digitCount digit p (digit row)
            = k + 1 := by omega
        have hs' : digitCount digit ro (digit row)
            - (digitCount digit p (digit row) + 1) = k := by omega
        rw [hz, hsu, hs', List.replicate_succ, List.set_cons_zero]
        simp
      · rw [Function.update_of_ne hd]
        unfold filledBucket
        rw [digitCount_concat, if_neg (Ne.symm hd), Nat.add_zero, List.filter_append]
        simp [Ne.symm hd]

/-- Every row has one of the digits. -/
theorem digitStart_digitCount {ro : List α} (hd : ∀ row ∈ ro, digit row < radix) :
    digitStart (digitCount digit ro) radix = ro.length := by
  have ho : ∀ k n : ℕ, ((List.range n).map fun d => if k = d then 1 else 0).sum
      = if k < n then 1 else 0 := by
    intro k n
    induction n with
    | zero => simp
    | succ n ih =>
      rw [List.range_succ, List.map_append, List.sum_append, ih]
      rcases Nat.lt_trichotomy k n with hlt | rfl | hgt
      · simp [hlt, hlt.ne, Nat.lt_succ_of_lt hlt]
      · simp
      · simp [hgt.not_gt, hgt.ne', (Nat.succ_le_of_lt hgt).not_gt]
  induction ro using List.reverseRecOn with
  | nil =>
    have hz : digitCount digit [] = fun _ => 0 := rfl
    simp [digitStart, hz]
  | append_singleton ro row ih =>
    have hre := ih fun r hr => hd r (List.mem_append_left _ hr)
    unfold digitStart at hre ⊢
    rw [funext (digitCount_concat ro row), List.sum_map_add, hre, ho, if_pos (hd row (by simp)),
      List.length_append,
      List.length_singleton]

/-- **A counting pass** gives the rows by digit. -/
theorem countingPass_eq_buckets {r : List α} (hdi : ∀ row ∈ r, digit row < radix) :
    countingPass radix digit r = buckets radix digit r := by
  have hs : startOffsets (digitCounts radix digit r)
      = (List.range radix).map (digitStart (digitCount digit r)) := by
    rw [startOffsets_eq, digitCounts_eq, List.length_map, List.length_range]
    refine List.map_congr_left fun d hd => ?_
    rw [← List.map_take, List.take_range, Nat.min_eq_left (List.mem_range.mp hd).le]
    rfl
  have he : (List.range radix).flatMap (filledBucket digit r [])
      = List.replicate r.length none := by
    rw [List.eq_replicate_iff]
    constructor
    · rw [length_flatMap_range, ← digitStart_digitCount hdi]
      congr 1
      funext d
      exact length_filledBucket (Nat.zero_le _)
    · intro slot hsl
      obtain ⟨d, -, hm⟩ := List.mem_flatMap.mp hsl
      exact List.eq_of_mem_replicate (by simpa [filledBucket] using hm)
  unfold countingPass
  rw [hs, ← he, foldl_placeRow hdi (List.append_nil r).symm]
  unfold buckets
  rw [List.filterMap_flatMap]
  refine List.flatMap_congr fun d _ => ?_
  simp [filledBucket]

/-- Of the buckets, one holds the rows of a digit. -/
theorem filter_buckets (r : List α) (k : ℕ) :
    (buckets radix digit r).filter (fun row => digit row = k)
      = if k < radix then r.filter fun row => digit row = k else [] := by
  unfold buckets
  induction radix with
  | zero => rfl
  | succ n ih =>
    rw [List.range_succ, List.flatMap_append, List.filter_append, ih, List.flatMap_singleton,
      List.filter_filter]
    rcases Nat.lt_trichotomy k n with hlt | rfl | hgt
    · have hn : r.filter (fun row => decide (digit row = k) && decide (digit row = n)) = [] := by
        rw [List.filter_eq_nil_iff]
        intro row _
        simp only [Bool.and_eq_true, decide_eq_true_eq]
        omega
      rw [hn, if_pos hlt, if_pos (Nat.lt_succ_of_lt hlt), List.append_nil]
    · simp
    · have hn : r.filter (fun row => decide (digit row = k) && decide (digit row = n)) = [] := by
        rw [List.filter_eq_nil_iff]
        intro row _
        simp only [Bool.and_eq_true, decide_eq_true_eq]
        omega
      rw [hn, if_neg hgt.not_gt, if_neg (Nat.succ_le_of_lt hgt).not_gt, List.append_nil]

/-- **A counting pass sorts stably by its digit.** -/
theorem isStableSort_countingPass {r : List α} (hd : ∀ row ∈ r, digit row < radix) :
    IsStableSort (fun a b => compare (digit a) (digit b)) r (countingPass radix digit r) := by
  rw [countingPass_eq_buckets hd]
  constructor
  · unfold buckets
    rw [List.pairwise_flatMap]
    constructor
    · intro d _
      refine List.Pairwise.imp_of_mem ?_ (List.pairwise_of_forall fun _ _ => trivial)
      intro a b ha hb _
      have ha' := (List.mem_filter.mp ha).2
      have hb' := (List.mem_filter.mp hb).2
      rw [decide_eq_true_eq] at ha' hb'
      simp [ha', hb']
    · refine List.Pairwise.imp ?_ List.pairwise_lt_range
      intro d e hlt a ha b hb
      have ha' := (List.mem_filter.mp ha).2
      have hb' := (List.mem_filter.mp hb).2
      rw [decide_eq_true_eq] at ha' hb'
      rw [ha', hb', Nat.compare_eq_lt.mpr hlt]
      decide
  · intro a
    have hc : ∀ b, (compare (digit a) (digit b) = .eq) = (digit b = digit a) := by
      intro b
      rw [Nat.compare_eq_eq]
      exact propext eq_comm
    simp only [hc]
    rw [filter_buckets]
    split
    · rfl
    · rename_i ho
      refine (List.filter_eq_nil_iff.mpr fun row hr => ?_).symm
      rw [decide_eq_true_eq]
      intro heq
      exact ho (heq ▸ hd row hr)

end Counting

/-! ## Passes over several digits -/

section Radix

variable {κ : Type*} {radix : ℕ} {digit : κ → α → ℕ}

/-- The comparison by digits, most significant first. -/
def compareDigits (digit : κ → α → ℕ) (positions : List κ) (a b : α) : Ordering :=
  positions.foldr (fun p rest => (compare (digit p a) (digit p b)).then rest) .eq

/-- The comparison by digits is the comparison of the lists of digits. -/
theorem compareDigits_eq (digit : κ → α → ℕ) (ps : List κ) (a b : α) : compareDigits digit ps a b
      = compare (ps.map (digit · a)) (ps.map (digit · b)) := by
  induction ps with
  | nil => rfl
  | cons p ps ih =>
    rw [List.map_cons, List.map_cons, List.compare_cons_cons, ← ih]
    rfl

instance (digit : κ → α → ℕ) (positions : List κ) :
    Std.TransCmp (compareDigits digit positions) := by
  rw [show compareDigits digit positions = fun a b =>
      compare (positions.map (digit · a)) (positions.map (digit · b)) from
    funext fun a => funext fun b => compareDigits_eq digit positions a b]
  exact @ComparisonSort.transCmp_on _ _ compare _ fun a => positions.map (digit · a)

/-- **Counting passes, least significant digit first, sort stably by all digits.** -/
theorem isStableSort_radix {r : List α} (hd : ∀ p, ∀ row ∈ r, digit p row < radix) (ps : List κ) :
    IsStableSort (compareDigits digit ps) r
      (ps.reverse.foldl (fun r p => countingPass radix (digit p) r) r) := by
  rw [List.foldl_reverse]
  induction ps with
  | nil =>
    refine ⟨List.pairwise_of_forall fun _ _ => ?_, fun _ => rfl⟩
    simp [compareDigits]
  | cons p ps ih =>
    have ht : Std.TransCmp fun a b => compare (digit p a) (digit p b) :=
      @ComparisonSort.transCmp_on _ _ compare _ (digit p)
    rw [List.foldr_cons]
    refine ih.then (isStableSort_countingPass ?_)
    intro row hr
    exact hd p row (ih.mem_iff.mp hr)

end Radix

end StableSort
