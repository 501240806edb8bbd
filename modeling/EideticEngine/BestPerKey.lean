/-
# The best of each key within a bound

Entries arrive one by one.  A frontier keeps, for as many keys as the bound allows, the best
entry of the key; an entry that is better than the kept one of its key replaces it, and when
there are too many the worst one leaves, together with its key.  Although a key that left may
return, the frontier always holds the first ones, within the bound, of the best entries of all
keys: what left was behind as many keys as there is room for, and these only improve.
-/
import EideticEngine.BoundedInsert
import EideticEngine.OrderedMap
import EideticEngine.StableSort

namespace BestPerKey

open BoundedInsert (StrictlySorted)
open Std (ExtTreeMap)

variable {α κ : Type*} {cmp : α → α → Ordering} {keyCmp : κ → κ → Ordering}

/-! ## The first elements of a set -/

/-- The first elements of a set, as many as the bound allows. -/
structure IsFirst (cmp : α → α → Ordering) (bound : ℕ) (S : α → Prop) (l : List α) : Prop where
  sorted : StrictlySorted cmp l
  mem : ∀ a ∈ l, S a
  length_le : l.length ≤ bound
  rest : ∀ a, S a → a ∉ l → l.length = bound ∧ ∀ b ∈ l, cmp b a = .lt

theorem IsFirst.congr {bound : ℕ} {S T : α → Prop} {l : List α} (h : IsFirst cmp bound S l)
    (hST : ∀ a, S a ↔ T a) : IsFirst cmp bound T l where
  sorted := h.sorted
  mem a ha := (hST a).mp (h.mem a ha)
  length_le := h.length_le
  rest a ha := h.rest a ((hST a).mpr ha)

theorem lt_of_ne {a b : α} (hle : cmp a b ≠ .gt) (hne : cmp a b ≠ .eq) : cmp a b = .lt := by
  cases hc : cmp a b with
  | lt => rfl
  | eq => exact absurd hc hne
  | gt => exact absurd hc hle

section Order

variable [Std.TransCmp cmp]

theorem lt_of_lt_of_le {a b c : α} (hab : cmp a b = .lt) (hbc : cmp b c ≠ .gt) :
    cmp a c = .lt :=
  Std.TransCmp.lt_of_lt_of_isLE hab (Ordering.isLE_iff_ne_gt.mpr hbc)

theorem lt_asymm {a b : α} (hab : cmp a b = .lt) (hba : cmp b a = .lt) : False := by
  rw [← Std.OrientedCmp.gt_iff_lt, hab] at hba
  cases hba

theorem IsFirst.subset {bound : ℕ} {S : α → Prop} {l l' : List α} (h : IsFirst cmp bound S l)
    (h' : IsFirst cmp bound S l') {a : α} (ha : a ∈ l) : a ∈ l' := by
  by_contra hout
  obtain ⟨hf, hbe⟩ := h'.rest a (h.mem a ha) hout
  -- the other list is full, so it has an element that this one lacks
  obtain ⟨b, hb, hbo⟩ : ∃ b ∈ l', b ∉ l := by
    by_contra hall
    push Not at hall
    have hs : (a :: l').Subperm l := by
      refine List.subperm_of_subset (List.nodup_cons.mpr ⟨hout, h'.sorted.nodup⟩) ?_
      intro b hb
      rcases List.mem_cons.mp hb with rfl | hb
      · exact ha
      · exact hall b hb
    have hl := hs.length_le
    rw [List.length_cons] at hl
    have hle := h.length_le
    omega
  exact lt_asymm (hbe b hb) ((h.rest b (h'.mem b hb) hbo).2 a ha)

/-- **There is one list of first elements.** -/
theorem IsFirst.unique {bound : ℕ} {S : α → Prop} {l l' : List α} (h : IsFirst cmp bound S l)
    (h' : IsFirst cmp bound S l') : l = l' :=
  h.sorted.eq_of_mem_iff h'.sorted fun _ => ⟨h.subset h', h'.subset h⟩

/-- The beginning of the sorted list holds the first elements. -/
theorem isFirst_take_sortBy (bound : ℕ) {l : List α} (hne : l.Pairwise fun a b => cmp a b ≠ .eq) :
    IsFirst cmp bound (· ∈ l) ((StableSort.sortBy cmp l).take bound) := by
  have hp : (StableSort.sortBy cmp l).Perm l := List.perm_insertionSort _ l
  have hs : StrictlySorted cmp (StableSort.sortBy cmp l) := by
    have h' : (StableSort.sortBy cmp l).Pairwise fun a b => cmp a b ≠ .eq :=
      hp.symm.pairwise hne fun hab hba => hab (Std.OrientedCmp.eq_symm hba)
    refine (h'.and (StableSort.isStableSort_sortBy l).sorted).imp ?_
    exact fun hab => lt_of_ne hab.2 hab.1
  refine ⟨hs.sublist (List.take_sublist _ _), fun a ha => ?_, List.length_take_le _ _,
    fun a ha ho => ?_⟩
  · exact hp.mem_iff.mp (List.mem_of_mem_take ha)
  · have hd : a ∈ (StableSort.sortBy cmp l).drop bound := by
      have hm := hp.mem_iff.mpr ha
      rw [← List.take_append_drop bound (StableSort.sortBy cmp l)] at hm
      exact (List.mem_append.mp hm).resolve_left ho
    rw [← List.take_append_drop bound (StableSort.sortBy cmp l)] at hs
    refine ⟨?_, fun b hb => (List.pairwise_append.mp hs).2.2 b hb a hd⟩
    rw [List.length_take, Nat.min_eq_left]
    by_contra hlt
    rw [List.drop_eq_nil_of_le (by omega)] at hd
    cases hd

/-- Sorting one more element in and cutting at the bound keeps the first elements. -/
theorem IsFirst.concat {bound : ℕ} {S : α → Prop} {first : List α} {a : α}
    (h : IsFirst cmp bound S first) (hne : ∀ b, S b → cmp b a ≠ .eq) :
    IsFirst cmp bound (fun b => S b ∨ b = a)
      ((StableSort.sortBy cmp (first ++ [a])).take bound) := by
  have hpa : (first ++ [a]).Pairwise fun a b => cmp a b ≠ .eq := by
    refine List.pairwise_append.mpr ⟨h.sorted.imp ?_, List.pairwise_singleton _ a, ?_⟩
    · intro b c hlt heq
      rw [hlt] at heq
      cases heq
    · intro b hb c hc
      rw [List.mem_singleton.mp hc]
      exact hne b (h.mem b hb)
  have hp := isFirst_take_sortBy bound hpa
  set l := (StableSort.sortBy cmp (first ++ [a])).take bound
  have hm : ∀ b ∈ l, b ∈ first ∨ b = a := fun b hb => by simpa using hp.mem b hb
  refine ⟨hp.sorted, fun b hb => (hm b hb).imp_left (h.mem b), hp.length_le, fun b hb ho => ?_⟩
  by_cases hin : b ∈ first ++ [a]
  · exact hp.rest b hin ho
  · rw [List.mem_append, List.mem_singleton, not_or] at hin
    obtain ⟨hf, hbe⟩ := h.rest b (hb.resolve_right hin.2) hin.1
    -- there is one element too many, so one of the old ones was cut off or the new one was
    obtain ⟨cut, hcut, hcu⟩ : ∃ cut ∈ first ++ [a], cut ∉ l := by
      by_contra hall
      push Not at hall
      have hn : (first ++ [a]).Nodup := by
        refine hpa.imp ?_
        rintro b _ hne rfl
        exact hne Std.ReflCmp.compare_self
      have hl := (List.subperm_of_subset hn hall).length_le
      rw [List.length_append, List.length_singleton] at hl
      have hle := hp.length_le
      omega
    obtain ⟨hl, hbef⟩ := hp.rest cut hcut hcu
    refine ⟨hl, fun c hc => ?_⟩
    rcases hm c hc with hc' | rfl
    · exact hbe c hc'
    · rcases List.mem_append.mp hcut with hcu' | hcu'
      · exact Std.TransCmp.lt_trans (hbef c hc) (hbe cut hcu')
      · rw [List.mem_singleton.mp hcu'] at hcu
        exact absurd hc hcu

/-! ## Insertion and removal -/

/-- `BTreeSet::insert` on the sorted list of the elements. -/
def insertNew (cmp : α → α → Ordering) (a : α) (l : List α) : List α :=
  if l.any fun b => cmp a b = .eq then l else l.orderedInsert (fun a b => cmp a b ≠ .gt) a

/-- `BTreeSet::remove`. -/
def removeEqual (cmp : α → α → Ordering) (a : α) (l : List α) : List α :=
  l.filter fun b => cmp a b ≠ .eq

theorem strictlySorted_orderedInsert {a : α} {l : List α} (hl : StrictlySorted cmp l)
    (hne : ∀ b ∈ l, cmp b a ≠ .eq) :
    StrictlySorted cmp (l.orderedInsert (fun a b => cmp a b ≠ .gt) a) := by
  induction l with
  | nil => exact List.pairwise_singleton _ a
  | cons b l ih =>
    obtain ⟨hb, ht⟩ := List.pairwise_cons.mp hl
    rw [List.orderedInsert_cons]
    split
    · rename_i hle
      have hab : cmp a b = .lt :=
        lt_of_ne hle fun heq => hne b List.mem_cons_self (Std.OrientedCmp.eq_symm heq)
      refine List.pairwise_cons.mpr ⟨fun c hc => ?_, hl⟩
      rcases List.mem_cons.mp hc with rfl | hc
      · exact hab
      · exact Std.TransCmp.lt_trans hab (hb c hc)
    · rename_i hgt
      refine List.pairwise_cons.mpr
        ⟨fun c hc => ?_, ih ht fun c hc => hne c (List.mem_cons_of_mem _ hc)⟩
      rcases (List.mem_orderedInsert _).mp hc with rfl | hc
      · exact Std.OrientedCmp.gt_iff_lt.mp (not_not.mp hgt)
      · exact hb c hc

theorem insertNew_spec {a : α} {l : List α} (hl : StrictlySorted cmp l)
    (hne : ∀ b ∈ l, cmp b a ≠ .eq) :
    StrictlySorted cmp (insertNew cmp a l) ∧ (insertNew cmp a l).Perm (a :: l) := by
  have hn : ¬ (l.any fun b => cmp a b = .eq) = true := by
    rw [List.any_eq_true]
    rintro ⟨b, hb, heq⟩
    exact hne b hb (Std.OrientedCmp.eq_symm (by simpa using heq))
  rw [insertNew, if_neg hn]
  exact ⟨strictlySorted_orderedInsert hl hne, List.perm_orderedInsert _ a l⟩

theorem eq_of_cmp_eq {l : List α} (hl : StrictlySorted cmp l) {a b : α} (ha : a ∈ l) (hb : b ∈ l)
    (heq : cmp a b = .eq) : a = b := by
  induction l with
  | nil => cases ha
  | cons c l ih =>
    obtain ⟨hc, ht⟩ := List.pairwise_cons.mp hl
    rcases List.mem_cons.mp ha with rfl | ha' <;> rcases List.mem_cons.mp hb with rfl | hb'
    · rfl
    · rw [hc b hb'] at heq
      cases heq
    · rw [Std.OrientedCmp.eq_comm, hc a ha'] at heq
      cases heq
    · exact ih ht ha' hb'

theorem mem_removeEqual {a b : α} {l : List α} (hl : StrictlySorted cmp l) (ha : a ∈ l) :
    b ∈ removeEqual cmp a l ↔ b ∈ l ∧ b ≠ a := by
  rw [removeEqual, List.mem_filter, decide_eq_true_eq]
  refine and_congr_right fun hb => ⟨?_, ?_⟩
  · rintro hne rfl
    exact hne Std.ReflCmp.compare_self
  · intro hne heq
    exact hne (eq_of_cmp_eq hl ha hb heq).symm

theorem length_removeEqual {a : α} {l : List α} (hl : StrictlySorted cmp l) (ha : a ∈ l) :
    (removeEqual cmp a l).length + 1 = l.length := by
  have hp : (a :: removeEqual cmp a l).Perm l := by
    refine (List.perm_ext_iff_of_nodup ?_ hl.nodup).mpr fun b => ?_
    · refine List.nodup_cons.mpr ⟨fun hm => ?_, hl.nodup.filter _⟩
      exact ((mem_removeEqual hl ha).mp hm).2 rfl
    · rw [List.mem_cons, mem_removeEqual hl ha]
      by_cases hb : b = a
      · simp [hb, ha]
      · simp [hb]
  exact hp.length_eq

end Order

/-! ## The frontier -/

/-- An entry that is not worse than any other of its key. -/
def IsBest (cmp : α → α → Ordering) (keyOf : α → κ) (seen : List α) (a : α) : Prop :=
  a ∈ seen ∧ ∀ b ∈ seen, keyOf b = keyOf a → cmp a b ≠ .gt

section Frontier

variable [Std.TransCmp cmp] [Std.TransCmp keyCmp] [Std.LawfulEqCmp keyCmp]
  {keyOf : α → κ} {bound : ℕ}

/-- Admit an entry under its key, and drop the worst one when there are too many. -/
def admitNew (cmp : α → α → Ordering) (keyOf : α → κ) (bound : ℕ) (kept : ExtTreeMap κ α keyCmp)
    (best : List α) (entry : α) : ExtTreeMap κ α keyCmp × List α :=
  let kept := kept.insert (keyOf entry) entry
  let best := insertNew cmp entry best
  if bound < best.length then
    match best.getLast? with
    | some worst => (kept.erase (keyOf worst), best.dropLast)
    | none => (kept, best)
  else (kept, best)

/-- Offer an entry: it replaces a worse one of its key. -/
def offer (cmp : α → α → Ordering) (keyOf : α → κ) (bound : ℕ)
    (frontier : ExtTreeMap κ α keyCmp × List α) (entry : α) : ExtTreeMap κ α keyCmp × List α :=
  match frontier.1[keyOf entry]? with
  | some previous =>
    if cmp entry previous ≠ .lt then frontier
    else admitNew cmp keyOf bound frontier.1 (removeEqual cmp previous frontier.2) entry
  | none => admitNew cmp keyOf bound frontier.1 frontier.2 entry

/-- What a frontier holds of the entries seen so far. -/
structure Holds (cmp : α → α → Ordering) (keyOf : α → κ) (bound : ℕ) (seen : List α)
    (frontier : ExtTreeMap κ α keyCmp × List α) : Prop where
  first : IsFirst cmp bound (IsBest cmp keyOf seen) frontier.2
  kept : ∀ key a, frontier.1[key]? = some a ↔ a ∈ frontier.2 ∧ keyOf a = key

/-! ### The best of the keys -/

/-- Every key that was seen has a best entry. -/
theorem exists_isBest {seen : List α} {a : α} (ha : a ∈ seen) :
    ∃ b, IsBest cmp keyOf seen b ∧ keyOf b = keyOf a := by
  classical
  have hne : (StableSort.sortBy cmp (seen.filter fun b => keyOf b = keyOf a)) ≠ [] := by
    refine List.ne_nil_of_mem (a := a) ?_
    rw [StableSort.sortBy, List.mem_insertionSort, List.mem_filter]
    exact ⟨ha, by simp⟩
  obtain ⟨b, r, hso⟩ := List.exists_cons_of_ne_nil hne
  have hm : ∀ c, c ∈ b :: r ↔ c ∈ seen ∧ keyOf c = keyOf a := by
    intro c
    rw [← hso, StableSort.sortBy, List.mem_insertionSort, List.mem_filter]
    simp
  have hb := (hm b).mp List.mem_cons_self
  refine ⟨b, ⟨hb.1, fun c hc hk => ?_⟩, hb.2⟩
  have hs := (@StableSort.isStableSort_sortBy _ cmp _
    (seen.filter fun b => keyOf b = keyOf a)).sorted
  rw [hso] at hs
  rcases List.mem_cons.mp ((hm c).mpr ⟨hc, hk.trans hb.2⟩) with rfl | hr
  · have hse : cmp c c = .eq := Std.ReflCmp.compare_self
    rw [hse]
    decide
  · exact (List.pairwise_cons.mp hs).1 c hr

/-- The best entries after one more. -/
theorem isBest_concat {seen : List α} {entry : α} (hne : ∀ b ∈ seen, cmp b entry ≠ .eq) (a : α) :
    IsBest cmp keyOf (seen ++ [entry]) a
      ↔ a = entry ∧ (∀ b ∈ seen, keyOf b = keyOf entry → cmp entry b = .lt)
        ∨ IsBest cmp keyOf seen a ∧ (keyOf a = keyOf entry → cmp a entry = .lt) := by
  have hse : ∀ a : α, cmp a a ≠ .gt := fun a => by
    have heq : cmp a a = .eq := Std.ReflCmp.compare_self
    rw [heq]
    decide
  constructor
  · rintro ⟨ha, hbe⟩
    rcases List.mem_append.mp ha with hs | hn
    · refine .inr ⟨⟨hs, fun b hb => hbe b (List.mem_append_left _ hb)⟩, fun hk => ?_⟩
      exact lt_of_ne (hbe entry (by simp) hk.symm) (hne a hs)
    · obtain rfl := List.mem_singleton.mp hn
      refine .inl ⟨rfl, fun b hb hk => ?_⟩
      exact lt_of_ne (hbe b (List.mem_append_left _ hb) hk)
        fun heq => hne b hb (Std.OrientedCmp.eq_symm heq)
  · rintro (⟨rfl, hbef⟩ | ⟨⟨hs, hbe⟩, hbef⟩)
    · refine ⟨by simp, fun b hb hk => ?_⟩
      rcases List.mem_append.mp hb with hb | hb
      · rw [hbef b hb hk]
        decide
      · rw [List.mem_singleton.mp hb]
        exact hse a
    · refine ⟨List.mem_append_left _ hs, fun b hb hk => ?_⟩
      rcases List.mem_append.mp hb with hb | hb
      · exact hbe b hb hk
      · rw [List.mem_singleton.mp hb] at hk ⊢
        rw [hbef hk.symm]
        decide

/-- Among the best entries each key has one. -/
theorem IsFirst.key_injective {seen best : List α}
    (h : IsFirst cmp bound (IsBest cmp keyOf seen) best) {a b : α} (ha : a ∈ best) (hb : b ∈ best)
    (hk : keyOf a = keyOf b) : a = b := by
  have hab := (h.mem a ha).2 b (h.mem b hb).1 hk.symm
  have hba := (h.mem b hb).2 a (h.mem a ha).1 hk
  exact eq_of_cmp_eq h.sorted ha hb (ComparisonSort.eq_of_ne_gt hab hba)

/-! ### One more entry -/

section Step

variable [DecidableEq κ] {seen : List α} {entry : α} {kept : ExtTreeMap κ α keyCmp}
  {best : List α}

/-- An entry that beats the kept one of its key takes its place. -/
theorem Holds.replace (h : Holds cmp keyOf bound seen (kept, best))
    (hne : ∀ b ∈ seen, cmp b entry ≠ .eq) {ps : α}
    (hpr : kept[keyOf entry]? = some ps) (hlt : cmp entry ps = .lt) :
    Holds cmp keyOf bound (seen ++ [entry])
      (admitNew cmp keyOf bound kept (removeEqual cmp ps best) entry) := by
  obtain ⟨hm, hk⟩ := (h.kept _ _).mp hpr
  simp only at hm
  have hr : ∀ b, b ∈ removeEqual cmp ps best ↔ b ∈ best ∧ b ≠ ps :=
    fun b => mem_removeEqual h.first.sorted hm
  have hot : ∀ b ∈ best, b ≠ ps → keyOf b ≠ keyOf entry := fun b hb hbn hbk =>
    hbn (h.first.key_injective hb hm (hbk.trans hk.symm))
  obtain ⟨hs, hp⟩ := insertNew_spec (a := entry) (h.first.sorted.filter fun b => cmp ps b ≠ .eq)
    fun b hb => hne b (h.first.mem b ((hr b).mp hb).1).1
  change StrictlySorted cmp (insertNew cmp entry (removeEqual cmp ps best)) at hs
  change (insertNew cmp entry (removeEqual cmp ps best)).Perm
    (entry :: removeEqual cmp ps best) at hp
  have hl : (insertNew cmp entry (removeEqual cmp ps best)).length = best.length := by
    rw [hp.length_eq, List.length_cons, length_removeEqual h.first.sorted hm]
  have hn : ∀ b, b ∈ insertNew cmp entry (removeEqual cmp ps best)
      ↔ b = entry ∨ b ∈ best ∧ b ≠ ps := fun b => by
    rw [hp.mem_iff, List.mem_cons, hr]
  have hbo := h.first.length_le
  simp only at hbo
  have hf : ¬ bound < (insertNew cmp entry (removeEqual cmp ps best)).length := by omega
  rw [admitNew, if_neg hf]
  refine ⟨⟨hs, fun a ha => ?_, hl.trans_le hbo, fun a ha hou => ?_⟩, fun key a => ?_⟩
  · refine (isBest_concat hne a).mpr ?_
    rcases (hn a).mp ha with rfl | ⟨ho, han⟩
    · refine .inl ⟨rfl, fun b hb hbk => ?_⟩
      exact lt_of_lt_of_le hlt ((h.first.mem ps hm).2 b hb (hbk.trans hk.symm))
    · exact .inr ⟨h.first.mem a ho, fun hak => absurd hak (hot a ho han)⟩
  · rw [hn, not_or] at hou
    rcases (isBest_concat hne a).mp ha with ⟨rfl, -⟩ | ⟨hbes, hbef⟩
    · exact absurd rfl hou.1
    · -- the best of the entry's key so far was the previous one, which the entry beats
      have hao : a ∉ best := by
        intro hai
        obtain rfl : a = ps := by
          by_contra han
          exact hou.2 ⟨hai, han⟩
        exact lt_asymm hlt (hbef hk)
      obtain ⟨hfu, hbe⟩ := h.first.rest a hbes hao
      refine ⟨hl.trans hfu, fun b hb => ?_⟩
      rcases (hn b).mp hb with rfl | ⟨ho, -⟩
      · exact Std.TransCmp.lt_trans hlt (hbe ps hm)
      · exact hbe b ho
  · rw [ExtTreeMap.getElem?_insert_ite, hn]
    split
    · rename_i hke
      constructor
      · intro heq
        obtain rfl := Option.some.inj heq
        exact ⟨.inl rfl, hke⟩
      · rintro ⟨rfl | ⟨ho, han⟩, hak⟩
        · rfl
        · exact absurd (hak.trans hke.symm) (hot a ho han)
    · rename_i hkeyNe
      rw [h.kept]
      constructor
      · rintro ⟨ho, hak⟩
        refine ⟨.inr ⟨ho, fun heq => hkeyNe ?_⟩, hak⟩
        rw [← hak, heq, hk]
      · rintro ⟨rfl | ⟨ho, -⟩, hak⟩
        · exact absurd hak hkeyNe
        · exact ⟨ho, hak⟩

omit [Std.LawfulEqCmp keyCmp] [DecidableEq κ] in
/-- An entry that does not beat the kept one of its key changes nothing. -/
theorem Holds.skip (h : Holds cmp keyOf bound seen (kept, best))
    (hne : ∀ b ∈ seen, cmp b entry ≠ .eq) {ps : α}
    (hpr : kept[keyOf entry]? = some ps) (hge : cmp entry ps ≠ .lt) :
    Holds cmp keyOf bound (seen ++ [entry]) (kept, best) := by
  obtain ⟨hm, hk⟩ := (h.kept _ _).mp hpr
  have hp := h.first.mem ps hm
  have hlt : cmp ps entry = .lt := by
    refine lt_of_ne (fun hgt => hge (Std.OrientedCmp.gt_iff_lt.mp hgt)) (hne ps hp.1)
  refine ⟨h.first.congr fun a => ?_, h.kept⟩
  rw [isBest_concat hne]
  constructor
  · intro hb
    refine .inr ⟨hb, fun ha => ?_⟩
    exact Std.TransCmp.lt_of_isLE_of_lt
      (Ordering.isLE_iff_ne_gt.mpr (hb.2 ps hp.1 (hk.trans ha.symm))) hlt
  · rintro (⟨rfl, hbe⟩ | ⟨hb, -⟩)
    · exact absurd (hbe ps hp.1 hk) hge
    · exact hb

omit [Std.TransCmp cmp] [Std.LawfulEqCmp keyCmp] [DecidableEq κ] in
theorem Holds.key_ne (h : Holds cmp keyOf bound seen (kept, best))
    (hn : kept[keyOf entry]? = none) {b : α} (hb : b ∈ best) : keyOf b ≠ keyOf entry := by
  intro hbk
  have hs : kept[keyOf entry]? = some b := (h.kept (keyOf entry) b).mpr ⟨hb, hbk⟩
  rw [hn] at hs
  cases hs

omit [Std.LawfulEqCmp keyCmp] [DecidableEq κ] in
/-- Where a key is not kept, its entries that were seen are behind a full frontier. -/
theorem Holds.behind (h : Holds cmp keyOf bound seen (kept, best))
    (hn : kept[keyOf entry]? = none) {b : α} (hb : b ∈ seen) (hbk : keyOf b = keyOf entry) :
    best.length = bound ∧ ∀ c ∈ best, cmp c b = .lt := by
  obtain ⟨first, hf, hfk⟩ := @exists_isBest _ _ cmp _ keyOf _ _ hb
  have ho : first ∉ best := fun hin => h.key_ne hn hin (hfk.trans hbk)
  obtain ⟨hfu, hbe⟩ := h.first.rest first hf ho
  exact ⟨hfu, fun c hc => lt_of_lt_of_le (hbe c hc) (hf.2 b hb hfk.symm)⟩

omit [Std.LawfulEqCmp keyCmp] [DecidableEq κ] in
theorem Holds.isBest_concat (h : Holds cmp keyOf bound seen (kept, best))
    (hne : ∀ b ∈ seen, cmp b entry ≠ .eq) (hn : kept[keyOf entry]? = none) {a : α}
    (ha : a ∈ best) : IsBest cmp keyOf (seen ++ [entry]) a :=
  (BestPerKey.isBest_concat hne a).mpr
    (.inr ⟨h.first.mem a ha, fun hak => absurd hak (h.key_ne hn ha)⟩)

/-- An entry of a key that is not kept is admitted where there is room. -/
theorem Holds.admit_room (h : Holds cmp keyOf bound seen (kept, best))
    (hne : ∀ b ∈ seen, cmp b entry ≠ .eq) (hn : kept[keyOf entry]? = none)
    (hr : best.length < bound) :
    Holds cmp keyOf bound (seen ++ [entry])
      (kept.insert (keyOf entry) entry, insertNew cmp entry best) := by
  obtain ⟨hs, hp⟩ := insertNew_spec (a := entry) h.first.sorted
    fun b hb => hne b (h.first.mem b hb).1
  have hkep : ∀ key a, kept[key]? = some a ↔ a ∈ best ∧ keyOf a = key := h.kept
  have hnew : ∀ b, b ∈ insertNew cmp entry best ↔ b = entry ∨ b ∈ best := fun b => by
    rw [hp.mem_iff, List.mem_cons]
  have hl : (insertNew cmp entry best).length = best.length + 1 := hp.length_eq
  refine ⟨⟨hs, fun a ha => ?_, hl.trans_le hr, fun a ha ho => ?_⟩, fun key a => ?_⟩
  · rcases (hnew a).mp ha with rfl | ha
    · refine (BestPerKey.isBest_concat hne a).mpr (.inl ⟨rfl, fun b hb hbk => ?_⟩)
      exact absurd (h.behind hn hb hbk).1 hr.ne
    · exact h.isBest_concat hne hn ha
  · rw [hnew, not_or] at ho
    rcases (BestPerKey.isBest_concat hne a).mp ha with ⟨rfl, -⟩ | ⟨hbe, -⟩
    · exact absurd rfl ho.1
    · exact absurd (h.first.rest a hbe ho.2).1 hr.ne
  · rw [ExtTreeMap.getElem?_insert_ite, hnew]
    split
    · rename_i hk
      constructor
      · intro heq
        obtain rfl := Option.some.inj heq
        exact ⟨.inl rfl, hk⟩
      · rintro ⟨rfl | hb, hak⟩
        · rfl
        · exact absurd (hak.trans hk.symm) (h.key_ne hn hb)
    · rename_i hke
      rw [hkep]
      constructor
      · rintro ⟨hb, hak⟩
        exact ⟨.inr hb, hak⟩
      · rintro ⟨rfl | hb, hak⟩
        · exact absurd hak hke
        · exact ⟨hb, hak⟩

omit [Std.LawfulEqCmp keyCmp] [DecidableEq κ] in
/-- With the entry there is one too many: all but the worst are the first ones. -/
theorem Holds.isFirst_front (h : Holds cmp keyOf bound seen (kept, best))
    (hne : ∀ b ∈ seen, cmp b entry ≠ .eq) (hn : kept[keyOf entry]? = none)
    (hfu : best.length = bound) {f : List α} {w : α}
    (hsp : insertNew cmp entry best = f ++ [w]) :
    IsFirst cmp bound (IsBest cmp keyOf (seen ++ [entry])) f
      ∧ ∀ b, b ∈ f ↔ (b = entry ∨ b ∈ best) ∧ b ≠ w := by
  obtain ⟨hs, hp⟩ := insertNew_spec (a := entry) h.first.sorted
    fun b hb => hne b (h.first.mem b hb).1
  simp only at hs hp
  rw [hsp] at hs hp
  have hl : f.length = bound := by
    have := hp.length_eq
    simp only [List.length_append, List.length_cons, List.length_nil] at this
    omega
  obtain ⟨hf, -, hbe⟩ := List.pairwise_append.mp hs
  replace hbe : ∀ b ∈ f, cmp b w = .lt := fun b hb => hbe b hb w List.mem_cons_self
  have hm : ∀ b, b ∈ f ↔ (b = entry ∨ b ∈ best) ∧ b ≠ w := by
    intro b
    rw [← List.mem_cons, ← hp.mem_iff, List.mem_append, List.mem_singleton]
    constructor
    · intro hb
      refine ⟨.inl hb, ?_⟩
      rintro rfl
      exact lt_asymm (hbe b hb) (hbe b hb)
    · rintro ⟨hb | hb, hbn⟩
      · exact hb
      · exact absurd hb hbn
  have hwo : w = entry ∨ w ∈ best := by
    rw [← List.mem_cons, ← hp.mem_iff]
    exact List.mem_append_right _ List.mem_cons_self
  refine ⟨⟨hf, fun a ha => ?_, hl.le, fun a ha ho => ⟨hl, fun b hb => ?_⟩⟩, hm⟩
  · obtain ⟨rfl | hin, han⟩ := (hm a).mp ha
    · have hw : w ∈ best := hwo.resolve_left fun heq => han heq.symm
      refine (BestPerKey.isBest_concat hne a).mpr (.inl ⟨rfl, fun b hb hbk => ?_⟩)
      exact Std.TransCmp.lt_trans (hbe a ha) ((h.behind hn hb hbk).2 w hw)
    · exact h.isBest_concat hne hn hin
  · by_cases haw : a = w
    · exact haw ▸ hbe b hb
    · have hao : a ≠ entry ∧ a ∉ best := by
        rw [← not_or]
        exact fun hin => ho ((hm a).mpr ⟨hin, haw⟩)
      have hbes : IsBest cmp keyOf seen a := by
        rcases (BestPerKey.isBest_concat hne a).mp ha with ⟨rfl, -⟩ | ⟨hbes, -⟩
        · exact absurd rfl hao.1
        · exact hbes
      have hbeh := (h.first.rest a hbes hao.2).2
      obtain ⟨rfl | hin, hbn⟩ := (hm b).mp hb
      · have hw : w ∈ best := hwo.resolve_left fun heq => hbn heq.symm
        exact Std.TransCmp.lt_trans (hbe b hb) (hbeh w hw)
      · exact hbeh b hin

/-- An entry of a key that is not kept is admitted, and the worst one leaves when there are too
many. -/
theorem Holds.admitNew (h : Holds cmp keyOf bound seen (kept, best))
    (hne : ∀ b ∈ seen, cmp b entry ≠ .eq) (hn : kept[keyOf entry]? = none) :
    Holds cmp keyOf bound (seen ++ [entry]) (admitNew cmp keyOf bound kept best entry) := by
  have hl : (insertNew cmp entry best).length = best.length + 1 :=
    (insertNew_spec h.first.sorted fun b hb => hne b (h.first.mem b hb).1).2.length_eq
  have hbo : best.length ≤ bound := h.first.length_le
  have hkep : ∀ key a, kept[key]? = some a ↔ a ∈ best ∧ keyOf a = key := h.kept
  rw [BestPerKey.admitNew]
  by_cases hf : bound < (insertNew cmp entry best).length
  · rw [if_pos hf]
    have hni : insertNew cmp entry best ≠ [] := by
      intro hni
      rw [hni] at hl
      cases hl
    rw [List.getLast?_eq_some_getLast hni]
    simp only
    set w := (insertNew cmp entry best).getLast hni
    obtain ⟨hfi, hm⟩ := h.isFirst_front hne hn (by omega) (List.dropLast_append_getLast hni).symm
    refine ⟨hfi, fun key a => ?_⟩
    have hwo : w = entry ∨ w ∈ best := by
      have hin := List.getLast_mem hni
      rwa [(insertNew_spec h.first.sorted fun b hb => hne b (h.first.mem b hb).1).2.mem_iff,
        List.mem_cons] at hin
    have hi : ∀ b, (b = entry ∨ b ∈ best) → keyOf b = keyOf w → b = w := by
      intro b hb hbk
      rcases hb with rfl | hb <;> rcases hwo with hw | hw
      · exact hw.symm
      · exact absurd hbk.symm (h.key_ne hn hw)
      · exact absurd (hw ▸ hbk) (h.key_ne hn hb)
      · exact h.first.key_injective hb hw hbk
    rw [ExtTreeMap.getElem?_erase_ite, ExtTreeMap.getElem?_insert_ite, hm]
    split
    · rename_i hk
      constructor
      · intro hn
        cases hn
      · rintro ⟨⟨hb, han⟩, ha⟩
        exact absurd (hi a hb (ha.trans hk.symm)) han
    · rename_i hke
      have han : ∀ b, keyOf b = key → b ≠ w := fun b hbk heq => hke (by rw [← heq, hbk])
      split
      · rename_i hk
        constructor
        · intro heq
          obtain rfl := Option.some.inj heq
          exact ⟨⟨.inl rfl, han _ hk⟩, hk⟩
        · rintro ⟨⟨rfl | hb, -⟩, ha⟩
          · rfl
          · exact absurd (ha.trans hk.symm) (h.key_ne hn hb)
      · rename_i hk'
        rw [hkep]
        constructor
        · rintro ⟨hb, ha⟩
          exact ⟨⟨.inr hb, han a ha⟩, ha⟩
        · rintro ⟨⟨rfl | hb, -⟩, ha⟩
          · exact absurd ha hk'
          · exact ⟨hb, ha⟩
  · rw [if_neg hf]
    exact h.admit_room hne hn (by omega)

/-- **One more entry.** -/
theorem Holds.offer {f : ExtTreeMap κ α keyCmp × List α}
    (h : Holds cmp keyOf bound seen f) (hne : ∀ b ∈ seen, cmp b entry ≠ .eq) :
    Holds cmp keyOf bound (seen ++ [entry]) (offer cmp keyOf bound f entry) := by
  obtain ⟨kept, best⟩ := f
  unfold BestPerKey.offer
  simp only
  split
  · rename_i ps hp
    split
    · rename_i hge
      exact h.skip hne hp hge
    · rename_i hlt
      exact h.replace hne hp (not_not.mp hlt)
  · rename_i hn
    exact h.admitNew hne hn

end Step

/-- **After all entries the frontier holds the first ones of the best of all keys.** -/
theorem holds_foldl_offer [DecidableEq κ] (keyOf : α → κ) (bound : ℕ) {entries : List α}
    (hne : entries.Pairwise fun a b => cmp a b ≠ .eq) :
    Holds cmp keyOf bound entries
      (entries.foldl (offer cmp keyOf bound) ((∅ : ExtTreeMap κ α keyCmp), [])) := by
  induction entries using List.reverseRecOn with
  | nil =>
    refine ⟨⟨List.Pairwise.nil, fun a ha => absurd ha List.not_mem_nil, Nat.zero_le _,
      fun a ha => absurd ha.1 List.not_mem_nil⟩, fun key a => ?_⟩
    simp
  | append_singleton entries entry ih =>
    obtain ⟨he, -, hl⟩ := List.pairwise_append.mp hne
    rw [List.foldl_append]
    exact (ih he).offer fun b hb => hl b hb entry List.mem_cons_self

end Frontier

end BestPerKey
