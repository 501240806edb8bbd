/-
# Union-find with the least key as the root

A forest over ordered keys maps each key that is no root to a smaller one.  Following the
parents ends, because they get smaller and only finitely many keys have one.  Joining two
trees hangs the greater root under the smaller, and every search hangs the keys on its way
directly under the root.  A forest carries the proof that its parents are smaller, so that
searches are total.  After any joins the root of a key is the least key that the joined pairs
connect with it.
-/
import EideticEngine.OrderedMap

open Std (ExtTreeMap TransCmp LawfulEqCmp)

/-- Every parent is smaller than its child. -/
def Descends {α : Type*} {cmp : α → α → Ordering} [TransCmp cmp]
    (parents : ExtTreeMap α α cmp) : Prop :=
  ∀ child parent : α, parents[child]? = some parent → cmp parent child = .lt

/-- A map of parents. -/
structure LeastForest {α : Type*} (cmp : α → α → Ordering) [TransCmp cmp] where
  parents : ExtTreeMap α α cmp
  descends : Descends parents

namespace LeastForest

variable {α : Type*} {cmp : α → α → Ordering} [TransCmp cmp]

/-- The forest in which every key is a root. -/
def empty : LeastForest cmp where
  parents := ∅
  descends := by
    intro child parent h
    rw [ExtTreeMap.getElem?_empty] at h
    cases h

/-! ## Following the parents -/

/-- The keys on the way to the root and the root, for at most so many steps. -/
def climb (parents : ExtTreeMap α α cmp) : ℕ → α → Option (List α × α)
  | 0, _ => none
  | n + 1, current =>
    match parents[current]? with
    | none => some ([], current)
    | some parent => (climb parents n parent).map fun (path, top) => (current :: path, top)

/-- The keys that have a parent and are not greater. -/
def below (parents : ExtTreeMap α α cmp) (current : α) : List α :=
  parents.keys.filter fun key => (cmp key current).isLE

theorem length_below_le (ps : ExtTreeMap α α cmp) (c : α) : (below ps c).length ≤ ps.size := by
  rw [← ExtTreeMap.length_keys]
  exact List.length_filter_le _ _

variable [LawfulEqCmp cmp]

/-- A key that has a parent counts for itself and no longer for the parent. -/
theorem length_below_lt {ps : ExtTreeMap α α cmp} {c p : α}
    (hc : ps[c]? = some p) (hlt : cmp p c = .lt) :
    (below ps p).length < (below ps c).length := by
  have hm : c ∈ below ps c := by
    refine List.mem_filter.mpr ⟨?_, Std.ReflCmp.isLE_rfl⟩
    rw [ExtTreeMap.mem_keys, ExtTreeMap.mem_iff_isSome_getElem?, hc]
    rfl
  have hb : below ps p = (below ps c).filter fun key => (cmp key p).isLE := by
    unfold below
    rw [List.filter_filter]
    refine List.filter_congr fun key _ => ?_
    rw [Bool.eq_iff_iff, Bool.and_eq_true]
    refine ⟨fun hk => ⟨hk, ?_⟩, fun hk => hk.1⟩
    rw [TransCmp.lt_of_isLE_of_lt hk hlt]
    rfl
  rw [hb, List.length_filter_lt_length_iff_exists]
  refine ⟨c, hm, ?_⟩
  rw [Std.OrientedCmp.gt_of_lt hlt]
  decide

/-- Following smaller and smaller parents ends below every key on the way. -/
theorem climb_spec {ps : ExtTreeMap α α cmp} (h : Descends ps) :
    ∀ (n : ℕ) (c : α), (below ps c).length < n →
      ∃ p top, climb ps n c = some (p, top) ∧ (cmp top c).isLE = true ∧
        ∀ key ∈ p, cmp top key = .lt := by
  intro n
  induction n with
  | zero => intro c hn; omega
  | succ n ih =>
    intro c hn
    rw [climb]
    cases hg : ps[c]? with
    | none =>
      exact ⟨[], c, rfl, Std.ReflCmp.isLE_rfl, fun key hk => absurd hk List.not_mem_nil⟩
    | some pa =>
      have hlt := h c pa hg
      have hf := length_below_lt hg hlt
      obtain ⟨p, top, hc, hle, hp⟩ := ih pa (by omega)
      have ht : cmp top c = .lt := TransCmp.lt_of_isLE_of_lt hle hlt
      refine ⟨c :: p, top, by simp only [hc, Option.map_some], ?_, ?_⟩
      · rw [ht]
        rfl
      · intro key hk
        rcases List.mem_cons.mp hk with rfl | hk
        · exact ht
        · exact hp key hk

/-! ## Searching and joining -/

theorem climb_isSome (forest : LeastForest cmp) (key : α) :
    (climb forest.parents (forest.parents.size + 1) key).isSome = true := by
  have hb := length_below_le forest.parents key
  obtain ⟨p, top, hc, -⟩ := climb_spec forest.descends (forest.parents.size + 1) key (by omega)
  rw [hc]
  rfl

/-- The way from a key to its root. -/
def way (forest : LeastForest cmp) (key : α) : List α × α :=
  (climb forest.parents (forest.parents.size + 1) key).get (climb_isSome forest key)

theorem way_lt (forest : LeastForest cmp) (key : α) :
    ∀ child ∈ (forest.way key).1, cmp (forest.way key).2 child = .lt := by
  have hb := length_below_le forest.parents key
  obtain ⟨p, top, hc, -, hp⟩ := climb_spec forest.descends (forest.parents.size + 1) key (by omega)
  have hw : forest.way key = (p, top) := Option.get_of_eq_some _ hc
  rw [hw]
  exact hp

variable [DecidableEq α]

/-- Hang a key under a smaller one. -/
def hang (forest : LeastForest cmp) (child parent : α) (h : cmp parent child = .lt) :
    LeastForest cmp where
  parents := forest.parents.insert child parent
  descends := by
    intro key above hget
    rw [ExtTreeMap.getElem?_insert_ite] at hget
    split at hget
    · rename_i hkey
      rw [← hkey, ← Option.some.inj hget]
      exact h
    · exact forest.descends key above hget

/-- Hang all these keys under a smaller one. -/
def hangAll (forest : LeastForest cmp) (top : α) :
    (path : List α) → (∀ child ∈ path, cmp top child = .lt) → LeastForest cmp
  | [], _ => forest
  | child :: path, h =>
    hangAll (forest.hang child top (h child List.mem_cons_self)) top path
      fun key hkey => h key (List.mem_cons_of_mem child hkey)

/-- The root of a key; the keys on the way are hung under it. -/
def root (forest : LeastForest cmp) (key : α) : α × LeastForest cmp :=
  ((forest.way key).2, forest.hangAll (forest.way key).2 (forest.way key).1 (forest.way_lt key))

/-- Join the trees of two keys. -/
def join (forest : LeastForest cmp) (left right : α) : LeastForest cmp :=
  let (left, forest) := forest.root left
  let (right, forest) := forest.root right
  if h : cmp left right = .lt then forest.hang right left h
  else if h : cmp right left = .lt then forest.hang left right h
  else forest

/-! ## Roots -/

section Roots

variable {forest : LeastForest cmp}

omit [DecidableEq α] in
/-- What holds of the roots, and of a key when it holds of its parent, holds of every key. -/
theorem induction_on (forest : LeastForest cmp) {p : α → Prop}
    (hroot : ∀ key, forest.parents[key]? = none → p key)
    (hchild : ∀ key parent, forest.parents[key]? = some parent → p parent → p key) (key : α) :
    p key := by
  generalize hn : (below forest.parents key).length = n
  induction n using Nat.strong_induction_on generalizing key with
  | _ n ih =>
    cases hget : forest.parents[key]? with
    | none => exact hroot key hget
    | some parent =>
      have hfewer := length_below_lt hget (forest.descends key parent hget)
      exact hchild key parent hget (ih _ (hn ▸ hfewer) parent rfl)

omit [LawfulEqCmp cmp] [DecidableEq α] in
/-- More fuel changes nothing once the way is found. -/
theorem climb_mono {ps : ExtTreeMap α α cmp} {n m : ℕ} {key : α} {f : List α × α}
    (h : climb ps n key = some f) (hle : n ≤ m) : climb ps m key = some f := by
  induction n generalizing m key f with
  | zero => cases h
  | succ n ih =>
    obtain ⟨m, rfl⟩ : ∃ k, m = k + 1 := ⟨m - 1, by omega⟩
    rw [climb] at h ⊢
    cases hg : ps[key]? with
    | none => simpa only [hg] using h
    | some p =>
      simp only [hg, Option.map_eq_some_iff] at h ⊢
      obtain ⟨r, hr, rfl⟩ := h
      exact ⟨r, ih hr (by omega), rfl⟩

omit [DecidableEq α] in
theorem climb_eq_way (forest : LeastForest cmp) (key : α) {n : ℕ}
    (hn : forest.parents.size < n) : climb forest.parents n key = some (forest.way key) :=
  climb_mono (Option.some_get _).symm hn

/-- The root of a key. -/
def rootOf (forest : LeastForest cmp) (key : α) : α := (forest.way key).2

omit [DecidableEq α] in
theorem way_of_root {key : α} (hg : forest.parents[key]? = none) : forest.way key = ([], key) := by
  have hc := climb_eq_way forest key (Nat.lt_succ_self _)
  rw [climb, hg] at hc
  exact (Option.some.inj hc).symm

omit [DecidableEq α] in
theorem way_of_child {key p : α} (hg : forest.parents[key]? = some p) :
    forest.way key = (key :: (forest.way p).1, (forest.way p).2) := by
  have hc := climb_eq_way forest key (Nat.lt_succ_of_lt (Nat.lt_succ_self _))
  rw [climb, hg] at hc
  simp only [climb_eq_way forest p (Nat.lt_succ_self _), Option.map_some] at hc
  exact (Option.some.inj hc).symm

omit [DecidableEq α] in
/-- A root is its own root. -/
theorem rootOf_root {key : α} (hg : forest.parents[key]? = none) : forest.rootOf key = key := by
  rw [rootOf, way_of_root hg]

omit [DecidableEq α] in
/-- A child has the root of its parent. -/
theorem rootOf_child {key p : α} (hg : forest.parents[key]? = some p) :
    forest.rootOf key = forest.rootOf p := by
  rw [rootOf, way_of_child hg, rootOf]

omit [DecidableEq α] in
theorem isRoot_rootOf (forest : LeastForest cmp) (key : α) :
    forest.parents[forest.rootOf key]? = none := by
  induction key using forest.induction_on with
  | hroot key hg => rw [rootOf_root hg, hg]
  | hchild key p hg ih => rw [rootOf_child hg, ih]

omit [DecidableEq α] in
/-- The root is not greater than the key. -/
theorem rootOf_le (forest : LeastForest cmp) (key : α) :
    (cmp (forest.rootOf key) key).isLE = true := by
  induction key using forest.induction_on with
  | hroot key hg =>
    rw [rootOf_root hg]
    exact Std.ReflCmp.isLE_rfl
  | hchild key p hg ih =>
    rw [rootOf_child hg, TransCmp.lt_of_isLE_of_lt ih (forest.descends key p hg)]
    rfl

omit [DecidableEq α] in
theorem rootOf_of_mem_way {key c : α} (h : c ∈ (forest.way key).1) :
    forest.rootOf c = forest.rootOf key := by
  induction key using forest.induction_on with
  | hroot key hg =>
    rw [way_of_root hg] at h
    cases h
  | hchild key p hg ih =>
    rw [way_of_child hg] at h
    rcases List.mem_cons.mp h with rfl | ht
    · rfl
    · rw [rootOf_child hg]
      exact ih ht

omit [DecidableEq α] in
/-- Every key is a root only where no key has a parent. -/
theorem isEmpty_parents_iff (forest : LeastForest cmp) :
    forest.parents.isEmpty = true ↔ ∀ key, forest.rootOf key = key := by
  rw [ExtTreeMap.isEmpty_iff]
  constructor
  · intro he key
    refine rootOf_root ?_
    rw [he, ExtTreeMap.getElem?_empty]
  · intro hr
    refine ExtTreeMap.ext_getElem? fun key => ?_
    rw [ExtTreeMap.getElem?_empty, ← hr key]
    exact forest.isRoot_rootOf key

/-! ## Roots after a join -/

theorem getElem?_hang {c p : α} (h : cmp p c = .lt) (key : α) : (forest.hang c p h).parents[key]?
      = if c = key then some p else forest.parents[key]? :=
  ExtTreeMap.getElem?_insert_ite _ _ _

/-- Hanging a key lower in its own tree moves no root. -/
theorem rootOf_hang_same {c p : α} (h : cmp p c = .lt)
    (hs : forest.rootOf p = forest.rootOf c) (key : α) :
    (forest.hang c p h).rootOf key = forest.rootOf key := by
  induction key using (forest.hang c p h).induction_on with
  | hroot key hg =>
    rw [rootOf_root hg]
    rw [getElem?_hang] at hg
    split at hg
    · cases hg
    · exact (rootOf_root hg).symm
  | hchild key a hg ih =>
    rw [rootOf_child hg, ih]
    rw [getElem?_hang] at hg
    split at hg
    · rename_i heq
      rw [← heq, ← Option.some.inj hg, hs]
    · exact (rootOf_child hg).symm

/-- Hanging a root moves the keys of its tree. -/
theorem rootOf_hang_root {child parent : α} (h : cmp parent child = .lt)
    (hchild : forest.parents[child]? = none) (key : α) :
    (forest.hang child parent h).rootOf key
      = if forest.rootOf key = child then forest.rootOf parent else forest.rootOf key := by
  have hparent : forest.rootOf parent ≠ child := by
    intro heq
    have hle := forest.rootOf_le parent
    rw [heq, Std.OrientedCmp.gt_of_lt h] at hle
    cases hle
  induction key using (forest.hang child parent h).induction_on with
  | hroot key hget =>
    rw [rootOf_root hget]
    rw [getElem?_hang] at hget
    split at hget
    · cases hget
    · rename_i hne
      rw [rootOf_root hget, if_neg fun heq => hne heq.symm]
  | hchild key above hget ih =>
    rw [rootOf_child hget, ih]
    rw [getElem?_hang] at hget
    split at hget
    · rename_i heq
      rw [← heq, ← Option.some.inj hget, if_neg hparent, if_pos (rootOf_root hchild)]
    · rw [rootOf_child hget]

/-- Hanging keys of one tree under its root moves no root. -/
theorem rootOf_hangAll {top : α} {p : List α} (h : ∀ c ∈ p, cmp top c = .lt)
    (hp : ∀ c ∈ p, forest.rootOf c = top)
    (ht : forest.rootOf top = top) (key : α) :
    (forest.hangAll top p h).rootOf key = forest.rootOf key := by
  induction p generalizing forest with
  | nil => rfl
  | cons c p ih =>
    have hr := hp c List.mem_cons_self
    have hs := rootOf_hang_same (h c List.mem_cons_self) (ht.trans hr.symm)
    rw [hangAll, ih _ ?_ ((hs top).trans ht), hs]
    intro other ho
    exact (hs other).trans (hp other (List.mem_cons_of_mem _ ho))

theorem rootOf_root_snd (forest : LeastForest cmp) (key other : α) :
    (forest.root key).2.rootOf other = forest.rootOf other :=
  rootOf_hangAll _ (fun _ h => rootOf_of_mem_way h) (rootOf_root (forest.isRoot_rootOf key)) other

/-- **A join** gives both trees the lesser root. -/
theorem rootOf_join (forest : LeastForest cmp) (left right : α) :
    ∃ low h, (low = forest.rootOf left ∧ h = forest.rootOf right
        ∨ low = forest.rootOf right ∧ h = forest.rootOf left)
      ∧ ∀ key, (forest.join left right).rootOf key
        = if forest.rootOf key = h then low else forest.rootOf key := by
  set f₁ := (forest.root left).2
  set f₂ := (f₁.root right).2
  have hro : ∀ key, f₂.rootOf key = forest.rootOf key := fun key =>
    (rootOf_root_snd f₁ right key).trans (rootOf_root_snd forest left key)
  have hl : (forest.root left).1 = forest.rootOf left := rfl
  have hr : (f₁.root right).1 = forest.rootOf right := rootOf_root_snd forest left right
  have hn : ∀ key, f₂.parents[forest.rootOf key]? = none := fun key => by
    rw [← hro]
    exact f₂.isRoot_rootOf key
  have hs : ∀ key, f₂.rootOf (forest.rootOf key) = forest.rootOf key := fun key =>
    rootOf_root (hn key)
  unfold join
  simp only
  by_cases hlt : cmp (forest.root left).1 (f₁.root right).1 = .lt
  · refine ⟨forest.rootOf left, forest.rootOf right, .inl ⟨rfl, rfl⟩, fun key => ?_⟩
    rw [dif_pos hlt, rootOf_hang_root hlt (hr ▸ hn right), hro, hr, hl, hs]
  · rw [dif_neg hlt]
    by_cases hgt : cmp (f₁.root right).1 (forest.root left).1 = .lt
    · refine ⟨forest.rootOf right, forest.rootOf left, .inr ⟨rfl, rfl⟩, fun key => ?_⟩
      rw [dif_pos hgt, rootOf_hang_root hgt (hl ▸ hn left), hro, hr, hl, hs]
    · have heq : forest.rootOf left = forest.rootOf right := by
        rw [← hl, ← hr]
        cases hc : cmp (forest.root left).1 (f₁.root right).1 with
        | lt => exact absurd hc hlt
        | eq => exact LawfulEqCmp.eq_of_compare hc
        | gt => exact absurd (Std.OrientedCmp.lt_of_gt hc) hgt
      refine ⟨forest.rootOf left, forest.rootOf right, .inl ⟨rfl, rfl⟩, fun key => ?_⟩
      rw [dif_neg hgt, hro]
      split
      · rename_i hk
        rw [hk, heq]
      · rfl

end Roots

/-! ## Connected keys -/

/-- Keys that a chain of the pairs connects. -/
def Connected (pairs : List (α × α)) : α → α → Prop :=
  Relation.EqvGen fun left right => (left, right) ∈ pairs

/-- Join every pair, from the forest without parents. -/
def joinAll (cmp : α → α → Ordering) [TransCmp cmp] [LawfulEqCmp cmp] (pairs : List (α × α)) :
    LeastForest cmp :=
  pairs.foldl (fun forest pair => forest.join pair.1 pair.2) empty

omit [TransCmp cmp] [LawfulEqCmp cmp] [DecidableEq α] in
theorem Connected.mono {ps ps' : List (α × α)} (h : ∀ pair ∈ ps, pair ∈ ps')
    {left right : α} (hc : Connected ps left right) : Connected ps' left right :=
  Relation.EqvGen.mono (fun _ _ hp => h _ hp) left right hc

/-- A key is connected with its root, and a pair has one root. -/
theorem joinAll_spec (cmp : α → α → Ordering) [TransCmp cmp] [LawfulEqCmp cmp] (ps : List (α × α)) :
    (∀ key, Connected ps key ((joinAll cmp ps).rootOf key))
      ∧ ∀ pair ∈ ps, (joinAll cmp ps).rootOf pair.1 = (joinAll cmp ps).rootOf pair.2 := by
  induction ps using List.reverseRecOn with
  | nil =>
    refine ⟨fun key => ?_, fun pair hpa => absurd hpa List.not_mem_nil⟩
    have hro : (joinAll cmp []).rootOf key = key := rootOf_root ExtTreeMap.getElem?_empty
    rw [hro]
    exact Relation.EqvGen.refl key
  | append_singleton ps pair ih =>
    obtain ⟨hc, hp⟩ := ih
    obtain ⟨low, hi, he, hr⟩ := rootOf_join (joinAll cmp ps) pair.1 pair.2
    have hj : joinAll cmp (ps ++ [pair]) = (joinAll cmp ps).join pair.1 pair.2 := by
      unfold joinAll
      rw [List.foldl_append]
      rfl
    have h : ∀ {left right : α}, Connected ps left right → Connected (ps ++ [pair]) left right :=
      Connected.mono fun _ hm => List.mem_append_left _ hm
    have hn : Connected (ps ++ [pair]) pair.1 pair.2 :=
      Relation.EqvGen.rel _ _ (List.mem_append_right _ List.mem_cons_self)
    have hed : Connected (ps ++ [pair]) hi low := by
      have hl := h (hc pair.1)
      have hri := h (hc pair.2)
      rcases he with ⟨rfl, rfl⟩ | ⟨rfl, rfl⟩
      · exact ((hri.symm.trans _ _ _ hn.symm).trans _ _ _ hl)
      · exact ((hl.symm.trans _ _ _ hn).trans _ _ _ hri)
    rw [hj]
    refine ⟨fun key => ?_, fun other ho => ?_⟩
    · rw [hr]
      split
      · rename_i heq
        exact (heq ▸ h (hc key)).trans _ _ _ hed
      · exact h (hc key)
    · rw [hr, hr]
      rcases List.mem_append.mp ho with hm | hm
      · rw [hp other hm]
      · obtain rfl := List.mem_singleton.mp hm
        rcases he with ⟨rfl, rfl⟩ | ⟨rfl, rfl⟩
        · rw [if_pos rfl]
          split
          · rfl
          · rfl
        · rw [if_pos rfl]
          split
          · rfl
          · rfl

/-- **Two keys have one root exactly when they are connected.** -/
theorem rootOf_joinAll_eq_iff (cmp : α → α → Ordering) [TransCmp cmp] [LawfulEqCmp cmp]
    (ps : List (α × α)) (left right : α) :
    (joinAll cmp ps).rootOf left = (joinAll cmp ps).rootOf right ↔ Connected ps left right := by
  obtain ⟨hc, hp⟩ := joinAll_spec cmp ps
  constructor
  · intro heq
    exact (heq ▸ hc left).trans _ _ _ (hc right).symm
  · intro h
    induction h with
    | rel left right hpa => exact hp _ hpa
    | refl => rfl
    | symm _ _ _ ih => exact ih.symm
    | trans _ _ _ _ _ ih ih' => exact ih.trans ih'

/-- **The root is the least connected key.** -/
theorem rootOf_joinAll_least (cmp : α → α → Ordering) [TransCmp cmp] [LawfulEqCmp cmp]
    (ps : List (α × α)) (key : α) :
    Connected ps key ((joinAll cmp ps).rootOf key) ∧ ∀ other, Connected ps key other →
        (cmp ((joinAll cmp ps).rootOf key) other).isLE = true := by
  refine ⟨(joinAll_spec cmp ps).1 key, fun other ho => ?_⟩
  rw [(rootOf_joinAll_eq_iff cmp ps key other).mpr ho]
  exact rootOf_le _ other

end LeastForest
