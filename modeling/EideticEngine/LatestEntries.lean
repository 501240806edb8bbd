/-
# The latest entries of a list

Entries are keys with values, and only the greatest value of each key matters.  A list covers a
key up to a value if it has the key with that value or a greater one; two lists say the same about
the latest entries if they cover the same.  Covering looks at one entry at a time, so a part of a
list may be replaced by its latest entries, and the latest entries of a stream that comes in the
order of its keys are found with one entry in hand.
-/
import EideticEngine.ComparisonSort

namespace LatestEntries

variable {κ ν : Type*} [LinearOrder ν]

/-! ## Covering -/

/-- The list has the key with this value or a greater one. -/
def Covers (l : List (κ × ν)) (k : κ) (v : ν) : Prop :=
  ∃ v', (k, v') ∈ l ∧ v ≤ v'

/-- Both lists have the same latest entries. -/
def SameLatest (l l' : List (κ × ν)) : Prop :=
  ∀ k v, Covers l k v ↔ Covers l' k v

theorem covers_append {l l' : List (κ × ν)} {k : κ} {v : ν} :
    Covers (l ++ l') k v ↔ Covers l k v ∨ Covers l' k v := by
  unfold Covers
  constructor
  · rintro ⟨v', hm, hle⟩
    rcases List.mem_append.mp hm with hm | hm
    · exact Or.inl ⟨v', hm, hle⟩
    · exact Or.inr ⟨v', hm, hle⟩
  · rintro (⟨v', hm, hle⟩ | ⟨v', hm, hle⟩)
    · exact ⟨v', List.mem_append_left _ hm, hle⟩
    · exact ⟨v', List.mem_append_right _ hm, hle⟩

theorem SameLatest.refl (l : List (κ × ν)) : SameLatest l l := fun _ _ => Iff.rfl

theorem SameLatest.trans {l l' l'' : List (κ × ν)} (h : SameLatest l l')
    (h' : SameLatest l' l'') : SameLatest l l'' :=
  fun k v => (h k v).trans (h' k v)

/-- Both parts of a list may be replaced. -/
theorem SameLatest.append {a a' b b' : List (κ × ν)} (ha : SameLatest a a')
    (hb : SameLatest b b') : SameLatest (a ++ b) (a' ++ b') := by
  intro k v
  rw [covers_append, covers_append, ha k v, hb k v]

/-- The order and the number of the entries do not matter. -/
theorem SameLatest.of_mem_iff {l l' : List (κ × ν)} (h : ∀ e, e ∈ l ↔ e ∈ l') :
    SameLatest l l' := by
  intro k v
  unfold Covers
  exact exists_congr fun v' => and_congr_left fun _ => h (k, v')

theorem SameLatest.of_perm {l l' : List (κ × ν)} (h : l.Perm l') : SameLatest l l' :=
  SameLatest.of_mem_iff fun _ => h.mem_iff

/-- A value of a key that has a greater one does not matter. -/
theorem sameLatest_max (k : κ) (v v' : ν) :
    SameLatest [(k, max v v')] [(k, v), (k, v')] := by
  intro k₁ v₁
  unfold Covers
  constructor
  · rintro ⟨w, hmem, hle⟩
    rw [List.mem_singleton, Prod.mk.injEq] at hmem
    obtain ⟨rfl, rfl⟩ := hmem
    rcases le_max_iff.mp hle with hle | hle
    · exact ⟨v, List.mem_cons_self, hle⟩
    · exact ⟨v', List.mem_cons_of_mem _ List.mem_cons_self, hle⟩
  · rintro ⟨w, hmem, hle⟩
    refine ⟨max v v', ?_, ?_⟩
    all_goals
      rw [List.mem_cons, List.mem_singleton, Prod.mk.injEq, Prod.mk.injEq] at hmem
      rcases hmem with ⟨rfl, rfl⟩ | ⟨rfl, rfl⟩
    · exact List.mem_singleton_self _
    · exact List.mem_singleton_self _
    · exact hle.trans (le_max_left _ _)
    · exact hle.trans (le_max_right _ _)

/-! ## Runs -/

variable {cmp : κ → κ → Ordering}

/-- The keys ascend strictly. -/
def Ascending (cmp : κ → κ → Ordering) (run : List (κ × ν)) : Prop :=
  run.Pairwise fun a b => cmp a.1 b.1 = .lt

/-- `run` has the latest entries of `l`, in the order of their keys. -/
structure IsLatest (cmp : κ → κ → Ordering) (run l : List (κ × ν)) : Prop where
  ascending : Ascending cmp run
  same : SameLatest run l

theorem isLatest_nil : IsLatest cmp ([] : List (κ × ν)) [] :=
  ⟨List.Pairwise.nil, SameLatest.refl []⟩

theorem IsLatest.of_same {run l l' : List (κ × ν)} (h : IsLatest cmp run l)
    (hs : SameLatest l l') : IsLatest cmp run l' :=
  ⟨h.ascending, h.same.trans hs⟩

section

variable [Std.ReflCmp cmp] {run l : List (κ × ν)}

omit [LinearOrder ν] in
theorem Ascending.nodup_keys (h : Ascending cmp run) : (run.map Prod.fst).Nodup := by
  refine List.pairwise_map.mpr (h.imp ?_)
  intro a b hlt heq
  have hs : cmp b.1 b.1 = .eq := Std.ReflCmp.compare_self
  rw [heq, hs] at hlt
  cases hlt

omit [LinearOrder ν] in
/-- In a run a key has one value. -/
theorem Ascending.eq_of_mem (h : Ascending cmp run) {k : κ} {v v' : ν} (hv : (k, v) ∈ run)
    (hv' : (k, v') ∈ run) : v = v' :=
  congrArg Prod.snd (List.inj_on_of_nodup_map h.nodup_keys hv hv' rfl)

theorem IsLatest.mem (h : IsLatest cmp run l) {k : κ} {v : ν} (hm : (k, v) ∈ run) :
    (k, v) ∈ l ∧ ∀ v', (k, v') ∈ l → v' ≤ v := by
  have hb : ∀ v', (k, v') ∈ l → v' ≤ v := by
    intro v' hm'
    obtain ⟨w, hw, hle⟩ := (h.same k v').mpr ⟨v', hm', le_rfl⟩
    rwa [h.ascending.eq_of_mem hm hw]
  obtain ⟨w, hw, hle⟩ := (h.same k v).mp ⟨v, hm, le_rfl⟩
  rw [le_antisymm hle (hb w hw)]
  rw [le_antisymm hle (hb w hw)] at hb
  exact ⟨hw, hb⟩

/-- **A run has exactly the entries with the greatest value of their key.** -/
theorem IsLatest.mem_iff (h : IsLatest cmp run l) {k : κ} {v : ν} :
    (k, v) ∈ run ↔ (k, v) ∈ l ∧ ∀ v', (k, v') ∈ l → v' ≤ v := by
  refine ⟨h.mem, ?_⟩
  rintro ⟨hm, hb⟩
  obtain ⟨w, hw, hle⟩ := (h.same k v).mpr ⟨v, hm, le_rfl⟩
  rwa [le_antisymm hle (hb w (h.mem hw).1)]

/-- Every key of the list is in the run. -/
theorem IsLatest.mem_keys_iff (h : IsLatest cmp run l) {k : κ} :
    k ∈ run.map Prod.fst ↔ k ∈ l.map Prod.fst := by
  constructor
  · intro hk
    obtain ⟨⟨k, v⟩, hm, rfl⟩ := List.mem_map.mp hk
    exact List.mem_map_of_mem (h.mem hm).1
  · intro hk
    obtain ⟨⟨k, v⟩, hm, rfl⟩ := List.mem_map.mp hk
    obtain ⟨w, hw, -⟩ := (h.same k v).mpr ⟨v, hm, le_rfl⟩
    exact List.mem_map.mpr ⟨(k, w), hw, rfl⟩

end

/-! ## A stream in the order of its keys -/

/-- What is written of a stream, the entry in hand, and what the stream has given. -/
structure Absorbed (cmp : κ → κ → Ordering) (out : List (κ × ν)) (pending : Option (κ × ν))
    (given : List (κ × ν)) : Prop where
  isLatest : IsLatest cmp (out ++ pending.toList) given
  idle : pending = none → out = []

theorem absorbed_nil : Absorbed cmp [] (none : Option (κ × ν)) [] :=
  ⟨isLatest_nil, fun _ => rfl⟩

/-- The entry in hand takes another value of its key. -/
theorem Absorbed.same {out g : List (κ × ν)} {k : κ} {v v' : ν}
    (h : Absorbed cmp out (some (k, v)) g) :
    Absorbed cmp out (some (k, max v v')) (g ++ [(k, v')]) := by
  refine ⟨⟨?_, ?_⟩, fun hn => by cases hn⟩
  · have has := List.pairwise_append.mp h.isLatest.ascending
    refine List.pairwise_append.mpr ⟨has.1, List.pairwise_singleton _ _, ?_⟩
    intro a ha b hb
    rw [Option.toList_some, List.mem_singleton] at hb
    subst hb
    exact has.2.2 a ha (k, v) (List.mem_singleton_self _)
  · have hs : SameLatest (out ++ [(k, max v v')]) (out ++ ([(k, v)] ++ [(k, v')])) :=
      (SameLatest.refl out).append (sameLatest_max k v v')
    rw [← List.append_assoc] at hs
    exact hs.trans (h.isLatest.same.append (SameLatest.refl _))

/-- The entry in hand is written and another key is taken up. -/
theorem Absorbed.next [Std.TransCmp cmp] {out g : List (κ × ν)} {pending : Option (κ × ν)}
    {e : κ × ν} (h : Absorbed cmp out pending g)
    (hlt : ∀ p ∈ pending, cmp p.1 e.1 = .lt) :
    Absorbed cmp (out ++ pending.toList) (some e) (g ++ [e]) := by
  refine ⟨⟨?_, h.isLatest.same.append (SameLatest.refl _)⟩, fun hn => by cases hn⟩
  refine List.pairwise_append.mpr ⟨h.isLatest.ascending, List.pairwise_singleton _ _, ?_⟩
  intro a ha b hb
  rw [Option.toList_some, List.mem_singleton] at hb
  subst hb
  cases pending with
  | none =>
    rw [h.idle rfl] at ha
    cases ha
  | some p =>
    have hp := hlt p rfl
    rcases List.mem_append.mp ha with ha | ha
    · have hap := (List.pairwise_append.mp h.isLatest.ascending).2.2 a ha p
        (List.mem_singleton_self _)
      exact Std.TransCmp.lt_trans hap hp
    · rw [Option.toList_some, List.mem_singleton] at ha
      rwa [ha]

end LatestEntries
