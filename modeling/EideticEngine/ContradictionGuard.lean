/-
# What the contradiction guard decides and keeps

The decision goes through the members in standing order and lets every member that is not
suppressed yet suppress its neighbours.  A neighbour that is still there when a member takes
its turn stands below it: one above it would have suppressed the member.  So a retained member
is never suppressed later, the retained members are free of conflict, and every suppressed
one has a retained neighbour above it.

The members in standing order and the neighbours of an identifier do not depend on how
members and pairs are listed, and the decision depends on nothing else.

On a draft the decision is about identifiers and the removal is about items.  The two counts
agree as long as no suppressed memory is carried by two items.
-/
import EideticEngine.PackGuard
import EideticEngine.PackAssembly

namespace Pack

open StableSort (sortBy sortBy_perm)

/-! ## Standing order -/

/-- The first member stands strictly above the second. -/
def Outranks (a b : GuardedMemory) : Prop := compareStanding a b = .lt

theorem compareStanding_lt_iff (a b : GuardedMemory) : compareStanding a b = .lt ↔
    b.trustMilli < a.trustMilli ∨ (b.trustMilli = a.trustMilli ∧
      (b.freshnessEpoch < a.freshnessEpoch ∨ (b.freshnessEpoch = a.freshnessEpoch ∧
        a.memoryId < b.memoryId))) := by
  unfold compareStanding
  rw [Ordering.then_eq_lt, Ordering.then_eq_lt, compare_lt_iff_lt, compare_eq_iff_eq,
    compare_lt_iff_lt, compare_eq_iff_eq, compare_lt_iff_lt]

theorem compareStanding_eq_iff (a b : GuardedMemory) : compareStanding a b = .eq ↔ a = b := by
  unfold compareStanding
  rw [Ordering.then_eq_eq, Ordering.then_eq_eq, compare_eq_iff_eq, compare_eq_iff_eq,
    compare_eq_iff_eq]
  obtain ⟨id, t, fresh⟩ := a
  obtain ⟨id', t', f'⟩ := b
  simp only [GuardedMemory.mk.injEq]
  constructor
  · rintro ⟨rfl, rfl, rfl⟩
    exact ⟨rfl, rfl, rfl⟩
  · rintro ⟨rfl, rfl, rfl⟩
    exact ⟨rfl, rfl, rfl⟩

instance : Std.LawfulEqCmp compareStanding where
  compare_self := (compareStanding_eq_iff _ _).mpr rfl
  eq_of_compare := (compareStanding_eq_iff _ _).mp

/-- Trust and freshness are compared the other way round. -/
instance : Std.TransCmp compareStanding := by
  have htrust : Std.TransCmp fun a b : GuardedMemory => compare b.trustMilli a.trustMilli :=
    @ComparisonSort.transCmp_on GuardedMemory ℤ (fun a b => compare b a) _ (·.trustMilli)
  have hfresh : Std.TransCmp fun a b : GuardedMemory =>
      compare b.freshnessEpoch a.freshnessEpoch :=
    @ComparisonSort.transCmp_on GuardedMemory ℤ (fun a b => compare b a) _ (·.freshnessEpoch)
  have hid : Std.TransCmp fun a b : GuardedMemory => compare a.memoryId b.memoryId :=
    @ComparisonSort.transCmp_on GuardedMemory String compare _ (·.memoryId)
  exact inferInstanceAs (Std.TransCmp (compareLex
    (fun a b : GuardedMemory => compare b.trustMilli a.trustMilli)
    (compareLex (fun a b => compare b.freshnessEpoch a.freshnessEpoch)
      fun a b => compare a.memoryId b.memoryId)))

/-- Not below: the relation that the members are sorted by. -/
theorem compareStanding_ne_gt_iff (a b : GuardedMemory) :
    compareStanding a b ≠ .gt ↔ Outranks a b ∨ a = b := by
  rw [← compareStanding_eq_iff, Outranks]
  cases compareStanding a b <;> simp

/-- The survivor of two members is the one above. -/
theorem decideContradictionSurvivor_of_outranks {a b : GuardedMemory} (h : Outranks a b) :
    (decideContradictionSurvivor a b).keptMemoryId = a.memoryId ∧
      (decideContradictionSurvivor a b).suppressedMemoryId = b.memoryId := by
  rw [Outranks, compareStanding_lt_iff] at h
  unfold decideContradictionSurvivor
  rcases h with h | ⟨ht, h | ⟨hf, hid⟩⟩
  · rw [compare_gt_iff_gt.mpr h]
    exact ⟨rfl, rfl⟩
  · rw [compare_eq_iff_eq.mpr ht.symm, compare_gt_iff_gt.mpr h]
    exact ⟨rfl, rfl⟩
  · rw [compare_eq_iff_eq.mpr ht.symm, compare_eq_iff_eq.mpr hf.symm]
    simp only
    rw [if_pos hid.le]
    exact ⟨rfl, rfl⟩

/-! ## The ranked members -/

/-- The first of each identifier, of a list in which nobody stands below a later one. -/
theorem eraseDupsBy_spec {l : List GuardedMemory}
    (hs : l.Pairwise fun a b => compareStanding a b ≠ .gt) :
    (l.eraseDupsBy fun a b => a.memoryId == b.memoryId).Pairwise Outranks ∧
      (l.eraseDupsBy fun a b => a.memoryId == b.memoryId).Pairwise
        (fun a b => a.memoryId ≠ b.memoryId) ∧
      (∀ m ∈ l.eraseDupsBy fun a b => a.memoryId == b.memoryId, m ∈ l) ∧
      ∀ m ∈ l, ∃ first ∈ l.eraseDupsBy fun a b => a.memoryId == b.memoryId,
        first.memoryId = m.memoryId ∧ (Outranks first m ∨ first = m) := by
  induction hn : l.length using Nat.strong_induction_on generalizing l with
  | _ n ih =>
    cases l with
    | nil => simp
    | cons a l =>
      obtain ⟨hh, ht⟩ := List.pairwise_cons.mp hs
      have hl : (l.filter fun b => (b.memoryId == a.memoryId) = false).length < n := by
        have := List.length_filter_le (fun b : GuardedMemory =>
          decide ((b.memoryId == a.memoryId) = false)) l
        simp only [List.length_cons] at hn
        omega
      obtain ⟨hra, hi, hsu, hf⟩ := ih _ hl (ht.filter _) rfl
      rw [List.eraseDupsBy_cons]
      have hr : ∀ b ∈ (l.filter fun b => (b.memoryId == a.memoryId) = false).eraseDupsBy
          fun a b => a.memoryId == b.memoryId, b ∈ l ∧ b.memoryId ≠ a.memoryId := by
        intro b hb
        obtain ⟨hme, hne⟩ := List.mem_filter.mp (hsu b hb)
        exact ⟨hme, by simpa using hne⟩
      refine ⟨List.pairwise_cons.mpr ⟨?_, hra⟩, List.pairwise_cons.mpr ⟨?_, hi⟩, ?_, ?_⟩
      · intro b hb
        obtain ⟨hme, hne⟩ := hr b hb
        rcases (compareStanding_ne_gt_iff a b).mp (hh b hme) with h | rfl
        · exact h
        · exact absurd rfl hne
      · intro b hb
        exact (hr b hb).2.symm
      · intro b hb
        rcases List.mem_cons.mp hb with rfl | hb
        · exact List.mem_cons_self
        · exact List.mem_cons_of_mem _ (hr b hb).1
      · intro m hm
        rcases List.mem_cons.mp hm with rfl | hm
        · exact ⟨_, List.mem_cons_self, rfl, Or.inr rfl⟩
        · by_cases hid : m.memoryId = a.memoryId
          · exact ⟨a, List.mem_cons_self, hid.symm, (compareStanding_ne_gt_iff a m).mp (hh m hm)⟩
          · obtain ⟨first, hme, hsa, ha⟩ := hf m (List.mem_filter.mpr ⟨hm, by simpa using hid⟩)
            exact ⟨first, List.mem_cons_of_mem _ hme, hsa, ha⟩

/-- What is known of the ranked members: each stands above the later ones and has an
identifier of its own, and every named member has its strongest standing there. -/
structure Ranked (members ranked : List GuardedMemory) : Prop where
  above : ranked.Pairwise Outranks
  ids : ranked.Pairwise fun a b => a.memoryId ≠ b.memoryId
  named : ∀ m ∈ ranked, m ∈ members ∧ RustText.trim m.memoryId ≠ ""
  strongest : ∀ m ∈ members, RustText.trim m.memoryId ≠ "" →
    ∃ first ∈ ranked, first.memoryId = m.memoryId ∧ (Outranks first m ∨ first = m)

theorem ranked_rankedMembers (members : List GuardedMemory) :
    Ranked members (rankedMembers members) := by
  obtain ⟨ha, hi, hs, hf⟩ := eraseDupsBy_spec (List.pairwise_insertionSort
    (fun a b : GuardedMemory => compareStanding a b ≠ .gt)
    (members.filter fun m => RustText.trim m.memoryId ≠ ""))
  refine ⟨ha, hi, ?_, ?_⟩
  · intro m hm
    have hmem := (List.mem_insertionSort _).mp (hs m hm)
    obtain ⟨hme, hn⟩ := List.mem_filter.mp hmem
    exact ⟨hme, by simpa using hn⟩
  · intro m hm hn
    exact hf m ((List.mem_insertionSort _).mpr (List.mem_filter.mpr ⟨hm, by simpa using hn⟩))

/-! ## The conflict graph -/

/-- The two identifiers are the trimmed ends of an unresolved pair, in either order. -/
def UnresolvedPair (unresolved : List (String × String)) (x y : String) : Prop :=
  x ≠ y ∧ x ≠ "" ∧ y ≠ "" ∧ ∃ p ∈ unresolved,
    (RustText.trim p.1 = x ∧ RustText.trim p.2 = y) ∨
      (RustText.trim p.1 = y ∧ RustText.trim p.2 = x)

theorem UnresolvedPair.symm {u : List (String × String)} {x y : String}
    (h : UnresolvedPair u x y) : UnresolvedPair u y x := by
  obtain ⟨hne, hx, hy, p, hp, he⟩ := h
  exact ⟨hne.symm, hy, hx, p, hp, he.symm⟩

theorem canonicalPair_eq_some_iff (a b x y : String) :
    (canonicalPair a b = some (x, y) ∨ canonicalPair a b = some (y, x)) ↔
      x ≠ y ∧ x ≠ "" ∧ y ≠ "" ∧
        ((RustText.trim a = x ∧ RustText.trim b = y) ∨
          (RustText.trim a = y ∧ RustText.trim b = x)) := by
  unfold canonicalPair
  simp only
  split
  · grind
  · split <;> grind

/-- The ends of an unresolved pair are not blank. -/
theorem UnresolvedPair.trim_ne {u : List (String × String)} {x y : String}
    (h : UnresolvedPair u x y) : RustText.trim x ≠ "" := by
  obtain ⟨-, hx, -, p, -, ⟨rfl, -⟩ | ⟨-, rfl⟩⟩ := h
  · rwa [RustText.trim_trim]
  · rwa [RustText.trim_trim]

theorem standingOf_isNone_iff (r : List GuardedMemory) (id : String) :
    (standingOf r id).isNone = true ↔ id ∉ r.map (·.memoryId) := by
  unfold standingOf
  rw [Option.isNone_iff_eq_none, List.find?_eq_none, List.mem_map]
  simp

theorem standingOf_spec {r : List GuardedMemory} {id : String} (h : id ∈ r.map (·.memoryId)) :
    ∃ m ∈ r, standingOf r id = some m ∧ m.memoryId = id := by
  cases hf : standingOf r id with
  | none => exact absurd h ((standingOf_isNone_iff r id).mp (by rw [hf]; rfl))
  | some m =>
    exact ⟨m, List.mem_of_find?_eq_some hf, rfl, by simpa using List.find?_some hf⟩

/-- **The neighbours of a memory** are the ranked memories it forms an unresolved pair with. -/
theorem mem_contradictionNeighbors_iff (r : List GuardedMemory)
    (u : List (String × String)) (x y : String) :
    y ∈ contradictionNeighbors r u x ↔ UnresolvedPair u x y ∧ x ∈ r.map (·.memoryId) ∧
        y ∈ r.map (·.memoryId) := by
  unfold contradictionNeighbors
  rw [ComparisonSort.mem_destutter_insertionSort, List.mem_filterMap]
  constructor
  · rintro ⟨⟨a, b⟩, hm, hf⟩
    simp only at hf
    cases hpa : canonicalPair a b with
    | none => simp [hpa] at hf
    | some en =>
      obtain ⟨c, d⟩ := en
      simp only [hpa, standingOf_isNone_iff] at hf
      have he : canonicalPair a b = some (x, y) ∨ canonicalPair a b = some (y, x) := by
        grind
      obtain ⟨hne, hx, hy, h⟩ := (canonicalPair_eq_some_iff a b x y).mp he
      exact ⟨⟨hne, hx, hy, _, hm, h⟩, by grind, by grind⟩
  · rintro ⟨⟨hne, hx, hy, p, hp, he⟩, hxm, hym⟩
    refine ⟨p, hp, ?_⟩
    have hpa := (canonicalPair_eq_some_iff p.1 p.2 x y).mpr ⟨hne, hx, hy, he⟩
    rcases hpa with hpa | hpa
    · simp only [hpa, standingOf_isNone_iff]
      simp [hxm, hym]
    · simp only [hpa, standingOf_isNone_iff]
      simp [hxm, hym, hne.symm]

/-- The same pairs, up to their order, the order of their ends and repetitions. -/
def SamePairs (unresolved unresolved' : List (String × String)) : Prop :=
  ∀ p : String × String, (p ∈ unresolved ∨ p.swap ∈ unresolved) ↔
    (p ∈ unresolved' ∨ p.swap ∈ unresolved')

theorem SamePairs.unresolvedPair {u u' : List (String × String)}
    (hs : SamePairs u u') {x y : String}
    (h : UnresolvedPair u x y) : UnresolvedPair u' x y := by
  obtain ⟨hne, hx, hy, p, hp, he⟩ := h
  rcases (hs p).mp (Or.inl hp) with hp' | hp'
  · exact ⟨hne, hx, hy, p, hp', he⟩
  · exact ⟨hne, hx, hy, p.swap, hp', he.symm.imp And.symm And.symm⟩

theorem contradictionNeighbors_congr {u u' : List (String × String)}
    (hs : SamePairs u u') (r : List GuardedMemory) :
    contradictionNeighbors r u = contradictionNeighbors r u' := by
  funext x
  have hs' : SamePairs u' u := fun p => (hs p).symm
  apply ComparisonSort.destutter_insertionSort_eq_iff.mpr
  intro y
  have hmem : ∀ u, y ∈ contradictionNeighbors r u x ↔ _ := fun u =>
    mem_contradictionNeighbors_iff r u x y
  simp only [contradictionNeighbors, ComparisonSort.mem_destutter_insertionSort] at hmem
  rw [hmem, hmem]
  exact and_congr_left fun _ => ⟨hs.unresolvedPair, hs'.unresolvedPair⟩

theorem rankedMembers_congr {members ms' : List GuardedMemory}
    (hp : members.Perm ms') : rankedMembers members = rankedMembers ms' := by
  unfold rankedMembers
  congr 1
  exact ComparisonSort.insertionSort_congr (fun a _ b _ h => (compareStanding_eq_iff a b).mp h)
    (hp.filter _)

/-! ## The pass in standing order -/

/-- The set of suppressed identifiers and the list of decisions say the same, and nothing is
suppressed twice. -/
structure Tracks (acc : List String × List ContradictionSuppression) : Prop where
  ids : ∀ id, id ∈ acc.1 ↔ id ∈ acc.2.map (·.suppressedMemoryId)
  nodup : (acc.2.map (·.suppressedMemoryId)).Nodup

/-- One neighbour: it is suppressed afterwards, by a decision in favour of the memory if it was
not suppressed before. -/
theorem suppressNeighbor_spec {r : List GuardedMemory} {m other : GuardedMemory}
    {acc : List String × List ContradictionSuppression} {id : String} (ht : Tracks acc)
    (ho : standingOf r id = some other) (hid : other.memoryId = id)
    (ha : id ∉ acc.1 → Outranks m other) :
    Tracks (suppressNeighbor r m acc id) ∧
      (∀ y, y ∈ (suppressNeighbor r m acc id).1 ↔ y ∈ acc.1 ∨ y = id) ∧
      ∀ d ∈ (suppressNeighbor r m acc id).2, d ∈ acc.2 ∨
        (id ∉ acc.1 ∧ d = decideContradictionSurvivor m other) := by
  unfold suppressNeighbor
  by_cases hm : id ∈ acc.1
  · rw [if_pos hm]
    refine ⟨ht, fun y => ⟨Or.inl, ?_⟩, fun d hd => Or.inl hd⟩
    rintro (hy | rfl)
    · exact hy
    · exact hm
  · rw [if_neg hm, ho]
    obtain ⟨-, hs⟩ := decideContradictionSurvivor_of_outranks (ha hm)
    rw [hid] at hs
    simp only [hs]
    refine ⟨⟨fun y => ?_, ?_⟩, fun y => ?_, fun d hd => ?_⟩
    · simp only [List.mem_cons, List.map_append, List.mem_append, List.map_cons, List.map_nil,
        List.not_mem_nil, or_false, hs, ht.ids y]
      exact or_comm
    · rw [List.map_append, List.map_cons, List.map_nil, hs, ← List.concat_eq_append]
      exact ht.nodup.concat (fun h => hm ((ht.ids id).mpr h))
    · rw [List.mem_cons]
      exact or_comm
    · rcases List.mem_append.mp hd with hd | hd
      · exact Or.inl hd
      · exact Or.inr ⟨hm, by simpa using hd⟩

/-- All neighbours of a memory, where those not suppressed yet stand below it. -/
theorem suppressNeighbors_spec {r : List GuardedMemory} {m : GuardedMemory}
    (ids : List String) : ∀ {acc : List String × List ContradictionSuppression}, Tracks acc →
    (∀ id ∈ ids, ∃ other, standingOf r id = some other ∧ other.memoryId = id ∧
      (id ∉ acc.1 → Outranks m other)) →
    Tracks (ids.foldl (suppressNeighbor r m) acc) ∧
      (∀ y, y ∈ (ids.foldl (suppressNeighbor r m) acc).1 ↔ y ∈ acc.1 ∨ y ∈ ids) ∧
      ∀ d ∈ (ids.foldl (suppressNeighbor r m) acc).2, d ∈ acc.2 ∨
        ∃ id ∈ ids, ∃ other, standingOf r id = some other ∧ id ∉ acc.1 ∧
          d = decideContradictionSurvivor m other := by
  induction ids with
  | nil =>
    intro acc ht _
    exact ⟨ht, by simp, fun d hd => Or.inl hd⟩
  | cons id ids ih =>
    intro acc ht hb
    obtain ⟨other, hot, hid, hab⟩ := hb id List.mem_cons_self
    obtain ⟨ht', hm', hd'⟩ := suppressNeighbor_spec ht hot hid hab
    rw [List.foldl_cons]
    obtain ⟨hf, hm, hde⟩ := ih ht' fun y hy => by
      obtain ⟨o, ho, hoi, h⟩ := hb y (List.mem_cons_of_mem _ hy)
      exact ⟨o, ho, hoi, fun hy' => h fun ha => hy' ((hm' y).mpr (Or.inl ha))⟩
    refine ⟨hf, fun y => ?_, fun d hd => ?_⟩
    · rw [hm, hm', List.mem_cons, or_assoc]
    · rcases hde d hd with hd | ⟨y, hy, o, ho, hya, rfl⟩
      · rcases hd' d hd with hd | ⟨hn, rfl⟩
        · exact Or.inl hd
        · exact Or.inr ⟨id, List.mem_cons_self, other, hot, hn, rfl⟩
      · exact Or.inr ⟨y, List.mem_cons_of_mem _ hy, o, ho,
          fun ha => hya ((hm' y).mpr (Or.inl ha)), rfl⟩

/-- The turn of one member in the pass. -/
def takeTurn (ranked : List GuardedMemory) (unresolved : List (String × String))
    (acc : List String × List ContradictionSuppression) (memory : GuardedMemory) :
    List String × List ContradictionSuppression :=
  if memory.memoryId ∈ acc.1 then acc
  else (contradictionNeighbors ranked unresolved memory.memoryId).foldl
    (suppressNeighbor ranked memory) acc

theorem decideContradictionSuppressions_eq (members : List GuardedMemory)
    (u : List (String × String)) :
    decideContradictionSuppressions members u
      = sortBy (fun a b => compare a.suppressedMemoryId b.suppressedMemoryId)
        ((rankedMembers members).foldl (takeTurn (rankedMembers members) u) ([], [])).2 := rfl

/-- What holds once the members of `done` had their turn: every decision was taken by a member
of `done` that is not suppressed, about a neighbour below it, and all neighbours of a member of
`done` that is not suppressed are. -/
structure PassInvariant (ranked : List GuardedMemory) (unresolved : List (String × String))
    (done : List GuardedMemory) (acc : List String × List ContradictionSuppression) : Prop where
  tracks : Tracks acc
  justified : ∀ d ∈ acc.2, ∃ w ∈ done, w.memoryId ∉ acc.1 ∧ ∃ o ∈ ranked,
    d = decideContradictionSurvivor w o ∧ Outranks w o ∧
      UnresolvedPair unresolved w.memoryId o.memoryId
  closed : ∀ w ∈ done, w.memoryId ∉ acc.1 →
    ∀ y ∈ contradictionNeighbors ranked unresolved w.memoryId, y ∈ acc.1

/-- A neighbour that is still there when a member takes its turn comes after it. -/
theorem neighbor_after_turn {r d re : List GuardedMemory} {m : GuardedMemory}
    {u : List (String × String)} {acc : List String × List ContradictionSuppression}
    (hr : r = d ++ m :: re)
    (hi : PassInvariant r u d acc) (ht : m.memoryId ∉ acc.1)
    {id : String} (hid : id ∈ contradictionNeighbors r u m.memoryId)
    (hne : id ∉ acc.1) {other : GuardedMemory} (ho : other ∈ r)
    (hn : other.memoryId = id) : other ∈ re := by
  obtain ⟨hp, hm, hme⟩ := (mem_contradictionNeighbors_iff _ _ _ _).mp hid
  rw [hr, List.mem_append, List.mem_cons] at ho
  rcases ho with hd | rfl | hre
  · exfalso
    refine ht (hi.closed other hd (by rwa [hn]) _ ?_)
    rw [mem_contradictionNeighbors_iff, hn]
    exact ⟨hp.symm, hme, hm⟩
  · exact absurd hn hp.1
  · exact hre

/-- **One turn keeps the invariant.** -/
theorem PassInvariant.takeTurn {r don re : List GuardedMemory} {m : GuardedMemory}
    {u : List (String × String)} {acc : List String × List ContradictionSuppression}
    (hra : r = don ++ m :: re) (ha : r.Pairwise Outranks)
    (hids : r.Pairwise fun a b => a.memoryId ≠ b.memoryId)
    (hi : PassInvariant r u don acc) :
    PassInvariant r u (don ++ [m]) (Pack.takeTurn r u acc m) := by
  unfold Pack.takeTurn
  by_cases ht : m.memoryId ∈ acc.1
  · rw [if_pos ht]
    refine ⟨hi.tracks, fun d hd => ?_, fun w hw hk => ?_⟩
    · obtain ⟨w, hw, h⟩ := hi.justified d hd
      exact ⟨w, List.mem_append_left _ hw, h⟩
    · rcases List.mem_append.mp hw with hw | hw
      · exact hi.closed w hw hk
      · rw [List.mem_singleton.mp hw] at hk
        exact absurd ht hk
  · rw [if_neg ht]
    rw [hra, List.pairwise_append, List.pairwise_cons] at ha hids
    have hb : ∀ o ∈ re, Outranks m o := ha.2.1.1
    have hbe : ∀ w ∈ don, ∀ o ∈ re, w.memoryId ≠ o.memoryId :=
      fun w hw o ho => hids.2.2 w hw o (List.mem_cons_of_mem _ ho)
    -- a neighbour without a decision so far is a later member, so it stands below
    have hne : ∀ id ∈ contradictionNeighbors r u m.memoryId,
        ∃ other, standingOf r id = some other ∧ other.memoryId = id ∧ other ∈ r ∧
          (id ∉ acc.1 → other ∈ re) := by
      intro id hid
      obtain ⟨-, -, hm⟩ := (mem_contradictionNeighbors_iff _ _ _ _).mp hid
      obtain ⟨other, hot, hf, hn⟩ := standingOf_spec hm
      exact ⟨other, hf, hn, hot, fun hnew => neighbor_after_turn hra hi ht hid hnew hot hn⟩
    obtain ⟨htr, hm, hde⟩ := @suppressNeighbors_spec r m
      (contradictionNeighbors r u m.memoryId) acc hi.tracks fun id hid => by
        obtain ⟨other, hf, hn, -, hr⟩ := hne id hid
        exact ⟨other, hf, hn, fun hnew => hb other (hr hnew)⟩
    have hme : m.memoryId ∉ ((contradictionNeighbors r u m.memoryId).foldl
          (suppressNeighbor r m) acc).1 := by
      rw [hm]
      rintro (h | h)
      · exact ht h
      · exact ((mem_contradictionNeighbors_iff _ _ _ _).mp h).1.1 rfl
    refine ⟨htr, fun d hd => ?_, fun w hw hk => ?_⟩
    · rcases hde d hd with hd | ⟨id, hid, other, hf, hnew, rfl⟩
      · obtain ⟨w, hw, hk, h⟩ := hi.justified d hd
        refine ⟨w, List.mem_append_left _ hw, ?_, h⟩
        rw [hm]
        rintro (h' | h')
        · exact hk h'
        · obtain ⟨o, -, hn, -, hr⟩ := hne _ h'
          exact hbe w hw o (hr hk) hn.symm
      · obtain ⟨o, hf', hn, ho, hr⟩ := hne id hid
        obtain rfl : other = o := Option.some.inj (hf.symm.trans hf')
        obtain ⟨hp, -, -⟩ := (mem_contradictionNeighbors_iff _ _ _ _).mp hid
        exact ⟨m, by simp, hme, other, ho, rfl, hb other (hr hnew), by
          rwa [hn]⟩
    · intro y hy
      rw [hm] at hk ⊢
      rcases List.mem_append.mp hw with hw | hw
      · exact Or.inl (hi.closed w hw (fun h => hk (Or.inl h)) y hy)
      · rw [List.mem_singleton.mp hw] at hy
        exact Or.inr hy

/-- **The whole pass keeps the invariant.** -/
theorem passInvariant_foldl {r : List GuardedMemory} {u : List (String × String)}
    (ha : r.Pairwise Outranks)
    (hid : r.Pairwise fun a b => a.memoryId ≠ b.memoryId) (re : List GuardedMemory) :
    ∀ (d : List GuardedMemory) (acc : List String × List ContradictionSuppression),
      r = d ++ re → PassInvariant r u d acc →
      PassInvariant r u r (re.foldl (takeTurn r u) acc) := by
  induction re with
  | nil =>
    intro d acc hr hi
    rw [List.append_nil] at hr
    rw [← hr] at hi
    exact hi
  | cons m re ih =>
    intro d acc hr hi
    rw [List.foldl_cons]
    refine ih (d ++ [m]) _ ?_ (hi.takeTurn hr ha hid)
    rw [hr, List.append_assoc, List.singleton_append]

theorem passInvariant_ranked (members : List GuardedMemory) (u : List (String × String)) :
    PassInvariant (rankedMembers members) u (rankedMembers members)
      ((rankedMembers members).foldl (takeTurn (rankedMembers members) u) ([], [])) := by
  have hr := ranked_rankedMembers members
  refine passInvariant_foldl hr.above hr.ids _ [] _ rfl ⟨⟨?_, ?_⟩, ?_, ?_⟩
  · simp
  · exact List.nodup_nil
  · simp
  · simp

/-! ## The decision -/

/-- The suppressed identifiers, in the order of the decisions. -/
def decidedSuppressed (members : List GuardedMemory) (unresolved : List (String × String)) :
    List String :=
  (decideContradictionSuppressions members unresolved).map (·.suppressedMemoryId)

/-- The members that the decision retains. -/
def retainedMembers (members : List GuardedMemory) (unresolved : List (String × String)) :
    Set GuardedMemory :=
  {m | m ∈ members ∧ m.memoryId ∉ decidedSuppressed members unresolved}

/-- No two of the members form an unresolved pair. -/
def ConflictFree (unresolved : List (String × String)) (kept : Set GuardedMemory) : Prop :=
  ∀ a ∈ kept, ∀ b ∈ kept, ¬ UnresolvedPair unresolved a.memoryId b.memoryId

theorem mem_decidedSuppressed_iff (members : List GuardedMemory)
    (u : List (String × String)) (id : String) :
    id ∈ decidedSuppressed members u ↔
      id ∈ ((rankedMembers members).foldl (takeTurn (rankedMembers members) u) ([], [])).1 := by
  rw [(passInvariant_ranked members u).tracks.ids, decidedSuppressed,
    decideContradictionSuppressions_eq]
  exact ((sortBy_perm _ _).map _).mem_iff

/-- A member that is an end of an unresolved pair is ranked. -/
theorem mem_ranked_of_unresolvedPair {members : List GuardedMemory}
    {u : List (String × String)} {m : GuardedMemory} (hm : m ∈ members) {id : String}
    (hp : UnresolvedPair u m.memoryId id) :
    ∃ first ∈ rankedMembers members, first.memoryId = m.memoryId ∧ (Outranks first m ∨ first = m) :=
  (ranked_rankedMembers members).strongest m hm hp.trim_ne

/-- No two retained members form an unresolved pair. -/
theorem conflictFree_retainedMembers (members : List GuardedMemory) (u : List (String × String)) :
    ConflictFree u (retainedMembers members u) := by
  rintro a ⟨ha, hak⟩ b ⟨hb, hbk⟩ hp
  obtain ⟨a', ha', hai, -⟩ := mem_ranked_of_unresolvedPair ha hp
  obtain ⟨b', hb', hbi, -⟩ := mem_ranked_of_unresolvedPair hb hp.symm
  rw [mem_decidedSuppressed_iff] at hak hbk
  refine hbk ((passInvariant_ranked members u).closed a' ha' (by rwa [hai]) _ ?_)
  rw [mem_contradictionNeighbors_iff, hai]
  exact ⟨hp, List.mem_map.mpr ⟨a', ha', hai⟩, List.mem_map.mpr ⟨b', hb', hbi⟩⟩

/-- Every suppressed member has a retained neighbour above it. -/
theorem exists_retained_above {members : List GuardedMemory}
    {u : List (String × String)} {m : GuardedMemory} (hm : m ∈ members)
    (hs : m.memoryId ∈ decidedSuppressed members u) :
    ∃ w ∈ retainedMembers members u, UnresolvedPair u w.memoryId m.memoryId ∧ Outranks w m := by
  have hi := passInvariant_ranked members u
  have hr := ranked_rankedMembers members
  rw [mem_decidedSuppressed_iff, hi.tracks.ids, List.mem_map] at hs
  obtain ⟨d, hd, hid⟩ := hs
  obtain ⟨w, hw, hk, o, ho, rfl, ha, hp⟩ := hi.justified d hd
  rw [(decideContradictionSurvivor_of_outranks ha).2] at hid
  rw [hid] at hp
  rw [← mem_decidedSuppressed_iff] at hk
  refine ⟨w, ⟨(hr.named w hw).1, hk⟩, hp, ?_⟩
  -- the strongest standing under the identifier is the one the decision compared
  obtain ⟨first, hf, hn, hst⟩ := mem_ranked_of_unresolvedPair hm hp.symm
  obtain rfl : first = o := List.inj_on_of_nodup_map (List.pairwise_map.mpr hr.ids)
    hf ho (hn.trans hid.symm)
  rcases hst with hst | rfl
  · exact Std.TransCmp.lt_trans ha hst
  · exact ha

/-- Only members are suppressed. -/
theorem exists_member_of_suppressed {members : List GuardedMemory}
    {u : List (String × String)} {id : String}
    (hs : id ∈ decidedSuppressed members u) :
    ∃ m ∈ members, m.memoryId = id := by
  have hi := passInvariant_ranked members u
  rw [mem_decidedSuppressed_iff, hi.tracks.ids, List.mem_map] at hs
  obtain ⟨d, hd, hid⟩ := hs
  obtain ⟨w, -, -, o, ho, rfl, ha, -⟩ := hi.justified d hd
  rw [(decideContradictionSurvivor_of_outranks ha).2] at hid
  exact ⟨o, ((ranked_rankedMembers members).named o ho).1, hid⟩

/-- The decision does not depend on how members and pairs are listed. -/
theorem decideContradictionSuppressions_congr {members ms' : List GuardedMemory}
    {u u' : List (String × String)} (hm : members.Perm ms')
    (hp : SamePairs u u') :
    decideContradictionSuppressions members u = decideContradictionSuppressions ms' u' := by
  rw [decideContradictionSuppressions_eq, decideContradictionSuppressions_eq,
    rankedMembers_congr hm]
  unfold takeTurn
  rw [contradictionNeighbors_congr hp]

/-- **The guard computes a justified maximal conflict-free set**, whatever the order of the
members and the presentation of the pairs. -/
theorem decision_justified_maximal_confluent (members : List GuardedMemory)
    (unresolved : List (String × String)) :
    ConflictFree unresolved (retainedMembers members unresolved) ∧
      (∀ m ∈ members, m.memoryId ∈ decidedSuppressed members unresolved →
        ¬ ConflictFree unresolved (insert m (retainedMembers members unresolved)) ∧
        ∃ w ∈ retainedMembers members unresolved,
          UnresolvedPair unresolved w.memoryId m.memoryId ∧ Outranks w m) ∧
      (∀ id ∈ decidedSuppressed members unresolved, ∃ m ∈ members, m.memoryId = id) ∧
      ∀ members' unresolved', members.Perm members' → SamePairs unresolved unresolved' →
        decideContradictionSuppressions members' unresolved'
          = decideContradictionSuppressions members unresolved := by
  refine ⟨conflictFree_retainedMembers members unresolved, ?_,
    fun id => exists_member_of_suppressed, ?_⟩
  · intro m hm hs
    obtain ⟨w, hw, hp, ha⟩ := exists_retained_above hm hs
    refine ⟨fun hf => ?_, w, hw, hp, ha⟩
    exact hf w (Set.mem_insert_of_mem _ hw) m (Set.mem_insert _ _) hp
  · intro members' unresolved' hme hpa
    exact (decideContradictionSuppressions_congr hme hpa).symm

/-- Members that are free of conflict are all retained. -/
theorem decidedSuppressed_eq_nil {members : List GuardedMemory}
    {u : List (String × String)} (hf : ConflictFree u {m | m ∈ members}) :
    decidedSuppressed members u = [] := by
  rw [List.eq_nil_iff_forall_not_mem]
  intro id hid
  obtain ⟨m, hm, rfl⟩ := exists_member_of_suppressed hid
  obtain ⟨w, hw, hp, -⟩ := exists_retained_above hm hid
  exact hf w hw.1 m hm hp

/-! ## The books of a draft -/

section Draft

variable {F : Type}

/-- The count that `PackDraft::apply_contradiction_guard` returns: the size of the set of
suppressed identifiers. -/
def PackDraft.contradictionGuardCount (draft : PackDraft F)
    (unresolvedPairs : List (String × String)) (forced : Bool) : ℕ :=
  (draft.suppressedMemoryIds unresolvedPairs forced).dedup.length

/-- What the guard leaves behind when it keeps the books of a draft. -/
structure PackDraft.BooksKept [F32 F] (draft : PackDraft F)
    (unresolvedPairs : List (String × String)) : Prop where
  /-- No two remaining memories form an unresolved pair. -/
  conflictFree : ∀ a ∈ (draft.applyContradictionGuard unresolvedPairs false).items,
    ∀ b ∈ (draft.applyContradictionGuard unresolvedPairs false).items,
      ¬ UnresolvedPair unresolvedPairs a.memoryId.toText b.memoryId.toText
  /-- The used tokens are those of all remaining items. -/
  usedTokens : (draft.applyContradictionGuard unresolvedPairs false).usedTokens
    = (draft.applyContradictionGuard unresolvedPairs false).itemTokens.sum
  /-- The count is the number of memories removed. -/
  count : draft.contradictionGuardCount unresolvedPairs false
    + (draft.applyContradictionGuard unresolvedPairs false).items.length = draft.items.length
  /-- Every memory removed is recorded as omitted. -/
  recorded : ∀ item ∈ draft.items,
    item ∉ (draft.applyContradictionGuard unresolvedPairs false).items →
      suppressedOmission item ∈ (draft.applyContradictionGuard unresolvedPairs false).omitted
  /-- A second time nothing happens. -/
  again : (draft.applyContradictionGuard unresolvedPairs false).applyContradictionGuard
        unresolvedPairs false = draft.applyContradictionGuard unresolvedPairs false ∧
    (draft.applyContradictionGuard unresolvedPairs false).contradictionGuardCount
        unresolvedPairs false = 0

theorem PackDraft.mem_guardStanding_iff (draft : PackDraft F) (id : String) :
    (∃ m ∈ draft.guardStanding, m.memoryId = id) ↔ ∃ it ∈ draft.items, it.memoryId.toText = id := by
  unfold guardStanding
  simp

/-- Where the guard does not even look, there is nothing to suppress. -/
theorem PackDraft.suppressedMemoryIds_eq (draft : PackDraft F) (pairs : List (String × String)) :
    draft.suppressedMemoryIds pairs false = decidedSuppressed draft.guardStanding pairs := by
  unfold suppressedMemoryIds
  by_cases hs : pairs = [] ∨ draft.items.length < 2
  · rw [if_pos (Or.inr hs), decidedSuppressed_eq_nil]
    intro a ha b hb hpa
    rcases hs with rfl | hs
    · obtain ⟨-, -, -, p, hp, -⟩ := hpa
      cases hp
    · have hl : draft.guardStanding.length ≤ 1 := by
        rw [guardStanding, List.length_map]
        omega
      have hsa : a = b := by
        obtain ⟨i, hi, rfl⟩ := List.mem_iff_getElem.mp ha
        obtain ⟨j, hj, rfl⟩ := List.mem_iff_getElem.mp hb
        congr 1
        omega
      exact hpa.1 (by rw [hsa])
  · rw [if_neg (by simpa using hs)]
    rfl

/-- The remaining memories are free of conflict. -/
theorem PackDraft.conflictFree_applyContradictionGuard [F32 F] (draft : PackDraft F)
    (pairs : List (String × String)) :
    ∀ a ∈ (draft.applyContradictionGuard pairs false).items,
      ∀ b ∈ (draft.applyContradictionGuard pairs false).items,
        ¬ UnresolvedPair pairs a.memoryId.toText b.memoryId.toText := by
  have hr : ∀ it ∈ (draft.applyContradictionGuard pairs false).items,
      ∃ m ∈ retainedMembers draft.guardStanding pairs, m.memoryId = it.memoryId.toText := by
    intro it hi
    rw [applyContradictionGuard_items, keptItems, suppressedMemoryIds_eq, List.mem_filter] at hi
    obtain ⟨m, hm, hid⟩ := (draft.mem_guardStanding_iff _).mpr ⟨it, hi.1, rfl⟩
    exact ⟨m, ⟨hm, by simpa [hid] using hi.2⟩, hid⟩
  intro a ha b hb
  obtain ⟨m, hm, hma⟩ := hr a ha
  obtain ⟨m', hm', hmb⟩ := hr b hb
  rw [← hma, ← hmb]
  exact conflictFree_retainedMembers _ _ m hm m' hm'

/-- Nothing is suppressed the second time. -/
theorem PackDraft.suppressedMemoryIds_again [F32 F] (draft : PackDraft F)
    (pairs : List (String × String)) :
    (draft.applyContradictionGuard pairs false).suppressedMemoryIds pairs false = [] := by
  rw [suppressedMemoryIds_eq]
  apply decidedSuppressed_eq_nil
  intro a ha b hb
  obtain ⟨x, hx, hxi⟩ := (mem_guardStanding_iff _ _).mp ⟨a, ha, rfl⟩
  obtain ⟨y, hy, hyi⟩ := (mem_guardStanding_iff _ _).mp ⟨b, hb, rfl⟩
  rw [← hxi, ← hyi]
  exact draft.conflictFree_applyContradictionGuard pairs x hx y hy

theorem PackDraft.recorded_applyContradictionGuard [F32 F] (draft : PackDraft F)
    (pairs : List (String × String)) {it : PackDraftItem F}
    (hi : it ∈ draft.items)
    (hr : it ∉ (draft.applyContradictionGuard pairs false).items) :
    suppressedOmission it ∈ (draft.applyContradictionGuard pairs false).omitted := by
  rw [applyContradictionGuard_items, keptItems, List.mem_filter] at hr
  have hs : it.memoryId.toText ∈ draft.suppressedMemoryIds pairs false := by
    by_contra h
    exact hr ⟨hi, by simpa using h⟩
  unfold applyContradictionGuard
  simp only
  rw [if_neg (List.ne_nil_of_mem hs)]
  refine List.mem_append_right _ (List.mem_map_of_mem ?_)
  exact List.mem_filter.mpr ⟨hi, by simpa using hs⟩

/-- The identifiers of the memories that the guard removes, once for each item. -/
def PackDraft.removedIds (draft : PackDraft F) (unresolvedPairs : List (String × String)) :
    List String :=
  (draft.items.map (·.memoryId.toText)).filter
    (· ∈ draft.suppressedMemoryIds unresolvedPairs false)

theorem PackDraft.length_removedIds [F32 F] (draft : PackDraft F) (pairs : List (String × String)) :
    (draft.removedIds pairs).length + (draft.applyContradictionGuard pairs false).items.length
        = draft.items.length := by
  rw [removedIds, applyContradictionGuard_items, keptItems, List.filter_map, List.length_map]
  have hs := List.length_eq_length_filter_add (l := draft.items)
    (fun it => decide (it.memoryId.toText ∈ draft.suppressedMemoryIds pairs false))
  rw [hs]
  congr 2
  simp

/-- The count returned is the number of distinct identifiers removed. -/
theorem PackDraft.contradictionGuardCount_eq (draft : PackDraft F)
    (pairs : List (String × String)) :
    draft.contradictionGuardCount pairs false = (draft.removedIds pairs).dedup.length := by
  unfold contradictionGuardCount
  refine (List.perm_of_nodup_nodup_toFinset_eq (List.nodup_dedup _) (List.nodup_dedup _)
    ?_).length_eq
  ext id
  simp only [List.mem_toFinset, List.mem_dedup, removedIds, List.mem_filter, List.mem_map,
    decide_eq_true_eq]
  constructor
  · intro hid
    refine ⟨(draft.mem_guardStanding_iff id).mp ?_, hid⟩
    rw [suppressedMemoryIds_eq] at hid
    exact exists_member_of_suppressed hid
  · exact fun h => h.2

/-- The identifiers removed are distinct when each suppressed memory is carried by one item. -/
theorem PackDraft.nodup_removedIds_iff (draft : PackDraft F) (pairs : List (String × String)) :
    (draft.removedIds pairs).Nodup ↔ ∀ id ∈ draft.suppressedMemoryIds pairs false,
        draft.items.countP (fun it => it.memoryId.toText = id) = 1 := by
  have hc : ∀ id ∈ draft.suppressedMemoryIds pairs false, (draft.removedIds pairs).count id
        = draft.items.countP (fun it => it.memoryId.toText = id) := by
    intro id hid
    rw [removedIds, List.count_filter (by simpa using hid), List.count_eq_countP, List.countP_map]
    congr 1
  rw [List.nodup_iff_count_eq_one]
  constructor
  · intro h id hid
    rw [← hc id hid]
    refine h id (List.mem_filter.mpr ⟨?_, by simpa using hid⟩)
    rw [List.mem_map, ← draft.mem_guardStanding_iff]
    rw [suppressedMemoryIds_eq] at hid
    exact exists_member_of_suppressed hid
  · intro h id hid
    have h' : id ∈ draft.suppressedMemoryIds pairs false := by
      simpa using (List.mem_filter.mp hid).2
    rw [hc id h']
    exact h id h'

theorem PackDraft.count_eq_removed_iff [F32 F] (draft : PackDraft F)
    (pairs : List (String × String)) :
    draft.contradictionGuardCount pairs false
        + (draft.applyContradictionGuard pairs false).items.length
          = draft.items.length ↔
      ∀ id ∈ draft.suppressedMemoryIds pairs false,
        draft.items.countP (fun it => it.memoryId.toText = id) = 1 := by
  rw [← nodup_removedIds_iff, contradictionGuardCount_eq,
    ← draft.length_removedIds pairs, Nat.add_right_cancel_iff]
  constructor
  · intro hl
    rw [← (List.dedup_sublist _).eq_of_length hl]
    exact List.nodup_dedup _
  · intro hn
    rw [hn.dedup]

/-- The condition on the tokens: with something to suppress, those of the kept items add up
to a `u32`; with nothing to suppress, the count was right before. -/
def PackDraft.TokensInOrder (draft : PackDraft F) (unresolvedPairs : List (String × String)) :
    Prop :=
  if draft.suppressedMemoryIds unresolvedPairs false = [] then
    draft.usedTokens = draft.itemTokens.sum
  else (draft.keptTokens unresolvedPairs false).sum ≤ u32Max

theorem PackDraft.usedTokens_eq_sum_iff [F32 F] (draft : PackDraft F)
    (unresolvedPairs : List (String × String)) :
    (draft.applyContradictionGuard unresolvedPairs false).usedTokens
        = (draft.applyContradictionGuard unresolvedPairs false).itemTokens.sum ↔
      draft.TokensInOrder unresolvedPairs := by
  rw [usedTokens_applyContradictionGuard, itemTokens_applyContradictionGuard, TokensInOrder]
  split
  · rename_i hnone
    have hkept : draft.keptTokens unresolvedPairs false = draft.itemTokens := by
      simp [keptTokens, keptItems, hnone, itemTokens]
    rw [hkept]
  · exact wrappingSum32_eq_sum_iff

/-- **When the guard keeps the books.**  For every draft and every list of unresolved pairs, it
does so if and only if every memory that the decision suppresses is carried by one item, the
tokens of the kept items add up to a `u32`, and the token count of a draft with nothing to
suppress was right before. -/
theorem PackDraft.booksKept_iff [F32 F] (draft : PackDraft F)
    (unresolvedPairs : List (String × String)) :
    draft.BooksKept unresolvedPairs ↔ (∀ id ∈ draft.suppressedMemoryIds unresolvedPairs false,
        draft.items.countP (fun item => item.memoryId.toText = id) = 1) ∧
      draft.TokensInOrder unresolvedPairs := by
  rw [← draft.count_eq_removed_iff, ← draft.usedTokens_eq_sum_iff]
  constructor
  · intro h
    exact ⟨h.count, h.usedTokens⟩
  · rintro ⟨hc, hu⟩
    have ha := draft.suppressedMemoryIds_again unresolvedPairs
    refine ⟨draft.conflictFree_applyContradictionGuard unresolvedPairs, hu, hc,
      fun item => draft.recorded_applyContradictionGuard unresolvedPairs, ?_, ?_⟩
    · rw [applyContradictionGuard]
      simp only
      rw [if_pos ha]
    · rw [contradictionGuardCount, ha]
      rfl

end Draft

/-- A memory in two sections, and one that contradicts it. -/
def twoSectionCandidates : List (PackCandidate ℚ) :=
  [sampleCandidate 1 .proceduralRules "run the tests" 10 (9 / 10),
    sampleCandidate 2 .decisions "use the nightly toolchain" 12 (8 / 10),
    sampleCandidate 2 .evidence "use the nightly toolchain" 12 (7 / 10)]

/-- The contradiction. -/
def twoSectionPairs : List (String × String) :=
  [((⟨1⟩ : MemoryId).toText, (⟨2⟩ : MemoryId).toText)]

/-- The draft assembled from them loses two items to the guard, which returns 1. -/
theorem two_sections_count_once :
    ∃ draft, assembleDraftWithProfileAndOptionsSeeded sampleContext true "tests"
        twoSectionCandidates = .ok draft ∧
      draft.contradictionGuardCount twoSectionPairs false = 1 ∧
      draft.items.length = 3 ∧
      (draft.applyContradictionGuard twoSectionPairs false).items.length = 1 ∧
      ¬ draft.BooksKept twoSectionPairs := by
  have hc : (assembleDraftWithProfileAndOptionsSeeded sampleContext true "tests"
      twoSectionCandidates).toOption.map (fun draft =>
        (draft.contradictionGuardCount twoSectionPairs false, draft.items.length,
          (draft.applyContradictionGuard twoSectionPairs false).items.length))
      = some (1, 3, 1) := by
    decide +kernel
  cases hr : assembleDraftWithProfileAndOptionsSeeded sampleContext true "tests"
      twoSectionCandidates with
  | error e =>
    rw [hr] at hc
    cases hc
  | ok draft =>
    rw [hr] at hc
    obtain ⟨hco, hre⟩ := Prod.mk.inj (Option.some.inj hc)
    obtain ⟨hi, hk⟩ := Prod.mk.inj hre
    refine ⟨draft, rfl, hco, hi, hk, fun h => ?_⟩
    have := h.count
    omega

end Pack
