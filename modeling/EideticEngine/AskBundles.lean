/-
# Bundles within the slots

`corroborated_answers` of `src/core/ask_candidate_saturation.rs` keeps, for each cost, only as
many bundles of corroborating copies as could fit, and then takes by rank whatever still fits.
The selection is the one from all bundles, whole bundles only, and it holds no candidate twice.
-/
import EideticEngine.AskRetention
import EideticEngine.CostFrontier

namespace Ask

open RustText (trim strCmp)
open StableSort (sortBy)
open BestPerKey (IsFirst)
open CostFrontier (greedy)
open Std (ExtTreeMap)

variable {F : Type} [AskF32 F]

/-! ## The frontiers of the costs -/

/-- The slots that a bundle takes. -/
def Bundle.cost (bundle : Bundle F) : ℕ := bundle.entries.length

instance : Std.TransCmp (Bundle.cmp : Bundle F → Bundle F → Ordering) :=
  ComparisonSort.transCmp_on Bundle.first

section Frontiers

variable {limit maxSupport : ℕ} {seen bundles : List (Bundle F)} {byCost : List (List (Bundle F))}

/-- Each frontier holds the first bundles of its cost. -/
structure FrontiersHold (limit maxSupport : ℕ) (seen : List (Bundle F))
    (byCost : List (List (Bundle F))) : Prop where
  length_eq : byCost.length = maxSupport + 1
  first : ∀ (cost : ℕ) (frontier : List (Bundle F)), byCost[cost]? = some frontier →
    IsFirst Bundle.cmp (limit / cost) (fun b => b ∈ seen ∧ b.cost = cost) frontier

theorem frontiersHold_nil (limit maxSupport : ℕ) : FrontiersHold limit maxSupport []
      (List.replicate (maxSupport + 1) ([] : List (Bundle F))) where
  length_eq := List.length_replicate
  first cost frontier h := by
    have hn : frontier = [] := List.eq_of_mem_replicate (List.mem_of_getElem? h)
    subst hn
    exact ⟨List.Pairwise.nil, fun a ha => absurd ha List.not_mem_nil, Nat.zero_le _,
      fun a ha => absurd ha.1 List.not_mem_nil⟩

/-- One more bundle. -/
theorem FrontiersHold.keepBundle (h : FrontiersHold limit maxSupport seen byCost)
    {bu : Bundle F} (hc : bu.cost ≤ maxSupport)
    (hne : ∀ b ∈ seen, b.cmp bu ≠ .eq) :
    ∃ bc', keepBundle limit byCost bu = some bc'
      ∧ FrontiersHold limit maxSupport (seen ++ [bu]) bc' := by
  have hl := h.length_eq
  have hi : bu.cost < byCost.length := by omega
  have hg := List.getElem?_eq_getElem hi
  have hk : Ask.keepBundle limit byCost bu = some (byCost.set bu.cost
      ((sortBy Bundle.cmp (byCost[bu.cost] ++ [bu])).take (limit / bu.cost))) := by
    unfold Bundle.cost at hg
    simp only [Ask.keepBundle, hg]
    rfl
  refine ⟨_, hk, (List.length_set ..).trans hl, fun cost f hf => ?_⟩
  rw [List.getElem?_set] at hf
  split at hf
  · rename_i heq
    subst heq
    obtain rfl := Option.some.inj hf
    refine ((h.first bu.cost _ hg).concat fun b hb => hne b hb.1).congr fun b => ?_
    rw [List.mem_append, List.mem_singleton]
    constructor
    · rintro (⟨hb, hbc⟩ | rfl)
      · exact ⟨.inl hb, hbc⟩
      · exact ⟨.inr rfl, rfl⟩
    · rintro ⟨hb | rfl, hbc⟩
      · exact .inl ⟨hb, hbc⟩
      · exact .inr rfl
  · rename_i ho
    refine (h.first cost f hf).congr fun b => ?_
    rw [List.mem_append, List.mem_singleton]
    constructor
    · exact fun hb => ⟨.inl hb.1, hb.2⟩
    · rintro ⟨hb | rfl, hbc⟩
      · exact ⟨hb, hbc⟩
      · exact absurd hbc ho

/-- All bundles, one by one. -/
theorem frontiersHold_foldlM (limit : ℕ) (hc : ∀ bu ∈ bundles, bu.cost ≤ maxSupport)
    (ho : bundles.Pairwise fun left right => left.cmp right ≠ .eq) :
    ∃ byCost, bundles.foldlM (keepBundle limit) (List.replicate (maxSupport + 1) []) = some byCost
      ∧ FrontiersHold limit maxSupport bundles byCost := by
  induction bundles using List.reverseRecOn with
  | nil => exact ⟨_, rfl, frontiersHold_nil limit maxSupport⟩
  | append_singleton bundles bu ih =>
    obtain ⟨hbu, -, hl⟩ := List.pairwise_append.mp ho
    obtain ⟨byCost, hr, hh⟩ := ih (fun b hb => hc b (List.mem_append_left _ hb)) hbu
    obtain ⟨bc', hk, hh'⟩ := hh.keepBundle (hc bu (by simp))
      fun b hb => hl b hb bu List.mem_cons_self
    refine ⟨bc', ?_, hh'⟩
    rw [List.foldlM_append, hr]
    simpa using hk

theorem FrontiersHold.mem_flatten (h : FrontiersHold limit maxSupport bundles byCost)
    {b : Bundle F} (hm : b ∈ byCost.flatten) :
    ∃ f, byCost[b.cost]? = some f ∧ b ∈ f ∧ b ∈ bundles := by
  obtain ⟨f, hf, hin⟩ := List.mem_flatten.mp hm
  obtain ⟨cost, hc⟩ := List.mem_iff_getElem?.mp hf
  obtain ⟨hb, rfl⟩ := (h.first cost f hc).mem b hin
  exact ⟨f, hc, hin, hb⟩

/-- No bundle is kept twice. -/
theorem FrontiersHold.pairwise_flatten (h : FrontiersHold limit maxSupport bundles byCost)
    (ho : bundles.Pairwise fun left right => left.cmp right ≠ .eq) :
    byCost.flatten.Pairwise fun left right => left.cmp right ≠ .eq := by
  have hs : Std.Symm fun left right : Bundle F => left.cmp right ≠ .eq :=
    ⟨fun _ _ hne heq => hne (Std.OrientedCmp.eq_symm heq)⟩
  refine List.pairwise_flatten.mpr ⟨fun f hf => ?_, ?_⟩
  · obtain ⟨cost, hc⟩ := List.mem_iff_getElem?.mp hf
    refine (h.first cost f hc).sorted.imp fun hlt heq => ?_
    rw [hlt] at heq
    cases heq
  · rw [List.pairwise_iff_getElem]
    intro i j hi hj hij left hle right hri
    obtain ⟨hl, hlef⟩ := (h.first i _ (List.getElem?_eq_getElem hi)).mem left hle
    obtain ⟨hr, hrig⟩ := (h.first j _ (List.getElem?_eq_getElem hj)).mem right hri
    refine ho.forall hl hr ?_
    rintro rfl
    omega

/-! ## The selection -/

omit [AskF32 F] in
/-- Taking bundles whole while they fit is the greedy choice. -/
theorem foldlM_takeBundle (bundles : List (Bundle F)) :
    ∀ s : List (RankedCandidate F), s.length ≤ limit → bundles.foldlM (takeBundle limit) s = some (s
          ++ (greedy Bundle.cost limit s.length bundles).flatMap Bundle.entries) := by
  induction bundles with
  | nil => intro s _; simp [greedy]
  | cons b bundles ih =>
    intro s hs
    have ht : takeBundle limit s b = some (if s.length + b.cost ≤ limit then s ++ b.entries
          else s) := by
      unfold takeBundle checkedSub
      rw [if_pos hs]
      simp only [Option.bind_eq_bind, Option.bind_some, Option.pure_def, Bundle.cost]
      congr 1
      exact if_congr (by omega) rfl rfl
    rw [List.foldlM_cons, ht, Option.bind_eq_bind, Option.bind_some, greedy]
    split
    · rename_i hf
      have hl : (s ++ b.entries).length = s.length + b.cost := List.length_append
      rw [ih _ (hl ▸ hf), hl, List.flatMap_cons, List.append_assoc]
    · exact ih s hs

omit [AskF32 F] in
theorem length_flatMap_entries (bundles : List (Bundle F)) :
    (bundles.flatMap Bundle.entries).length = (bundles.map Bundle.cost).sum :=
  List.length_flatMap

/-- The greedy choice from the frontiers. -/
theorem FrontiersHold.greedy_eq (h : FrontiersHold limit maxSupport bundles byCost)
    (hc : ∀ b ∈ bundles, b.cost ≤ maxSupport)
    (ho : bundles.Pairwise fun left right => left.cmp right ≠ .eq) :
    greedy Bundle.cost limit 0 (sortBy Bundle.cmp byCost.flatten)
      = greedy Bundle.cost limit 0 (sortBy Bundle.cmp bundles) := by
  refine CostFrontier.greedy_frontiers ho (h.pairwise_flatten ho)
    (fun _ _ => Nat.succ_pos _) (fun b hb => ?_) fun b hb => ?_
  · have hi : b.cost < byCost.length := by
      rw [h.length_eq]
      exact Nat.lt_succ_of_le (hc b hb)
    have hg := List.getElem?_eq_getElem hi
    exact ⟨_, h.first _ _ hg, fun hin => List.mem_flatten.mpr ⟨_, List.mem_of_getElem? hg, hin⟩⟩
  · obtain ⟨-, -, -, hin⟩ := h.mem_flatten hb
    exact hin

/-- **Bounded frontiers choose what the greedy choice over all bundles chooses**, within the
limit and whole bundles only. -/
theorem bounded_bundles_eq_greedy {limit maxSupport : ℕ} {bundles : List (Bundle F)}
    (hcost : ∀ bundle ∈ bundles, 2 ≤ bundle.entries.length ∧ bundle.entries.length ≤ maxSupport)
    (horder : bundles.Pairwise fun left right => left.cmp right ≠ .eq) :
    ∃ byCost selected,
      bundles.foldlM (keepBundle limit) (List.replicate (maxSupport + 1) []) = some byCost
        ∧ (sortBy Bundle.cmp byCost.flatten).foldlM (takeBundle limit) [] = some selected
        ∧ (sortBy Bundle.cmp bundles).foldlM (takeBundle limit) [] = some selected
        ∧ selected.length ≤ limit
        ∧ ∃ chosen : List (Bundle F), chosen.Sublist (sortBy Bundle.cmp bundles)
          ∧ selected = chosen.flatMap Bundle.entries := by
  have hle : ∀ bundle ∈ bundles, bundle.cost ≤ maxSupport := fun bundle hb => (hcost bundle hb).2
  obtain ⟨byCost, hr, hh⟩ := frontiersHold_foldlM limit hle horder
  refine ⟨byCost, _, hr, foldlM_takeBundle _ [] (Nat.zero_le _), ?_, ?_, ?_⟩
  · rw [foldlM_takeBundle _ [] (Nat.zero_le _), List.length_nil, hh.greedy_eq hle horder]
  · rw [List.nil_append, length_flatMap_entries, List.length_nil]
    simpa using CostFrontier.sum_greedy_le (Nat.zero_le limit) (sortBy Bundle.cmp byCost.flatten)
  · refine ⟨greedy Bundle.cost limit 0 (sortBy Bundle.cmp bundles),
      CostFrontier.greedy_sublist 0 _, ?_⟩
    rw [List.nil_append, List.length_nil, hh.greedy_eq hle horder]

end Frontiers

def sampleBundle (memoryId : String) (score : ℚ) : Bundle ℚ :=
  ⟨⟨⟨memoryId, "Use the cache.", 1 / 2, "agent_validated", none, "", "", none⟩, score⟩,
    [⟨⟨memoryId ++ "-copy", "Use the cache.", 1 / 2, "agent_validated", none, "", "", none⟩,
      score⟩]⟩

/-- Two bundles of two compete for three slots. -/
theorem bounded_bundles_eq_greedy_pair :
    (∀ bundle ∈ [sampleBundle "a" (1 / 3), sampleBundle "b" (1 / 2)],
        2 ≤ bundle.entries.length ∧ bundle.entries.length ≤ 2)
      ∧ ∃ selected, (sortBy Bundle.cmp [sampleBundle "a" (1 / 3), sampleBundle "b" (1 / 2)]).foldlM
          (takeBundle 3) [] = some selected ∧ selected.length ≤ 3 := by
  have hc : ∀ bundle ∈ [sampleBundle "a" (1 / 3), sampleBundle "b" (1 / 2)],
      2 ≤ bundle.entries.length ∧ bundle.entries.length ≤ 2 := by
    intro bundle hb
    rcases List.mem_cons.mp hb with rfl | hb
    · decide
    · rw [List.mem_singleton.mp hb]
      decide
  have ho : [sampleBundle "a" (1 / 3), sampleBundle "b" (1 / 2)].Pairwise
      fun left right => left.cmp right ≠ .eq := by
    rw [List.pairwise_pair]
    decide +kernel
  obtain ⟨-, selected, -, -, hs, hl, -⟩ := @bounded_bundles_eq_greedy ℚ _ 3 2 _ hc ho
  exact ⟨hc, selected, hs, hl⟩

/-! ## Where the bundles come from -/

section Corroborated

variable {rules : AskRules} {scorer : SpanScorer F} {questionTerms : List String}
  {request : AskRequest F} {groups : ExtTreeMap String String strCmp} {maxSupport limit : ℕ}

omit [AskF32 F] in
/-- The candidates of a bundle are taken in order, all with one score. -/
theorem takeOrigins_spec {n : ℕ} {s : F} (cs : List (AskCandidate F)) :
    ∀ (os : List String) (b : List (RankedCandidate F)), ∃ t : List (AskCandidate F), t.Sublist cs
        ∧ takeOrigins groups n s cs os b = b ++ t.map fun candidate => ⟨candidate, s⟩ := by
  induction cs with
  | nil => exact fun os b => ⟨[], List.Sublist.refl _, by simp [takeOrigins]⟩
  | cons candidate r ih =>
    intro os b
    rw [takeOrigins]
    simp only
    split
    · obtain ⟨t, hs, heq⟩ := ih os b
      exact ⟨t, hs.cons candidate, heq⟩
    · split
      · exact ⟨[candidate], (List.nil_sublist r).cons_cons candidate, rfl⟩
      · obtain ⟨t, hs, heq⟩ := ih (supportKey candidate.memoryId groups :: os)
          (b ++ [⟨candidate, s⟩])
        refine ⟨candidate :: t, hs.cons_cons candidate, ?_⟩
        rw [heq, List.append_assoc]
        rfl

/-- The score of a candidate depends on its signature only. -/
theorem bestSpanScore_congr {left right : AskCandidate F}
    (h : sourceSignature left = sourceSignature right) :
    bestSpanScore rules scorer questionTerms left
      = bestSpanScore rules scorer questionTerms right := by
  obtain ⟨hco, hb, ht⟩ := SourceSignature.mk.inj h
  have hc := AskF32.toBits_injective hb
  unfold bestSpanScore passageScore
  rw [hco, hc, ht]

/-- What is said of a bundle: its entries are the ranks of candidates, in order, and no more
than its cost may be. -/
def Bundle.From (rules : AskRules) (scorer : SpanScorer F) (questionTerms : List String)
    (maxSupport : ℕ) (stock : List (AskCandidate F)) (bundle : Bundle F) : Prop :=
  (∃ taken : List (AskCandidate F), taken.Sublist stock
    ∧ bundle.entries = taken.map (rankCandidate rules scorer questionTerms))
  ∧ bundle.cost ≤ maxSupport

theorem from_signatureBundle {signature : List (AskCandidate F)} {b : Bundle F}
    (hsa : ∀ left ∈ signature, ∀ right ∈ signature, sourceSignature left = sourceSignature right)
    (h : signatureBundle rules scorer questionTerms request groups maxSupport signature
      = some b) : b.From rules scorer questionTerms maxSupport signature := by
  unfold signatureBundle at h
  split at h
  · cases h
  · rename_i first r
    simp only at h
    split at h
    · cases h
    · split at h
      · cases h
      · rename_i n hcount
        have hrange := List.mem_of_find?_eq_some hcount
        rw [List.mem_range'_1] at hrange
        obtain ⟨t, hs, ht⟩ := @takeOrigins_spec F groups n
          (bestSpanScore rules scorer questionTerms first) (first :: r) [] []
        rw [List.nil_append] at ht
        split at h
        · cases h
        · rename_i hlength
          split at h
          · cases h
          · rename_i head os hb
            obtain rfl := Option.some.inj h
            rw [hb] at hlength
            refine ⟨⟨t, hs, ?_⟩, by simp only [Bundle.cost, Bundle.entries]; omega⟩
            change head :: os = _
            rw [← hb, ht]
            refine List.map_congr_left fun candidate hc => ?_
            rw [rankCandidate, bestSpanScore_congr
              (hsa candidate (hs.subset hc) first List.mem_cons_self)]

theorem from_bodyBundle {bo : List (AskCandidate F)} {b : Bundle F}
    (h : bodyBundle rules scorer questionTerms request groups maxSupport bo = some b) :
    b.From rules scorer questionTerms maxSupport bo := by
  have ha : ∀ b ∈ bodyBundle rules scorer questionTerms request groups maxSupport bo,
      b.From rules scorer questionTerms maxSupport bo := by
    unfold bodyBundle
    refine List.foldlRecOn (motive := fun be : Option (Bundle F) =>
      ∀ b ∈ be, b.From rules scorer questionTerms maxSupport bo) _ _
      (fun _ h => absurd h (Option.not_mem_none _)) ?_
    intro be hb signature hs
    split
    · exact hb
    · rename_i f hf
      split
      · intro b hbu
        obtain rfl := Option.some.inj hbu
        have hc := List.isChain_of_mem_splitBy hs
        have hp : signature.Pairwise fun left right =>
            sourceSignature left = sourceSignature right := by
          have htr : IsTrans (AskCandidate F) fun left right =>
              sourceSignature left = sourceSignature right := ⟨fun _ _ _ => Eq.trans⟩
          exact (hc.imp fun _ _ hsa => by simpa using hsa).pairwise
        have hsy : Std.Symm fun left right : AskCandidate F =>
            sourceSignature left = sourceSignature right := ⟨fun _ _ => Eq.symm⟩
        obtain ⟨⟨t, hsu, ht⟩, hcost⟩ :=
          from_signatureBundle (hp.forall_of_forall fun _ _ => rfl) hf
        refine ⟨⟨t, hsu.trans ?_, ht⟩, hcost⟩
        have hfl := List.sublist_flatten_of_mem hs
        rwa [List.flatten_splitBy] at hfl
      · exact hb
  exact ha b h

/-- The candidates that can corroborate each other, by their signature. -/
def corroborationStock (unique : ExtTreeMap String (AskCandidate F) strCmp)
    (admittedBodies : List String) : List (AskCandidate F) :=
  sortBy (fun left right : AskCandidate F =>
    ((sourceSignature left).cmp (sourceSignature right)).then
      (strCmp left.memoryId right.memoryId))
    (unique.values.filter fun candidate =>
      trim candidate.content ≠ "" ∧ candidate.content ∉ admittedBodies)

/-- The best bundle of each body. -/
def corroborationBundles (rules : AskRules) (scorer : SpanScorer F) (questionTerms : List String)
    (request : AskRequest F) (groups : ExtTreeMap String String strCmp) (maxSupport : ℕ)
    (stock : List (AskCandidate F)) : List (Bundle F) :=
  (stock.splitBy fun left right => left.content = right.content).filterMap
    (bodyBundle rules scorer questionTerms request groups maxSupport)

/-- The bundles take each candidate at most once. -/
theorem corroborationBundles_spec (s : List (AskCandidate F)) :
    ∃ t : List (AskCandidate F), t.Sublist s
      ∧ (corroborationBundles rules scorer questionTerms request groups maxSupport s).flatMap
          Bundle.entries = t.map (rankCandidate rules scorer questionTerms) := by
  have hbo : ∀ bs : List (List (AskCandidate F)), ∃ t : List (AskCandidate F), t.Sublist bs.flatten
        ∧ (bs.filterMap (bodyBundle rules scorer questionTerms request groups
            maxSupport)).flatMap Bundle.entries
          = t.map (rankCandidate rules scorer questionTerms) := by
    intro bs
    induction bs with
    | nil => exact ⟨[], List.Sublist.refl _, rfl⟩
    | cons b bs ih =>
      obtain ⟨t, hs, ht⟩ := ih
      rw [List.flatten_cons]
      cases hb : bodyBundle rules scorer questionTerms request groups maxSupport b with
      | none =>
        refine ⟨t, hs.trans (List.sublist_append_right _ _), ?_⟩
        rw [List.filterMap_cons_none hb, ht]
      | some bu =>
        obtain ⟨⟨first, hf, he⟩, -⟩ := from_bodyBundle hb
        refine ⟨first ++ t, hf.append hs, ?_⟩
        rw [List.filterMap_cons_some hb, List.flatMap_cons, he, ht, List.map_append]
  obtain ⟨t, hs, ht⟩ := hbo (s.splitBy fun left right => left.content = right.content)
  rw [List.flatten_splitBy] at hs
  exact ⟨t, hs, ht⟩

theorem cost_le_of_mem_bundles {s : List (AskCandidate F)} {b : Bundle F}
    (h : b ∈ corroborationBundles rules scorer questionTerms request groups maxSupport
      s) : b.cost ≤ maxSupport := by
  obtain ⟨bo, -, hb⟩ := List.mem_filterMap.mp h
  exact (from_bodyBundle hb).2

variable {unique : ExtTreeMap String (AskCandidate F) strCmp} {admittedBodies : List String}

theorem mem_corroborationStock {candidate : AskCandidate F} :
    candidate ∈ corroborationStock unique admittedBodies ↔ candidate ∈ unique.values
      ∧ trim candidate.content ≠ "" ∧ candidate.content ∉ admittedBodies := by
  rw [corroborationStock, StableSort.sortBy, List.mem_insertionSort, List.mem_filter,
    decide_eq_true_eq]

theorem nodup_corroborationStock (hi : (unique.values.map AskCandidate.memoryId).Nodup) :
    ((corroborationStock unique admittedBodies).map AskCandidate.memoryId).Nodup := by
  have hp : (corroborationStock unique admittedBodies).Perm _ := List.perm_insertionSort _ _
  exact (hp.map _).nodup_iff.mpr ((List.filter_sublist.map _).nodup hi)

/-- The entries of the bundles have distinct identities. -/
theorem nodup_entries_bundles (hi : (unique.values.map AskCandidate.memoryId).Nodup) :
    (((corroborationBundles rules scorer questionTerms request groups maxSupport
      (corroborationStock unique admittedBodies)).flatMap Bundle.entries).map
        RankedCandidate.memoryId).Nodup := by
  obtain ⟨t, hs, ht⟩ := @corroborationBundles_spec F _ rules scorer questionTerms request
    groups maxSupport (corroborationStock unique admittedBodies)
  rw [ht, List.map_map]
  exact (nodup_corroborationStock hi).sublist (hs.map AskCandidate.memoryId)

theorem pairwise_bundles (hi : (unique.values.map AskCandidate.memoryId).Nodup) :
    (corroborationBundles rules scorer questionTerms request groups maxSupport
      (corroborationStock unique admittedBodies)).Pairwise
        fun left right => left.cmp right ≠ .eq := by
  have hn := @nodup_entries_bundles F _ rules scorer questionTerms request groups maxSupport
    unique admittedBodies hi
  rw [List.map_flatMap, List.Nodup, List.pairwise_flatMap] at hn
  refine hn.2.imp fun {left right} hne heq => ?_
  exact hne _ (List.mem_map_of_mem List.mem_cons_self) _
    (List.mem_map_of_mem List.mem_cons_self) (memoryId_eq_of_cmp heq)

/-- **The answers are the greedy choice over the bundles of all bodies.** -/
theorem corroboratedAnswers_eq (hi : (unique.values.map AskCandidate.memoryId).Nodup)
    {supportLimit : ℕ} (hs : ¬ min supportLimit limit < 2) :
    corroboratedAnswers rules scorer questionTerms request unique admittedBodies groups limit
        supportLimit
      = some ((greedy Bundle.cost limit 0 (sortBy Bundle.cmp
          (corroborationBundles rules scorer questionTerms request groups
            (min supportLimit limit) (corroborationStock unique admittedBodies)))).flatMap
              Bundle.entries) := by
  have hc := fun b => @cost_le_of_mem_bundles F _ rules scorer questionTerms request groups
    (min supportLimit limit) (corroborationStock unique admittedBodies) b
  have ho := @pairwise_bundles F _ rules scorer questionTerms request groups
    (min supportLimit limit) unique admittedBodies hi
  obtain ⟨byCost, hr, hh⟩ := frontiersHold_foldlM limit hc ho
  have hk : ∀ (bs : List (List (AskCandidate F))) (byCost : List (List (Bundle F))),
      bs.foldlM (keepBody rules scorer questionTerms request groups (min supportLimit limit)
          limit) byCost
        = (bs.filterMap (bodyBundle rules scorer questionTerms request groups
            (min supportLimit limit))).foldlM (keepBundle limit) byCost := by
    intro bs
    induction bs with
    | nil => exact fun _ => rfl
    | cons bo bs ih =>
      intro byCost
      rw [List.foldlM_cons, keepBody]
      cases hb : bodyBundle rules scorer questionTerms request groups
          (min supportLimit limit) bo with
      | none =>
        rw [List.filterMap_cons_none hb, ← ih byCost]
        rfl
      | some b =>
        rw [List.filterMap_cons_some hb, List.foldlM_cons]
        exact congrArg _ (funext ih)
  unfold corroboratedAnswers
  simp only
  rw [if_neg hs, hk]
  change (List.foldlM (keepBundle limit) _ (corroborationBundles rules scorer questionTerms request
    groups (min supportLimit limit) (corroborationStock unique admittedBodies))).bind _ = _
  rw [hr, Option.bind_some, foldlM_takeBundle _ [] (Nat.zero_le _), List.nil_append,
    List.length_nil, hh.greedy_eq hc ho]

theorem corroboratedAnswers_spec (hi : (unique.values.map AskCandidate.memoryId).Nodup)
    (supportLimit : ℕ) :
    ∃ as, corroboratedAnswers rules scorer questionTerms request unique admittedBodies groups
        limit supportLimit = some as
      ∧ as.length ≤ limit
      ∧ (as.map RankedCandidate.memoryId).Nodup
      ∧ ∀ en ∈ as, en ∈ allEntries rules scorer questionTerms unique
        ∧ en.candidate.content ∉ admittedBodies := by
  by_cases hs : min supportLimit limit < 2
  · refine ⟨[], ?_, Nat.zero_le _, List.nodup_nil, fun _ h => absurd h List.not_mem_nil⟩
    unfold corroboratedAnswers
    exact if_pos hs
  · refine ⟨_, corroboratedAnswers_eq hi hs, ?_, ?_, ?_⟩
    · rw [length_flatMap_entries]
      simpa using CostFrontier.sum_greedy_le (Nat.zero_le limit) _
    · have hp := (List.perm_insertionSort (fun left right : Bundle F => left.cmp right ≠ .gt)
        (corroborationBundles rules scorer questionTerms request groups (min supportLimit limit)
          (corroborationStock unique admittedBodies))).flatMap_right Bundle.entries
      have hn := ((hp.map RankedCandidate.memoryId).nodup_iff).mpr (nodup_entries_bundles hi)
      exact hn.sublist (((CostFrontier.greedy_sublist 0 _).flatMap _).map _)
    · intro en he
      obtain ⟨b, hb, hin⟩ := List.mem_flatMap.mp he
      have hm := (CostFrontier.greedy_sublist 0 _).subset hb
      rw [StableSort.sortBy, List.mem_insertionSort] at hm
      obtain ⟨t, hsu, ht⟩ := @corroborationBundles_spec F _ rules scorer questionTerms
        request groups (min supportLimit limit) (corroborationStock unique admittedBodies)
      have ha : en ∈ t.map (rankCandidate rules scorer questionTerms) := by
        rw [← ht]
        exact List.mem_flatMap.mpr ⟨b, hm, hin⟩
      obtain ⟨candidate, hc, rfl⟩ := List.mem_map.mp ha
      obtain ⟨hv, hbl, hbo⟩ := mem_corroborationStock.mp (hsu.subset hc)
      refine ⟨List.mem_filter.mpr ⟨List.mem_map_of_mem hv, ?_⟩, hbo⟩
      simpa [rankCandidate] using hbl

end Corroborated

end Ask
