/-
# The slots after both passes

After the lineage pass `preserve_distinct_answers` gives the slots of redundant copies to the
best candidates of bodies that are not among them, then to whole bundles, and the rest back to
the redundant copies in the order of the ranking.
-/
import EideticEngine.AskBundles

namespace Ask

open RustText (trim strCmp)
open StableSort (sortBy)
open BestPerKey (IsFirst)
open BoundedInsert (StrictlySorted)
open Std (ExtTreeMap)

variable {F : Type} [AskF32 F]

/-! ## Retained and redundant slots -/

/-- Every slot is retained or redundant. -/
theorem splitSlot_perm (groups : ExtTreeMap String String strCmp) (limit : ℕ)
    (entries : List (RankedCandidate F)) : ∀ split : SlotSplit F,
      ((entries.foldl (splitSlot groups limit) split).retained ++
        (entries.foldl (splitSlot groups limit) split).redundant).Perm
        (split.retained ++ split.redundant ++ entries) := by
  induction entries with
  | nil => exact fun split => by rw [List.append_nil]; exact List.Perm.refl _
  | cons entry entries ih =>
    intro split
    rw [List.foldl_cons]
    refine (ih _).trans ?_
    have hs : ((splitSlot groups limit split entry).retained ++
        (splitSlot groups limit split entry).redundant).Perm
        (split.retained ++ split.redundant ++ [entry]) := by
      unfold splitSlot
      simp only
      split
      · rw [List.append_assoc]
      · split
        · rw [List.append_assoc]
        · rw [List.append_assoc, List.append_assoc]
          exact List.Perm.append_left _ List.perm_append_comm
    rw [List.append_cons _ entry entries]
    exact hs.append_right entries

/-- The two parts of the slots are in the order of the slots. -/
theorem splitSlot_sublists (groups : ExtTreeMap String String strCmp) (l : ℕ)
    (entries : List (RankedCandidate F)) :
    ∀ split : SlotSplit F, ∃ k dropped : List (RankedCandidate F),
      (entries.foldl (splitSlot groups l) split).retained = split.retained ++ k
        ∧ (entries.foldl (splitSlot groups l) split).redundant = split.redundant ++ dropped
        ∧ k.Sublist entries ∧ dropped.Sublist entries := by
  induction entries with
  | nil => exact fun split => ⟨[], [], by simp, by simp, List.Sublist.refl _, List.Sublist.refl _⟩
  | cons en entries ih =>
    intro split
    rw [List.foldl_cons]
    obtain ⟨k, dropped, hk, hd, hs, hs'⟩ := ih (splitSlot groups l split en)
    rw [hk, hd]
    unfold splitSlot
    simp only
    split
    · exact ⟨k, en :: dropped, rfl, by simp, hs.cons en, hs'.cons_cons en⟩
    · split
      · exact ⟨k, en :: dropped, rfl, by simp, hs.cons en, hs'.cons_cons en⟩
      · exact ⟨en :: k, dropped, by simp, rfl, hs.cons_cons en, hs'.cons en⟩

theorem supportLimit_pos {slots : ℕ} (hs : 2 ≤ slots) : 0 < supportLimit F slots := by
  unfold supportLimit
  cases hf : (List.range' 1 (slots - 1)).find? fun count =>
      F32.le (corroborationCap : F) (supportMultiplier count) with
  | none =>
    rw [Option.getD_none]
    omega
  | some count =>
    have hr := List.mem_of_find?_eq_some hf
    rw [List.mem_range'_1] at hr
    rw [Option.getD_some]
    omega

/-- The first slot is retained. -/
theorem head_mem_retained (groups : ExtTreeMap String String strCmp) {l : ℕ}
    (hl : 0 < l) (first : RankedCandidate F) (r : List (RankedCandidate F)) :
    first ∈ ((first :: r).foldl (splitSlot groups l) ⟨∅, [], []⟩).retained := by
  rw [List.foldl_cons]
  obtain ⟨k, -, hk, -, -, -⟩ := splitSlot_sublists groups l r (splitSlot groups l ⟨∅, [], []⟩ first)
  have hf : (splitSlot groups l ⟨∅, [], []⟩ first).retained = [first] := by
    unfold splitSlot
    simp only [ExtTreeMap.getElem?_empty, Option.getD_none]
    rw [if_neg (by simpa using hl.ne'), if_neg List.not_mem_nil]
    rfl
  rw [hk, hf]
  exact List.mem_append_left _ List.mem_cons_self

section Slots

variable {rules : AskRules} {scorer : SpanScorer F} {questionTerms : List String}
  {request : AskRequest F} {unique : ExtTreeMap String (AskCandidate F) strCmp}
  {groups : ExtTreeMap String String strCmp} {ranked slots : List (RankedCandidate F)}

/-! ## What a pass keeps -/

/-- Slots with ranked candidates in their order, none twice. -/
structure ValidSlots (rules : AskRules) (scorer : SpanScorer F) (questionTerms : List String)
    (unique : ExtTreeMap String (AskCandidate F) strCmp) (slots : List (RankedCandidate F)) :
    Prop where
  sorted : StrictlySorted RankedCandidate.cmp slots
  nodup : (slots.map RankedCandidate.memoryId).Nodup
  mem : ∀ entry ∈ slots, entry ∈ allEntries rules scorer questionTerms unique

/-- The slots after a pass: as many as before, still valid, and with the best candidate of all. -/
structure KeepsBest (rules : AskRules) (scorer : SpanScorer F) (questionTerms : List String)
    (unique : ExtTreeMap String (AskCandidate F) strCmp) (ranked slots : List (RankedCandidate F)) :
    Prop where
  valid : ValidSlots rules scorer questionTerms unique slots
  length_eq : slots.length = ranked.length
  best : ∀ first, IsOverallBest rules scorer questionTerms unique first → first ∈ ranked →
    first ∈ slots

theorem validSlots_sortBy {l : List (RankedCandidate F)}
    (hn : (l.map RankedCandidate.memoryId).Nodup)
    (hm : ∀ en ∈ l, en ∈ allEntries rules scorer questionTerms unique) :
    ValidSlots rules scorer questionTerms unique (sortBy RankedCandidate.cmp l) := by
  have hp : (sortBy RankedCandidate.cmp l).Perm l := List.perm_insertionSort _ _
  have hf := BestPerKey.isFirst_take_sortBy l.length (pairwise_cmp_ne hn)
  rw [← hp.length_eq, List.take_length] at hf
  exact ⟨hf.sorted, (hp.map _).nodup_iff.mpr hn, fun en he => hm en (hp.mem_iff.mp he)⟩

theorem validSlots_bestRanked (l : ℕ) (hi : (unique.values.map AskCandidate.memoryId).Nodup) :
    ValidSlots rules scorer questionTerms unique
      (bestRanked rules scorer questionTerms l unique) := by
  have hf := isFirst_bestRanked rules scorer questionTerms l hi
  refine ⟨hf.sorted, ?_, hf.mem⟩
  have hin := List.inj_on_of_nodup_map
    (nodup_eligibleEntries rules scorer questionTerms (fun _ => true) hi)
  exact hf.sorted.nodup.map_on fun a ha b hb heq => hin (hf.mem a ha) (hf.mem b hb) heq

/-- The best of all stands in front. -/
theorem head_of_isOverallBest (hv : ValidSlots rules scorer questionTerms unique slots)
    {first : RankedCandidate F} (hb : IsOverallBest rules scorer questionTerms unique first)
    (hin : first ∈ slots) : ∃ r, slots = first :: r := by
  obtain ⟨b, r, rfl⟩ := List.append_of_mem hin
  cases b with
  | nil => exact ⟨r, rfl⟩
  | cons other b =>
    have hlt := (List.pairwise_cons.mp hv.sorted).1 first (by simp)
    exact absurd (Std.OrientedCmp.gt_of_lt hlt) (hb.2 other (hv.mem other (by simp)))

/-! ## The pass over bodies -/

/-- **The slots of the pass over bodies.** -/
theorem preserveDistinctAnswers_spec (hid : (unique.values.map AskCandidate.memoryId).Nodup)
    (hv : ValidSlots rules scorer questionTerms unique ranked) {split : SlotSplit F}
    (hs : split = ranked.foldl (splitSlot groups (supportLimit F ranked.length)) ⟨∅, [], []⟩)
    {be : List (RankedCandidate F)}
    (hbes : be = (bestByKey rules scorer questionTerms (fun candidate => candidate.content)
      split.redundant.length
      (standsAlone request (ranked.map fun en => en.candidate.content))
      unique.values).best) :
    ∃ slots, preserveDistinctAnswers rules scorer questionTerms request unique groups ranked
        = some slots
      ∧ KeepsBest rules scorer questionTerms unique ranked slots
      ∧ split.redundant.Sublist ranked
      ∧ (ranked.length < 2 ∨ split.redundant = [] → slots = ranked)
      ∧ (¬ (ranked.length < 2 ∨ split.redundant = []) → ∃ bs : List (RankedCandidate F),
        (split.retained ++ be ++ bs).length ≤ ranked.length
          ∧ slots = sortBy RankedCandidate.cmp (split.retained ++ be ++ bs ++ split.redundant.take
              (ranked.length - (split.retained ++ be ++ bs).length))) := by
  have hse : KeepsBest rules scorer questionTerms unique ranked ranked :=
    ⟨hv, rfl, fun _ _ hin => hin⟩
  have hd : split.redundant.Sublist ranked := by
    obtain ⟨-, dropped, -, hd, -, hsu⟩ :=
      splitSlot_sublists groups (supportLimit F ranked.length) ranked ⟨∅, [], []⟩
    rw [hs, hd]
    exact hsu
  by_cases hsk : ranked.length < 2 ∨ split.redundant = []
  · refine ⟨ranked, ?_, hse, hd, fun _ => rfl, fun h => absurd hsk h⟩
    unfold preserveDistinctAnswers
    by_cases hsh : ranked.length < 2
    · exact if_pos hsh
    · rw [if_neg hsh]
      simp only [← hs]
      exact if_pos (hsk.resolve_left hsh)
  obtain ⟨hlo, hre⟩ := not_or.mp hsk
  have hp : (split.retained ++ split.redundant).Perm ranked := by
    have hal := splitSlot_perm groups (supportLimit F ranked.length) ranked ⟨∅, [], []⟩
    rwa [← hs] at hal
  have hle : split.retained.length + split.redundant.length = ranked.length := by
    rw [← hp.length_eq, List.length_append]
  have hf := isFirst_bestByKey rules scorer questionTerms (fun candidate => candidate.content)
    split.redundant.length (standsAlone request (ranked.map fun en => en.candidate.content))
    hid
  rw [← hbes] at hf
  have hbestLength := hf.length_le
  have hbe : ∀ en ∈ be, en ∈ allEntries rules scorer questionTerms unique
      ∧ en.candidate.content ∉ ranked.map fun en => en.candidate.content := by
    intro en he
    obtain ⟨hal, hst⟩ := mem_eligibleEntries.mp (List.mem_of_mem_filter (hf.mem en he))
    simp only [standsAlone, Bool.and_eq_true, decide_eq_true_eq] at hst
    exact ⟨hal, hst.1.1.1⟩
  obtain ⟨bs, hbundles, hbundlesLength, hbun, hbu⟩ :=
    @corroboratedAnswers_spec F _ rules scorer questionTerms request groups
      (ranked.length - (split.retained ++ be).length) unique
      ((ranked.map fun en => en.candidate.content)
        ++ be.map fun en => en.candidate.content) hid (supportLimit F ranked.length)
  have hr : (split.retained ++ be).length ≤ ranked.length := by
    rw [List.length_append]
    omega
  have hfi : (split.retained ++ be ++ bs).length ≤ ranked.length := by
    rw [List.length_append]
    omega
  set s := ranked.length - (split.retained ++ be ++ bs).length with hspare
  set l := split.retained ++ be ++ bs ++ split.redundant.take s with hl
  have hlL : l.length = ranked.length := by
    rw [hl, List.length_append, List.length_take, Nat.min_eq_left]
    · omega
    · simp only [List.length_append] at hspare hr ⊢
      omega
  have hi : ∀ en ∈ split.retained ++ split.redundant, en ∈ ranked := fun en he => hp.mem_iff.mp he
  have hlM : ∀ en ∈ l, en ∈ allEntries rules scorer questionTerms unique := by
    intro en he
    simp only [hl, List.mem_append] at he
    rcases he with ((hin | hin) | hin) | hin
    · exact hv.mem en (hi en (List.mem_append_left _ hin))
    · exact (hbe en hin).1
    · exact (hbu en hin).1
    · exact hv.mem en (hi en (List.mem_append_right _ (List.mem_of_mem_take hin)))
  have hinj := List.inj_on_of_nodup_map
    (nodup_eligibleEntries rules scorer questionTerms (fun _ => true) hid)
  have hlN : (l.map RankedCandidate.memoryId).Nodup := by
    refine List.Nodup.map_on (fun a ha b hb heq => hinj (hlM a ha) (hlM b hb) heq) ?_
    -- the four parts differ in their bodies, or are apart in the ranking
    have hsl : (split.retained ++ split.redundant.take s).Nodup :=
      (hp.nodup_iff.mpr hv.sorted.nodup).sublist
        ((List.Sublist.refl _).append (List.take_sublist _ _))
    have hn : (be ++ bs).Nodup := by
      refine List.nodup_append.mpr ⟨hf.sorted.nodup, hbun.of_map _, ?_⟩
      rintro en hin _ h' rfl
      exact (hbu en h').2 (List.mem_append_right _ (List.mem_map_of_mem hin))
    have hap : (split.retained ++ split.redundant.take s ++ (be ++ bs)).Nodup := by
      refine List.nodup_append.mpr ⟨hsl, hn, ?_⟩
      rintro en hin _ h' rfl
      have hslo : en ∈ ranked := by
        refine hi en ?_
        rcases List.mem_append.mp hin with hin | hin
        · exact List.mem_append_left _ hin
        · exact List.mem_append_right _ (List.mem_of_mem_take hin)
      have hbo : en.candidate.content ∈ ranked.map fun en => en.candidate.content :=
        List.mem_map_of_mem hslo
      rcases List.mem_append.mp h' with h' | h'
      · exact (hbe en h').2 hbo
      · exact (hbu en h').2 (List.mem_append_left _ hbo)
    refine (List.Perm.nodup_iff ?_).mpr hap
    rw [hl, List.append_assoc, List.append_assoc, List.append_assoc]
    refine List.Perm.append_left _ ?_
    rw [← List.append_assoc]
    exact List.perm_append_comm
  refine ⟨sortBy RankedCandidate.cmp l, ?_, ⟨validSlots_sortBy hlN hlM, ?_, ?_⟩,
    hd, fun h => absurd h hsk, fun _ => ⟨bs, hfi, rfl⟩⟩
  · unfold preserveDistinctAnswers
    rw [if_neg hlo]
    simp only [← hs]
    rw [if_neg hre, ← hbes, checkedSub, if_pos hr, Option.bind_eq_bind,
      Option.bind_some, hbundles, Option.bind_eq_bind, Option.bind_some, checkedSub,
      if_pos hfi, Option.bind_some]
    refine if_pos ?_
    exact hlL.symm.trans (List.length_insertionSort _ _).symm
  · exact (List.length_insertionSort _ _).trans hlL
  · intro first ho hin
    obtain ⟨r, hres⟩ := head_of_isOverallBest hv ho hin
    have hh : first ∈ split.retained := by
      rw [hs, hres]
      refine head_mem_retained groups ?_ first r
      rw [← hres]
      exact supportLimit_pos (not_lt.mp hlo)
    have hp : (sortBy RankedCandidate.cmp l).Perm l := List.perm_insertionSort _ _
    refine hp.mem_iff.mpr ?_
    simp only [hl, List.mem_append]
    exact .inl (.inl (.inl hh))

/-- The slots of the lineage pass are valid, and keep the best candidate where scores are in
order. -/
theorem lineageSlots_valid (hi : (unique.values.map AskCandidate.memoryId).Nodup) (m : F) {l : ℕ}
    {b : List (RankedCandidate F)}
    (hr : ranked = bestRanked rules scorer questionTerms l unique)
    (hb : b = (bestByKey rules scorer questionTerms
      (fun candidate => supportKey candidate.memoryId groups) ranked.length
      (fun en => !F32.lt en.score m) unique.values).best) :
    ∃ slots, lineageSlots rules scorer questionTerms groups m unique ranked = some slots
      ∧ slots = sortBy RankedCandidate.cmp (b
        ++ (ranked.filter fun en => en.memoryId ∉ b.map RankedCandidate.memoryId).take
          (ranked.length - b.length))
      ∧ ValidSlots rules scorer questionTerms unique slots
      ∧ (OrdersScores F → KeepsBest rules scorer questionTerms unique ranked slots) := by
  obtain ⟨slots, hsl, heq, hl, hn, hm, hf⟩ := lineageSlots_spec hi groups m hr hb
  have hv : ValidSlots rules scorer questionTerms unique slots := by
    have hp := List.perm_insertionSort
      (fun left right : RankedCandidate F => left.cmp right ≠ .gt) (b
        ++ (ranked.filter fun en => en.memoryId ∉ b.map RankedCandidate.memoryId).take
          (ranked.length - b.length))
    rw [← StableSort.sortBy, ← heq] at hp
    have hs := validSlots_sortBy ((hp.map _).nodup_iff.mp hn) fun en he => hm en (hp.mem_iff.mpr he)
    rwa [← heq] at hs
  exact ⟨slots, hsl, heq, hv, fun hF => ⟨hv, hl, hf hF⟩⟩

/-- The slots of both passes are valid, and keep the best candidate where scores are in order. -/
theorem preserveIndependentSupport_valid (hi : (unique.values.map AskCandidate.memoryId).Nodup)
    (request : AskRequest F) {l : ℕ}
    (hr : ranked = bestRanked rules scorer questionTerms l unique) :
    ∃ slots, preserveIndependentSupport rules scorer questionTerms request unique ranked
        = some slots
      ∧ ValidSlots rules scorer questionTerms unique slots
      ∧ (OrdersScores F → KeepsBest rules scorer questionTerms unique ranked slots) := by
  have hv : ValidSlots rules scorer questionTerms unique ranked := hr ▸ validSlots_bestRanked l hi
  rw [preserveIndependentSupport_eq]
  split
  · exact ⟨ranked, rfl, hv, fun _ => ⟨hv, rfl, fun _ _ hin => hin⟩⟩
  · simp only
    have hb : ∀ (groups : ExtTreeMap String String strCmp) (slots : List (RankedCandidate F)),
        ValidSlots rules scorer questionTerms unique slots →
        ∃ k, preserveDistinctAnswers rules scorer questionTerms request unique groups slots
            = some k ∧ KeepsBest rules scorer questionTerms unique slots k := by
      intro groups slots hs
      obtain ⟨k, hke, hk, -⟩ := preserveDistinctAnswers_spec hi hs rfl rfl
      exact ⟨k, hke, hk⟩
    split
    · obtain ⟨slots, hs, hk⟩ := hb _ ranked hv
      exact ⟨slots, hs, hk.valid, fun _ => hk⟩
    · obtain ⟨li, hl, -, hval, hke⟩ := lineageSlots_valid hi
        (F32.div request.minConfidence corroborationCap) hr rfl
      obtain ⟨slots, hs, hk⟩ := hb
        (candidateSupportGroups rules unique.values request.nativeSources) li hval
      rw [hl, Option.bind_some]
      refine ⟨slots, hs, hk.valid, fun hF => ⟨hk.valid, hk.length_eq.trans (hke hF).length_eq, ?_⟩⟩
      exact fun first hbe hin => hk.best first hbe ((hke hF).best first hbe hin)

end Slots

/-! ## Admission returns -/

/-- How admission ends: with an error on invalid candidates, else with some of them. -/
theorem selectCandidatesWithScorer_spec (rules : AskRules) (scorer : SpanScorer F)
    (request : AskRequest F) (questionTerms : List String) (cs : List (AskCandidate F))
    (l : ℕ) :
    (¬ ValidCandidates cs ∧ ∃ e, selectCandidatesWithScorer rules scorer request
        questionTerms cs l = some (.error e)) ∨
    (ValidCandidates cs ∧ ∃ s, selectCandidatesWithScorer rules scorer request
        questionTerms cs l = some (.ok s) ∧
      ∀ candidate ∈ s, candidate ∈ cs) := by
  have hh := holds_registerAll cs
  have hv := validCandidates_iff cs
  unfold selectCandidatesWithScorer
  generalize registerAll cs = r at hh hv ⊢
  simp only
  split
  · rename_i hi
    exact Or.inl ⟨fun h => by simp [hi] at hv; exact hv h, _, rfl⟩
  · rename_i hc
    split
    · rename_i ha
      exact Or.inl ⟨fun h => by simp [ha] at hv; exact hv h, _, rfl⟩
    · rename_i hs
      refine Or.inr ⟨hv.mpr ⟨by simpa using hc, by simpa using hs⟩, ?_⟩
      split
      · exact ⟨[], rfl, fun _ h => absurd h List.not_mem_nil⟩
      · have hk : ∀ (id : String) (c : AskCandidate F), r.unique[id]? = some c →
            c.memoryId = id := by
          intro id c hg
          rw [hh.unique] at hg
          exact (firstWith_spec hg).2
        obtain ⟨ra, hra, hvalid, -⟩ := @preserveIndependentSupport_valid F _ rules scorer
          questionTerms r.unique _ (nodup_memoryIds hk) request l rfl
        have hm : ∀ en ∈ ra, en.candidate ∈ r.unique.values := by
          intro en he
          obtain ⟨c, hc, rfl⟩ := List.mem_map.mp (List.mem_of_mem_filter (hvalid.mem en he))
          exact hc
        rw [hra, Option.bind_eq_bind, Option.bind_some]
        refine ⟨_, rfl, ?_⟩
        intro candidate hca
        obtain ⟨en, he, rfl⟩ := List.mem_map.mp hca
        have hr : en.candidate ∈ r.unique.values := by
          have hl := @mem_preserveLinkedOpposition F _ rules scorer request questionTerms
            r.unique ra hm
          split at he
          · exact hl en he
          · exact mem_preserveInferredOpposition hl en he
        obtain ⟨id, hg⟩ := ExtTreeMap.mem_values_iff.mp hr
        rw [hh.unique] at hg
        exact (firstWith_spec hg).1

/-! ## A sample -/

/-- The character classes on ASCII texts, and claims that neither conflict nor differ. -/
def asciiRules : AskRules where
  isUppercase := Char.isUpper
  isAlphabetic := Char.isAlpha
  isAlphanumeric := Char.isAlphanum
  isNumeric := Char.isDigit
  numericConflicts _ _ _ _ := false
  settingsCompatible _ _ := true
  uuids := Provenance.hyphenated

def formatQuestion : AskRequest ℚ :=
  ⟨"What runs before a release?", 55 / 100, 3, [], ∅⟩

def formatCandidate (memoryId content : String) : AskCandidate ℚ :=
  ⟨memoryId, content, 9 / 10, "human_explicit", some "manual://cli", "procedural", "rule", none⟩

theorem ordersScores_rat : OrdersScores ℚ where
  zero_isNan := rfl
  max_isNan _ _ _ := rfl
  lt_of_totalCmp a b m _ hle hlt := by
    have hab : a ≤ b := compare_le_iff_le.mp hle
    exact decide_eq_true (hab.trans_lt (of_decide_eq_true hlt))

end Ask
