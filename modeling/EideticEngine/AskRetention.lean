/-
# What the bounded passes retain

The passes of `src/core/ask_candidate_diversity.rs` and `src/core/ask_candidate_saturation.rs`
keep the best candidate of each lineage, or of each body, in one pass with eviction.  What they
retain is what sorting the best of all lineages, or bodies, would give; the slots keep their
number, hold the best candidate of all and no candidate twice, and are filled up from the
ranking in its order.
-/
import EideticEngine.AskCandidates
import EideticEngine.BestPerKey

namespace Ask

open RustText (trim strCmp)
open StableSort (sortBy)
open BestPerKey (IsFirst IsBest)
open Std (ExtTreeMap)

variable {F : Type} [AskF32 F]

/-! ## The order of the ranking -/

instance : Std.TransCmp (RankedCandidate.cmp : RankedCandidate F → RankedCandidate F → Ordering) :=
  have : Std.TransCmp fun left right : RankedCandidate F =>
      F32.totalCmp right.score left.score :=
    @ComparisonSort.transCmp_on _ _ (fun a b : F => F32.totalCmp b a) _ RankedCandidate.score
  have : Std.TransCmp fun left right : RankedCandidate F =>
      strCmp left.memoryId right.memoryId :=
    ComparisonSort.transCmp_on RankedCandidate.memoryId
  inferInstanceAs (Std.TransCmp
    (compareLex (fun left right : RankedCandidate F => F32.totalCmp right.score left.score)
      fun left right => strCmp left.memoryId right.memoryId))

theorem memoryId_eq_of_cmp {left right : RankedCandidate F} (h : left.cmp right = .eq) :
    left.memoryId = right.memoryId := by
  unfold RankedCandidate.cmp at h
  exact Std.LawfulEqCmp.eq_of_compare (Ordering.then_eq_eq.mp h).2

/-- Entries with distinct identities do not compare equal. -/
theorem pairwise_cmp_ne {entries : List (RankedCandidate F)}
    (hn : (entries.map RankedCandidate.memoryId).Nodup) :
    entries.Pairwise fun left right => left.cmp right ≠ .eq :=
  (List.pairwise_map.mp hn).imp fun hne heq => hne (memoryId_eq_of_cmp heq)

section Retention

variable (rules : AskRules) (scorer : SpanScorer F) (questionTerms : List String)

/-! ## One pass with eviction -/

/-- The ranked candidates that are not blank and pass a test. -/
def eligibleEntries (eligible : RankedCandidate F → Bool) (candidates : List (AskCandidate F)) :
    List (RankedCandidate F) :=
  (candidates.map (rankCandidate rules scorer questionTerms)).filter fun entry =>
    trim entry.candidate.content ≠ "" ∧ eligible entry

theorem eligibleEntries_concat (eligible : RankedCandidate F → Bool)
    (cs : List (AskCandidate F)) (candidate : AskCandidate F) :
    eligibleEntries rules scorer questionTerms eligible (cs ++ [candidate])
      = eligibleEntries rules scorer questionTerms eligible cs
        ++ if trim candidate.content ≠ ""
            ∧ eligible (rankCandidate rules scorer questionTerms candidate) = true
          then [rankCandidate rules scorer questionTerms candidate] else [] := by
  unfold eligibleEntries
  rw [List.map_append, List.filter_append, List.map_cons, List.map_nil, List.filter_singleton]
  exact congrArg _ (Bool.cond_decide _ _ _)

/-- The entries that no other of their kind precedes. -/
def bestOfKinds (keyOf : AskCandidate F → String) (entries : List (RankedCandidate F)) :
    List (RankedCandidate F) :=
  entries.filter fun entry => entries.all fun other =>
    keyOf other.candidate ≠ keyOf entry.candidate || entry.cmp other ≠ .gt

theorem mem_bestOfKinds {keyOf : AskCandidate F → String} {entries : List (RankedCandidate F)}
    {en : RankedCandidate F} :
    en ∈ bestOfKinds keyOf entries
      ↔ IsBest RankedCandidate.cmp (fun en => keyOf en.candidate) entries en := by
  rw [bestOfKinds, List.mem_filter, List.all_eq_true, IsBest]
  refine and_congr_right fun _ => forall₂_congr fun other _ => ?_
  rw [Bool.or_eq_true, decide_eq_true_eq, decide_eq_true_eq, ← imp_iff_not_or]

theorem offer_eq (keyOf : AskCandidate F → String) (l : ℕ) (f : Frontier F)
    (en : RankedCandidate F) :
    ((f.offer keyOf l en).representatives, (f.offer keyOf l en).best)
      = BestPerKey.offer RankedCandidate.cmp (fun en => keyOf en.candidate) l
          (f.representatives, f.best) en := by
  have ha : ∀ f : Frontier F, ((f.admitEntry keyOf l en).representatives,
          (f.admitEntry keyOf l en).best)
        = BestPerKey.admitNew RankedCandidate.cmp (fun en => keyOf en.candidate) l
            f.representatives f.best en := by
    intro f
    have hi : BestPerKey.insertNew RankedCandidate.cmp en f.best = en.insertInto f.best := rfl
    unfold Frontier.admitEntry BestPerKey.admitNew
    simp only [hi]
    by_cases ho : l < (en.insertInto f.best).length
    · simp only [if_pos ho]
      cases hl : (en.insertInto f.best).getLast? with
      | none => rfl
      | some w => rfl
    · simp only [if_neg ho]
  unfold Frontier.offer BestPerKey.offer
  cases hg : f.representatives[keyOf en.candidate]? with
  | none => exact ha f
  | some ps =>
    simp only
    by_cases hge : en.cmp ps ≠ .lt
    · simp only [if_pos hge]
    · simp only [if_neg hge]
      exact ha _

theorem nodup_eligibleEntries (eligible : RankedCandidate F → Bool)
    {cs : List (AskCandidate F)} (hi : (cs.map AskCandidate.memoryId).Nodup) :
    ((eligibleEntries rules scorer questionTerms eligible cs).map
      RankedCandidate.memoryId).Nodup := by
  refine (List.filter_sublist.map RankedCandidate.memoryId).nodup ?_
  rw [List.map_map]
  exact hi

/-- The pass offers the eligible entries one by one. -/
theorem bestByKey_eq_foldl (keyOf : AskCandidate F → String) (l : ℕ)
    (eligible : RankedCandidate F → Bool) (cs : List (AskCandidate F)) :
    ((bestByKey rules scorer questionTerms keyOf l eligible cs).representatives,
        (bestByKey rules scorer questionTerms keyOf l eligible cs).best)
      = (eligibleEntries rules scorer questionTerms eligible cs).foldl
          (BestPerKey.offer RankedCandidate.cmp (fun en => keyOf en.candidate) l)
          (∅, []) := by
  unfold bestByKey
  induction cs using List.reverseRecOn with
  | nil => rfl
  | append_singleton cs candidate ih =>
    rw [List.foldl_append, eligibleEntries_concat, List.foldl_append, ← ih]
    simp only [List.foldl_cons, List.foldl_nil]
    split
    · exact offer_eq keyOf l _ _
    · rfl

theorem isFirst_bestByKey (keyOf : AskCandidate F → String) (l : ℕ)
    (eligible : RankedCandidate F → Bool) {cs : List (AskCandidate F)}
    (hi : (cs.map AskCandidate.memoryId).Nodup) :
    IsFirst RankedCandidate.cmp l
      (· ∈ bestOfKinds keyOf (eligibleEntries rules scorer questionTerms eligible cs))
      (bestByKey rules scorer questionTerms keyOf l eligible cs).best := by
  have hne := pairwise_cmp_ne (nodup_eligibleEntries rules scorer questionTerms eligible hi)
  have hh := @BestPerKey.holds_foldl_offer _ _ _ strCmp _ _ _ _
    (fun en : RankedCandidate F => keyOf en.candidate) l _ hne
  rw [← bestByKey_eq_foldl] at hh
  exact hh.first.congr fun en => mem_bestOfKinds.symm

omit [AskF32 F] in
theorem mem_dropLast_or_eq {l : List (RankedCandidate F)} {w en : RankedCandidate F}
    (hw : l.getLast? = some w) (hm : en ∈ l) : en ∈ l.dropLast ∨ en = w := by
  rw [← List.dropLast_append_getLast? w hw, List.mem_append, List.mem_singleton] at hm
  exact hm

/-- The heap holds the first ones of what was pushed. -/
theorem isFirst_pushRanked {l : ℕ} {S : RankedCandidate F → Prop}
    {r : List (RankedCandidate F)} {en : RankedCandidate F}
    (h : IsFirst RankedCandidate.cmp l S r)
    (hne : ∀ other, S other → other.cmp en ≠ .eq) :
    IsFirst RankedCandidate.cmp l (fun other => S other ∨ other = en) (pushRanked l r en) := by
  have hli := h.length_le
  unfold pushRanked
  split
  · rename_i hr
    refine ⟨BestPerKey.strictlySorted_orderedInsert h.sorted fun b hb => hne b (h.mem b hb),
      fun a ha => ?_, ?_, fun a ha ho => ?_⟩
    · rcases (List.mem_orderedInsert _).mp ha with rfl | ha
      · exact .inr rfl
      · exact .inl (h.mem a ha)
    · rw [RankedCandidate.place, List.orderedInsert_length]
      omega
    · rw [RankedCandidate.place, List.mem_orderedInsert, not_or] at ho
      exact absurd (h.rest a (ha.resolve_right ho.1) ho.2).1 hr.ne
  · rename_i hf
    have hl : r.length = l := by omega
    cases hw : r.getLast? with
    | none =>
      have hn := List.getLast?_eq_none_iff.mp hw
      refine ⟨h.sorted, fun a ha => .inl (h.mem a ha), h.length_le, fun a _ _ => ?_⟩
      exact ⟨hl, fun b hb => by rw [hn] at hb; cases hb⟩
    | some w =>
      have hm : w ∈ r := List.mem_of_getLast? hw
      have hsp := List.dropLast_append_getLast? w hw
      have hbe : ∀ b ∈ r.dropLast, b.cmp w = .lt := by
        have hs := h.sorted
        rw [← hsp] at hs
        exact fun b hb => (List.pairwise_append.mp hs).2.2 b hb w List.mem_cons_self
      simp only
      split
      · rename_i hlt
        refine ⟨BestPerKey.strictlySorted_orderedInsert (h.sorted.sublist (List.dropLast_sublist _))
            fun b hb => hne b (h.mem b (List.mem_of_mem_dropLast hb)),
          fun a ha => ?_, ?_, fun a ha ho => ?_⟩
        · rcases (List.mem_orderedInsert _).mp ha with rfl | ha
          · exact .inr rfl
          · exact .inl (h.mem a (List.mem_of_mem_dropLast ha))
        · rw [RankedCandidate.place, List.orderedInsert_length, List.length_dropLast]
          have := List.length_pos_of_mem hm
          omega
        · rw [RankedCandidate.place, List.mem_orderedInsert, not_or] at ho
          refine ⟨?_, fun b hb => ?_⟩
          · rw [RankedCandidate.place, List.orderedInsert_length, List.length_dropLast]
            have := List.length_pos_of_mem hm
            omega
          · -- what is left out is the worst one or comes after it
            have haf : a = w ∨ w.cmp a = .lt := by
              by_cases hai : a ∈ r
              · exact .inl ((mem_dropLast_or_eq hw hai).resolve_left ho.2)
              · exact .inr ((h.rest a (ha.resolve_right ho.1) hai).2 w hm)
            have hbw : b.cmp w = .lt := by
              rcases (List.mem_orderedInsert _).mp hb with rfl | hb
              · exact hlt
              · exact hbe b hb
            rcases haf with rfl | haf
            · exact hbw
            · exact Std.TransCmp.lt_trans hbw haf
      · rename_i hge
        refine ⟨h.sorted, fun a ha => .inl (h.mem a ha), h.length_le, fun a ha ho => ?_⟩
        rcases ha with ha | rfl
        · exact h.rest a ha ho
        · refine ⟨hl, fun b hb => ?_⟩
          have hlt : w.cmp a = .lt := BestPerKey.lt_of_ne
            (fun hgt => hge (Std.OrientedCmp.gt_iff_lt.mp hgt)) (hne w (h.mem w hm))
          rcases mem_dropLast_or_eq hw hb with hb | rfl
          · exact Std.TransCmp.lt_trans (hbe b hb) hlt
          · exact hlt

/-- The ranked candidates that are not blank. -/
def allEntries (unique : ExtTreeMap String (AskCandidate F) strCmp) : List (RankedCandidate F) :=
  eligibleEntries rules scorer questionTerms (fun _ => true) unique.values

/-- **The ranking** holds the first ones of all candidates that are not blank. -/
theorem isFirst_bestRanked (l : ℕ) {unique : ExtTreeMap String (AskCandidate F) strCmp}
    (hi : (unique.values.map AskCandidate.memoryId).Nodup) :
    IsFirst RankedCandidate.cmp l (· ∈ allEntries rules scorer questionTerms unique)
      (bestRanked rules scorer questionTerms l unique) := by
  unfold bestRanked allEntries
  revert hi
  generalize unique.values = cs
  intro hi
  induction cs using List.reverseRecOn with
  | nil =>
    exact ⟨List.Pairwise.nil, fun a ha => absurd ha List.not_mem_nil, Nat.zero_le _,
      fun a ha => absurd ha List.not_mem_nil⟩
  | append_singleton cs candidate ih =>
    have hi' := hi
    rw [List.map_append, List.nodup_append] at hi'
    rw [List.foldl_append, List.foldl_cons, List.foldl_nil, eligibleEntries_concat]
    by_cases hb : trim candidate.content = ""
    · rw [if_pos hb, if_neg fun hp => hp.1 hb, List.append_nil]
      exact ih hi'.1
    · rw [if_neg hb, if_pos ⟨hb, rfl⟩]
      refine (isFirst_pushRanked (ih hi'.1) fun other ho heq => ?_).congr fun other => ?_
      · obtain ⟨c, hc, rfl⟩ := List.mem_map.mp (List.mem_of_mem_filter ho)
        exact hi'.2.2 _ (List.mem_map_of_mem hc) _ (List.mem_singleton.mpr rfl)
          (memoryId_eq_of_cmp heq)
      · rw [List.mem_append, List.mem_singleton]

/-! ## The slots of the lineage pass -/

/-- The slots after the best of each lineage took theirs. -/
def lineageSlots (groups : ExtTreeMap String String strCmp) (minimum : F)
    (unique : ExtTreeMap String (AskCandidate F) strCmp) (ranked : List (RankedCandidate F)) :
    Option (List (RankedCandidate F)) :=
  let best := (bestByKey rules scorer questionTerms
    (fun candidate => supportKey candidate.memoryId groups) ranked.length
    (fun entry => !F32.lt entry.score minimum) unique.values).best
  copyFromSlice ranked (sortBy RankedCandidate.cmp
    (ranked.foldl (fillSlot ranked.length) (best, best.map RankedCandidate.memoryId)).1)

theorem preserveIndependentSupport_eq (re : AskRequest F)
    (unique : ExtTreeMap String (AskCandidate F) strCmp) (r : List (RankedCandidate F)) :
    preserveIndependentSupport rules scorer questionTerms re unique r
      = if r.length < 2 ∨ unique.size ≤ r.length then some r
        else
          let gs := candidateSupportGroups rules unique.values re.nativeSources
          if gs.isEmpty then
            preserveDistinctAnswers rules scorer questionTerms re unique gs r
          else
            (lineageSlots rules scorer questionTerms gs
              (F32.div re.minConfidence corroborationCap) unique r).bind
              (preserveDistinctAnswers rules scorer questionTerms re unique gs) :=
  rfl

omit [AskF32 F] in
/-- Filling takes the entries that are not there yet, in order, while there are slots. -/
theorem foldl_fillSlot {slots : ℕ} (entries : List (RankedCandidate F)) :
    ∀ (s : List (RankedCandidate F)) (ids : List String),
      (entries.map RankedCandidate.memoryId).Nodup → s.length ≤ slots →
      (entries.foldl (fillSlot slots) (s, ids)).1
        = s ++ (entries.filter fun en => en.memoryId ∉ ids).take (slots - s.length) := by
  induction entries with
  | nil => intro s ids _ _; simp
  | cons en entries ih =>
    intro s ids hn hle
    obtain ⟨hen, he⟩ := List.nodup_cons.mp hn
    rw [List.foldl_cons]
    by_cases hf : s.length = slots
    · have hs : fillSlot slots (s, ids) en = (s, ids) := if_pos hf
      rw [hs, ih s ids he hle, hf]
      simp
    · by_cases hin : en.memoryId ∈ ids
      · have hs : fillSlot slots (s, ids) en = (s, ids) := (if_neg hf).trans (if_pos hin)
        rw [hs, ih s ids he hle, List.filter_cons_of_neg (by simpa using hin)]
      · have hs : fillSlot slots (s, ids) en
            = (s ++ [en], en.memoryId :: ids) := (if_neg hf).trans (if_neg hin)
        obtain ⟨r, hr⟩ : ∃ r, slots - s.length = r + 1 := ⟨slots - s.length - 1, by omega⟩
        -- no later entry is of the memory that was just taken
        have hl : entries.filter (fun other => other.memoryId ∉ en.memoryId :: ids)
            = entries.filter fun other => other.memoryId ∉ ids := by
          refine List.filter_congr fun other ho => ?_
          have hne : other.memoryId ≠ en.memoryId := by
            intro heq
            exact hen (heq ▸ List.mem_map_of_mem ho)
          simp [hne]
        have hlen : (s ++ [en]).length = s.length + 1 := by simp
        rw [hs, ih _ _ he (by omega), List.filter_cons_of_pos (by simpa using hin),
          hr, List.take_succ_cons, hl, List.append_assoc, List.singleton_append]
        congr 3
        omega

/-- The best candidate of all. -/
def IsOverallBest (unique : ExtTreeMap String (AskCandidate F) strCmp)
    (entry : RankedCandidate F) : Prop :=
  entry ∈ allEntries rules scorer questionTerms unique
    ∧ ∀ other ∈ allEntries rules scorer questionTerms unique, entry.cmp other ≠ .gt

end Retention

/-- What the floor relies on: scores are numbers, and a score below another that is below the
floor is below the floor. -/
structure OrdersScores (F : Type) [F32 F] : Prop where
  zero_isNan : F32.isNan (F32.lit 0 : F) = false
  max_isNan : ∀ a b : F, F32.isNan a = false → F32.isNan (F32.max a b) = false
  lt_of_totalCmp : ∀ a b m : F, F32.isNan a = false → F32.totalCmp a b ≠ .gt →
    F32.lt b m = true → F32.lt a m = true

section Slots

variable {rules : AskRules} {scorer : SpanScorer F} {questionTerms : List String}
  {unique : ExtTreeMap String (AskCandidate F) strCmp}

theorem isNan_bestSpanScore (hF : OrdersScores F) (candidate : AskCandidate F) :
    F32.isNan (bestSpanScore rules scorer questionTerms candidate) = false := by
  unfold bestSpanScore
  exact List.foldlRecOn (motive := fun b : F => F32.isNan b = false) _ _ hF.zero_isNan
    fun b hb _ _ => hF.max_isNan b _ hb

theorem mem_eligibleEntries {eligible : RankedCandidate F → Bool} {en : RankedCandidate F} :
    en ∈ eligibleEntries rules scorer questionTerms eligible unique.values
      ↔ en ∈ allEntries rules scorer questionTerms unique ∧ eligible en = true := by
  unfold allEntries eligibleEntries
  simp only [List.mem_filter, decide_eq_true_eq, and_true, and_assoc]

/-- A floor that no better score falls below. -/
theorem eligible_of_isOverallBest (hF : OrdersScores F) {m : F}
    {b other : RankedCandidate F} (hbe : IsOverallBest rules scorer questionTerms unique b)
    (ho : other ∈ allEntries rules scorer questionTerms unique)
    (he : F32.lt other.score m = false) : F32.lt b.score m = false := by
  by_contra hlt
  rw [Bool.not_eq_false] at hlt
  obtain ⟨candidate, -, rfl⟩ := List.mem_map.mp (List.mem_of_mem_filter ho)
  have hle : F32.totalCmp (rankCandidate rules scorer questionTerms candidate).score b.score
      ≠ .gt := by
    intro hgt
    refine hbe.2 _ ho ?_
    unfold RankedCandidate.cmp
    rw [hgt]
    rfl
  have hb := hF.lt_of_totalCmp _ _ m (isNan_bestSpanScore hF candidate) hle hlt
  exact Bool.noConfusion (hb.symm.trans he)

/-- Where there is a slot, the best of all is among the first ones. -/
theorem mem_of_isOverallBest {l : ℕ} {S : RankedCandidate F → Prop}
    {first : List (RankedCandidate F)} {b : RankedCandidate F}
    (h : IsFirst RankedCandidate.cmp l S first) (hli : 0 < l)
    (hS : ∀ other, S other → other ∈ allEntries rules scorer questionTerms unique)
    (hbe : IsOverallBest rules scorer questionTerms unique b) (hm : S b) :
    b ∈ first := by
  by_contra hout
  obtain ⟨hl, hb⟩ := h.rest b hm hout
  obtain ⟨other, ho⟩ := List.exists_mem_of_length_pos (hl ▸ hli)
  have hgt := Std.OrientedCmp.gt_of_lt (hb other ho)
  exact hbe.2 other (hS other (h.mem other ho)) hgt

omit [AskF32 F] in
/-- A ranking without a memory twice has entries enough to fill up the best of each kind. -/
theorem slots_le_of_nodup {ranked : List (RankedCandidate F)}
    (hn : (ranked.map RankedCandidate.memoryId).Nodup) (ids : List String) :
    ranked.length ≤ ids.length + (ranked.filter fun entry => entry.memoryId ∉ ids).length := by
  have hin : (ranked.filter fun entry => entry.memoryId ∈ ids).length ≤ ids.length := by
    rw [← List.length_map (f := RankedCandidate.memoryId)]
    refine List.Subperm.length_le (List.subperm_of_subset ?_ ?_)
    · exact hn.sublist (List.filter_sublist.map _)
    · intro id hid
      obtain ⟨entry, he, rfl⟩ := List.mem_map.mp hid
      simpa using (List.mem_filter.mp he).2
  have hs := List.length_eq_length_filter_add
    (fun entry : RankedCandidate F => decide (entry.memoryId ∈ ids)) (l := ranked)
  simp only [← decide_not] at hs
  omega

/-- **The slots of the lineage pass.** -/
theorem lineageSlots_spec (hi : (unique.values.map AskCandidate.memoryId).Nodup)
    (gs : ExtTreeMap String String strCmp) (m : F) {l : ℕ}
    {r be : List (RankedCandidate F)}
    (hran : r = bestRanked rules scorer questionTerms l unique)
    (hbest : be = (bestByKey rules scorer questionTerms
      (fun candidate => supportKey candidate.memoryId gs) r.length
      (fun en => !F32.lt en.score m) unique.values).best) :
    ∃ slots, lineageSlots rules scorer questionTerms gs m unique r = some slots
      ∧ slots = sortBy RankedCandidate.cmp (be
        ++ (r.filter fun en => en.memoryId ∉ be.map RankedCandidate.memoryId).take
          (r.length - be.length))
      ∧ slots.length = r.length
      ∧ (slots.map RankedCandidate.memoryId).Nodup
      ∧ (∀ en ∈ slots, en ∈ allEntries rules scorer questionTerms unique)
      ∧ (OrdersScores F → ∀ first, IsOverallBest rules scorer questionTerms unique first →
        first ∈ r → first ∈ slots) := by
  set keyOf : AskCandidate F → String := fun candidate => supportKey candidate.memoryId gs
    with hkeyOf
  set eligible : RankedCandidate F → Bool := fun en => !F32.lt en.score m
    with heligible
  have hf := isFirst_bestByKey rules scorer questionTerms keyOf r.length eligible hi
  rw [← hbest] at hf
  have hra := isFirst_bestRanked rules scorer questionTerms l hi
  rw [← hran] at hra
  have hr : (r.map RankedCandidate.memoryId).Nodup := by
    have hsu : ∀ en ∈ r, en ∈ allEntries rules scorer questionTerms unique := hra.mem
    have hal := nodup_eligibleEntries rules scorer questionTerms (fun _ => true) hi
    have hinj := List.inj_on_of_nodup_map hal
    exact hra.sorted.nodup.map_on fun a ha b hb heq => hinj (hsu a ha) (hsu b hb) heq
  have hbe : (be.map RankedCandidate.memoryId).Nodup := by
    have hal := nodup_eligibleEntries rules scorer questionTerms eligible hi
    have hinj := List.inj_on_of_nodup_map hal
    refine hf.sorted.nodup.map_on fun a ha b hb heq => hinj ?_ ?_ heq
    · exact List.mem_of_mem_filter (hf.mem a ha)
    · exact List.mem_of_mem_filter (hf.mem b hb)
  have hbes : ∀ en ∈ be, en ∈ allEntries rules scorer questionTerms unique := fun en he =>
      (mem_eligibleEntries.mp (List.mem_of_mem_filter (hf.mem en he))).1
  set fill := (r.filter fun en => en.memoryId ∉ be.map RankedCandidate.memoryId).take
    (r.length - be.length) with hfill
  have hfi : ∀ en ∈ fill, en ∈ r ∧ en.memoryId ∉ be.map RankedCandidate.memoryId := by
    intro en he
    simpa using List.mem_filter.mp (List.mem_of_mem_take he)
  have hl : (be ++ fill).length = r.length := by
    have hsl := slots_le_of_nodup hr (be.map RankedCandidate.memoryId)
    have hle := hf.length_le
    rw [List.length_map] at hsl
    rw [List.length_append, hfill, List.length_take, Nat.min_eq_left (by omega)]
    omega
  have hs : (r.foldl (fillSlot r.length) (be, be.map RankedCandidate.memoryId)).1 = be ++ fill :=
    foldl_fillSlot r be _ hr hf.length_le
  have hp : (sortBy RankedCandidate.cmp (be ++ fill)).Perm (be ++ fill) :=
    List.perm_insertionSort _ _
  refine ⟨sortBy RankedCandidate.cmp (be ++ fill), ?_, rfl, ?_, ?_, ?_, ?_⟩
  · unfold lineageSlots
    simp only [← hkeyOf, ← heligible, ← hbest, hs]
    exact if_pos (by rw [hp.length_eq, hl])
  · rw [hp.length_eq, hl]
  · refine ((hp.map RankedCandidate.memoryId).nodup_iff).mpr ?_
    rw [List.map_append, List.nodup_append]
    refine ⟨hbe, ?_, ?_⟩
    · exact hr.sublist (((List.take_sublist _ _).trans List.filter_sublist).map _)
    · intro id hid id' h' heq
      obtain ⟨en, he, rfl⟩ := List.mem_map.mp h'
      exact (hfi en he).2 (heq ▸ hid)
  · intro en he
    rcases List.mem_append.mp (hp.mem_iff.mp he) with hin | hin
    · exact hbes en hin
    · exact hra.mem en (hfi en hin).1
  · intro hF first ho hin
    refine hp.mem_iff.mpr (List.mem_append.mpr ?_)
    have hpo : 0 < r.length := List.length_pos_of_mem hin
    by_cases hel : eligible first = true
    · refine .inl (mem_of_isOverallBest hf hpo (fun other hot => ?_) ho ?_)
      · exact (mem_eligibleEntries.mp (List.mem_of_mem_filter hot)).1
      · refine mem_bestOfKinds.mpr ⟨mem_eligibleEntries.mpr ⟨ho.1, hel⟩, ?_⟩
        exact fun other hot _ => ho.2 other (mem_eligibleEntries.mp hot).1
    · -- nothing reaches the floor, and the slots are the ranking
      have hn : be = [] := by
        rw [List.eq_nil_iff_forall_not_mem]
        intro other hot
        have hm := mem_eligibleEntries.mp (List.mem_of_mem_filter (hf.mem other hot))
        refine hel ?_
        have ho' : F32.lt other.score m = false := by simpa [heligible] using hm.2
        simp [heligible, eligible_of_isOverallBest hF ho hm.1 ho']
      refine .inr ?_
      rw [hfill, hn]
      simpa using hin

end Slots

end Ask
