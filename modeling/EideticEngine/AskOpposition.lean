/-
# Stored contradictions and the budget of candidates

Admission ranks whole candidates and rewrites its slots for lineages, bodies and opposition;
`explicit_conflict` of `src/core/ask.rs` then picks the best passage and the first stored link
that sets another memory against it.  Both choose the same memory and the same link: the best
candidate of all keeps its slot through every pass and its best passage is the best passage of
all, and where a link opposes it the other end has a slot, within any budget of two or more.
-/
import EideticEngine.AskReport
import EideticEngine.ListRules

namespace Ask

open RustText (trim strCmp isWhitespace asBytes)
open StableSort (sortBy)
open BestPerKey (IsFirst)
open Std (ExtTreeMap)
open Utf8Slice

/-! ## Passages of a text -/

/-- A text without blanks at its ends that consists of blanks is empty. -/
theorem eq_empty_of_blanks {t : String} (ht : trim t = t)
    (hb : ∀ c ∈ t.toList, isWhitespace c = true) : t = "" := by
  rw [← ht, trim, List.dropWhile_eq_nil_iff.mpr hb]
  rfl

/-- The first character that is not a blank, if there is one. -/
theorem exists_charAt_of_trim_ne_empty {content : String} (h : trim content ≠ "") :
    ∃ k c, CharAt content k c ∧ isWhitespace c = false := by
  by_contra hnone
  push Not at hnone
  have hb : ∀ c ∈ content.toList, isWhitespace c = true := by
    intro c hc
    obtain ⟨f, r, hch⟩ := List.append_of_mem hc
    by_contra hc'
    refine hnone (String.ofList f).utf8ByteSize c ?_ (by simpa using hc')
    refine charAt_iff.mpr ⟨String.ofList f, String.ofList r, ?_, rfl⟩
    refine String.toList_inj.mp ?_
    simp [hch]
  refine h ?_
  rw [trim, List.dropWhile_eq_nil_iff.mpr hb]
  rfl

section Passages

variable {isUppercase : Char → Bool} {content : String}

/-- **A text has a passage unless it is blank.** -/
theorem passages_eq_nil_iff : passages isUppercase content = [] ↔ trim content = "" := by
  have hs := segments_spanRanges isUppercase content
  rw [passages, List.pmap_eq_nil_iff]
  constructor
  · intro hn
    by_contra hb
    obtain ⟨k, c, hc, hsp⟩ := exists_charAt_of_trim_ne_empty hb
    have he := isCharBoundary_le hc.isCharBoundary_end
    obtain ⟨range, hr, -⟩ := hs.covered k c hc hsp (Nat.zero_le k) he
    rw [hn] at hr
    exact List.not_mem_nil hr
  · intro hb
    refine List.eq_nil_iff_forall_not_mem.mpr fun range hr => ?_
    obtain ⟨t, ht, hne, htr⟩ := hs.slices range hr
    refine hne (eq_empty_of_blanks htr fun c hc => ?_)
    obtain ⟨f, r, hco, -, -⟩ := slice_eq_some_iff.mp ht
    refine blanks_of_trim_eq_empty hb c ?_
    rw [hco]
    simp [hc]

/-- Passages at one position are the same. -/
theorem passage_eq_of_start {p p' : ByteRange × String}
    (h : p ∈ passages isUppercase content) (h' : p' ∈ passages isUppercase content)
    (hst : p.1.1 = p'.1.1) : p = p' := by
  have hs := segments_spanRanges isUppercase content
  obtain ⟨range, hra, hg⟩ := List.mem_pmap.mp h
  obtain ⟨r', hra', hg'⟩ := List.mem_pmap.mp h'
  subst hg hg'
  have hlt : ∀ r ∈ spanRanges isUppercase content, r.1 < r.2 := by
    intro r hr
    obtain ⟨t, ht, hne, -⟩ := hs.slices r hr
    have hsi := (boundaries_of_slice ht).2.2
    have hp : t.utf8ByteSize ≠ 0 := fun hz => hne (String.utf8ByteSize_eq_zero_iff.mp hz)
    omega
  have heq : range = r' := by
    by_contra hne
    have hr := hlt range hra
    have hr' := hlt r' hra'
    simp only at hst
    rcases ListRules.rel_or_of_pairwise hs.ordered hra hra' hne with ho | ho
    · omega
    · omega
  subst heq
  rfl

end Passages

variable {F : Type} [AskF32 F]

/-! ## The best passage of a candidate -/

/-- Between zero and one, in the order that ranks the scores. -/
def InUnit (x : F) : Prop :=
  F32.totalCmp (F32.lit 0) x ≠ .gt ∧ F32.totalCmp x (F32.lit 1) ≠ .gt

/-- The maximum of two numbers between zero and one is the one that ranks higher. -/
structure RanksUnit (F : Type) [F32 F] : Prop where
  zero_le_one : F32.totalCmp (F32.lit 0 : F) (F32.lit 1) ≠ .gt
  max_eq : ∀ a b : F, F32.totalCmp (F32.lit 0) a ≠ .gt → F32.totalCmp a (F32.lit 1) ≠ .gt →
    F32.totalCmp (F32.lit 0) b ≠ .gt → F32.totalCmp b (F32.lit 1) ≠ .gt →
    F32.max a b = if F32.totalCmp a b = .lt then b else a

/-- A scorer with values between zero and one. -/
def ScoresInUnit (scorer : SpanScorer F) : Prop :=
  ∀ questionTerms text confidence trustClass,
    InUnit (scorer questionTerms text confidence trustClass)

theorem totalCmp_self_ne_gt (x : F) : F32.totalCmp x x ≠ .gt := by
  have hs : F32.totalCmp x x = .eq := Std.ReflCmp.compare_self
  rw [hs]
  decide

theorem totalCmp_trans {a b c : F} (hab : F32.totalCmp a b ≠ .gt) (hbc : F32.totalCmp b c ≠ .gt) :
    F32.totalCmp a c ≠ .gt :=
  Ordering.isLE_iff_ne_gt.mp (Std.TransCmp.isLE_trans (Ordering.isLE_iff_ne_gt.mpr hab)
    (Ordering.isLE_iff_ne_gt.mpr hbc))

theorem eq_of_totalCmp {a b : F} (hab : F32.totalCmp a b ≠ .gt) (hba : F32.totalCmp b a ≠ .gt) :
    a = b :=
  Std.LawfulEqCmp.eq_of_compare (ComparisonSort.eq_of_ne_gt hab hba)

/-- The larger of two scores. -/
theorem RanksUnit.max_spec (hF : RanksUnit F) {a b : F} (ha : InUnit a) (hb : InUnit b) :
    F32.totalCmp a (F32.max a b) ≠ .gt ∧ F32.totalCmp b (F32.max a b) ≠ .gt
      ∧ (F32.max a b = a ∨ F32.max a b = b) := by
  rw [hF.max_eq a b ha.1 ha.2 hb.1 hb.2]
  split
  · rename_i hlt
    exact ⟨by rw [hlt]; decide, totalCmp_self_ne_gt b, .inr rfl⟩
  · rename_i hge
    exact ⟨totalCmp_self_ne_gt a, fun hgt => hge (Std.OrientedCmp.gt_iff_lt.mp hgt), .inl rfl⟩

/-- The largest of the scores so far. -/
theorem foldl_max_spec (hF : RanksUnit F) {ss : List F} (hs : ∀ x ∈ ss, InUnit x) :
    ∀ best : F, InUnit best → F32.totalCmp best (ss.foldl F32.max best) ≠ .gt
        ∧ (∀ x ∈ ss, F32.totalCmp x (ss.foldl F32.max best) ≠ .gt)
        ∧ (ss.foldl F32.max best = best ∨ ss.foldl F32.max best ∈ ss) := by
  induction ss with
  | nil =>
    intro best _
    exact ⟨totalCmp_self_ne_gt best, fun x hx => absurd hx List.not_mem_nil, .inl rfl⟩
  | cons x ss ih =>
    intro best hb
    have hx := hs x List.mem_cons_self
    obtain ⟨hl, hr, heq⟩ := hF.max_spec hb hx
    have hma : InUnit (F32.max best x) := by
      rcases heq with heq | heq
      · rw [heq]; exact hb
      · rw [heq]; exact hx
    obtain ⟨hle, ha, hm⟩ := ih (fun y hy => hs y (List.mem_cons_of_mem x hy)) _ hma
    rw [List.foldl_cons]
    refine ⟨totalCmp_trans hl hle, ?_, ?_⟩
    · intro y hy
      rcases List.mem_cons.mp hy with rfl | hy
      · exact totalCmp_trans hr hle
      · exact ha y hy
    · rcases hm with hm | hm
      · rw [hm]
        exact heq.imp_right fun heq => List.mem_cons.mpr (.inl heq)
      · exact .inr (List.mem_cons_of_mem x hm)

section Spans

variable {rules : AskRules} {scorer : SpanScorer F} {questionTerms : List String}

/-- The score of a candidate is the highest of its passages. -/
theorem bestSpanScore_spec (hF : RanksUnit F) (hsc : ScoresInUnit scorer)
    {candidate : AskCandidate F} (hc : trim candidate.content ≠ "") :
    (∀ s ∈ spansOf rules scorer questionTerms candidate,
      F32.totalCmp s.score (bestSpanScore rules scorer questionTerms candidate) ≠ .gt)
      ∧ ∃ s ∈ spansOf rules scorer questionTerms candidate,
        s.score = bestSpanScore rules scorer questionTerms candidate := by
  set ss := (spansOf rules scorer questionTerms candidate).map AskSpan.score with hscores
  have hb : bestSpanScore rules scorer questionTerms candidate = ss.foldl F32.max (F32.lit 0) := by
    rw [hscores, spansOf, List.map_map, List.foldl_map]
    rfl
  have hu : ∀ x ∈ ss, InUnit x := by
    intro x hx
    obtain ⟨s, hs, rfl⟩ := List.mem_map.mp hx
    rw [(spansOf_spec hs).2.2]
    exact hsc _ _ _ _
  have hz : InUnit (F32.lit 0 : F) := ⟨totalCmp_self_ne_gt _, hF.zero_le_one⟩
  obtain ⟨-, ha, hm⟩ := foldl_max_spec hF hu _ hz
  rw [hb]
  refine ⟨fun s hs => ha s.score (List.mem_map_of_mem hs), ?_⟩
  rcases hm with hm | hm
  · -- no passage is above zero, and none is below
    have hne : spansOf rules scorer questionTerms candidate ≠ [] := by
      rw [spansOf, Ne, List.map_eq_nil_iff, passages_eq_nil_iff]
      exact hc
    obtain ⟨s, hs⟩ := List.exists_mem_of_ne_nil _ hne
    refine ⟨s, hs, ?_⟩
    have hle := ha s.score (List.mem_map_of_mem hs)
    rw [hm] at hle ⊢
    exact eq_of_totalCmp hle (hu s.score (List.mem_map_of_mem hs)).1
  · obtain ⟨s, hs, heq⟩ := List.mem_map.mp hm
    exact ⟨s, hs, heq⟩

/-- The best passage of a candidate. -/
def bestSpanOf (rules : AskRules) (scorer : SpanScorer F) (questionTerms : List String)
    (candidate : AskCandidate F) : Option (AskSpan F) :=
  (sortBy AskSpan.cmp (spansOf rules scorer questionTerms candidate)).head?

/-- Passages of a candidate at one position are the same. -/
theorem span_eq_of_cmp {candidate : AskCandidate F} {s other : AskSpan F}
    (hsp : s ∈ spansOf rules scorer questionTerms candidate)
    (ho : other ∈ spansOf rules scorer questionTerms candidate)
    (heq : s.cmp other = .eq) : s = other := by
  unfold AskSpan.cmp at heq
  rw [Ordering.then_eq_eq, Ordering.then_eq_eq] at heq
  have hs := Std.LawfulEqCmp.eq_of_compare heq.2.2
  obtain ⟨p, hp, rfl⟩ := List.mem_map.mp hsp
  obtain ⟨p', hp', rfl⟩ := List.mem_map.mp ho
  rw [passage_eq_of_start hp hp' hs]

theorem bestSpanOf_eq_some_iff {candidate : AskCandidate F} {s : AskSpan F} :
    bestSpanOf rules scorer questionTerms candidate = some s
      ↔ s ∈ spansOf rules scorer questionTerms candidate
        ∧ ∀ other ∈ spansOf rules scorer questionTerms candidate, s.cmp other ≠ .gt := by
  set ss := spansOf rules scorer questionTerms candidate with hspans
  have hs : StableSort.IsStableSort AskSpan.cmp ss (sortBy AskSpan.cmp ss) :=
    StableSort.isStableSort_sortBy ss
  have hse : ∀ s : AskSpan F, s.cmp s ≠ .gt := by
    intro s
    have hse : s.cmp s = .eq := Std.ReflCmp.compare_self
    rw [hse]
    decide
  have hh : ∀ first, bestSpanOf rules scorer questionTerms candidate = some first →
      first ∈ ss ∧ ∀ other ∈ ss, first.cmp other ≠ .gt := by
    intro first hf
    obtain ⟨r, hr⟩ := List.head?_eq_some_iff.mp hf
    rw [hr] at hs
    refine ⟨hs.mem_iff.mp List.mem_cons_self, fun other ho => ?_⟩
    rcases List.mem_cons.mp (hs.mem_iff.mpr ho) with rfl | hin
    · exact hse other
    · exact (List.pairwise_cons.mp hs.sorted).1 other hin
  refine ⟨hh s, fun ⟨hm, hle⟩ => ?_⟩
  cases hf : bestSpanOf rules scorer questionTerms candidate with
  | none =>
    have hn := List.head?_eq_none_iff.mp hf
    rw [hspans, hn] at hs
    exact absurd (hs.mem_iff.mpr hm) List.not_mem_nil
  | some first =>
    obtain ⟨hfi, hfir⟩ := hh first hf
    have heq := ComparisonSort.eq_of_ne_gt (hle first hfi) (hfir s hm)
    rw [span_eq_of_cmp hm hfi heq]

theorem bestSpanOf_isSome {candidate : AskCandidate F} :
    (bestSpanOf rules scorer questionTerms candidate).isSome = true
      ↔ trim candidate.content ≠ "" := by
  rw [bestSpanOf, List.isSome_head?, Ne, Ne,
    ← @passages_eq_nil_iff rules.isUppercase, not_iff_not, ← List.length_eq_zero_iff, sortBy,
    List.length_insertionSort, spansOf, List.length_map, List.length_eq_zero_iff]

/-- The best passage has the score of the candidate. -/
theorem score_of_bestSpanOf (hF : RanksUnit F) (hs : ScoresInUnit scorer)
    {candidate : AskCandidate F} {s : AskSpan F}
    (h : bestSpanOf rules scorer questionTerms candidate = some s) :
    s.score = bestSpanScore rules scorer questionTerms candidate := by
  have hc : trim candidate.content ≠ "" :=
    (@bestSpanOf_isSome F _ rules scorer questionTerms candidate).mp (by rw [h]; rfl)
  obtain ⟨hm, hle⟩ := bestSpanOf_eq_some_iff.mp h
  obtain ⟨ha, other, ho, hsc⟩ := bestSpanScore_spec hF hs hc
  refine eq_of_totalCmp (ha s hm) ?_
  rw [← hsc]
  intro hgt
  refine hle other ho ?_
  unfold AskSpan.cmp
  rw [hgt]
  rfl

omit [AskF32 F] in
/-- What a passage repeats of its candidate. -/
theorem source_of_mem_spansOf {candidate : AskCandidate F} {s : AskSpan F}
    (h : s ∈ spansOf rules scorer questionTerms candidate) :
    s.memoryId = candidate.memoryId ∧ s.memoryConfidence = candidate.confidence
      ∧ s.trustClass = candidate.trustClass := by
  obtain ⟨p, -, rfl⟩ := List.mem_map.mp h
  exact ⟨rfl, rfl, rfl⟩

/-! ## The best passages among the ranked ones -/

omit [AskF32 F] in
/-- The best passage of a memory is its first one. -/
theorem getElem?_bestByMemory (ss : List (AskSpan F)) (id : String) :
    (bestByMemory ss)[id]? = ss.find? fun s => s.memoryId = id := by
  unfold bestByMemory
  induction ss using List.reverseRecOn with
  | nil => exact ExtTreeMap.getElem?_empty
  | append_singleton ss s ih =>
    rw [List.foldl_append, List.foldl_cons, List.foldl_nil, List.find?_append, List.find?_singleton,
      ExtTreeMap.getElem?_insertIfNew, ← ih]
    by_cases hid : s.memoryId = id
    · subst hid
      by_cases h : s.memoryId ∈ ss.foldl (fun best s =>
          best.insertIfNew s.memoryId s) (∅ : ExtTreeMap String (AskSpan F) strCmp)
      · simp [h]
      · simp [h]
    · have hc : strCmp s.memoryId id ≠ .eq := fun heq => hid (Std.LawfulEqCmp.eq_of_compare heq)
      simp [hid, hc]

/-- The candidates of a list are told apart by their identities. -/
def DistinctIds (candidates : List (AskCandidate F)) : Prop :=
  ∀ c ∈ candidates, ∀ c' ∈ candidates, c.memoryId = c'.memoryId → c = c'

/-- Among the passages of all candidates, the best one of a memory is that of its candidate. -/
theorem bestByMemory_rankedSpans {cs : List (AskCandidate F)}
    (hi : DistinctIds cs) {candidate : AskCandidate F}
    (hm : candidate ∈ cs) :
    (bestByMemory (rankedSpans rules scorer questionTerms cs))[candidate.memoryId]?
      = bestSpanOf rules scorer questionTerms candidate := by
  rw [getElem?_bestByMemory]
  have hof : ∀ s ∈ rankedSpans rules scorer questionTerms cs,
      s.memoryId = candidate.memoryId ↔ s ∈ spansOf rules scorer questionTerms candidate := by
    intro s hs
    obtain ⟨c, hc, hin⟩ := mem_rankedSpans.mp hs
    constructor
    · intro hid
      rw [hi candidate hm c hc (hid.symm.trans (source_of_mem_spansOf hin).1)]
      exact hin
    · exact fun hin => (source_of_mem_spansOf hin).1
  cases hf : (rankedSpans rules scorer questionTerms cs).find?
      fun s => s.memoryId = candidate.memoryId with
  | none =>
    have hn := List.find?_eq_none.mp hf
    symm
    rw [bestSpanOf, List.head?_eq_none_iff, ← List.length_eq_zero_iff, sortBy,
      List.length_insertionSort, List.length_eq_zero_iff, List.eq_nil_iff_forall_not_mem]
    intro s hs
    have hin := mem_rankedSpans.mpr ⟨candidate, hm, hs⟩
    exact hn s hin (decide_eq_true ((hof s hin).mpr hs))
  | some s =>
    have hin := List.mem_of_find?_eq_some hf
    have hid : s.memoryId = candidate.memoryId := by simpa using List.find?_some hf
    symm
    refine bestSpanOf_eq_some_iff.mpr ⟨(hof s hin).mp hid, fun other hot => ?_⟩
    have ho := mem_rankedSpans.mpr ⟨candidate, hm, hot⟩
    have hso : StableSort.IsStableSort AskSpan.cmp _ _ :=
      StableSort.isStableSort_sortBy (cs.flatMap (spansOf rules scorer questionTerms))
    refine ComparisonSort.find?_le (r := fun a b => a.cmp b ≠ .gt) ?_ hso.sorted hf ho
      (decide_eq_true ((hof other ho).mpr hot))
    have hse : s.cmp s = .eq := Std.ReflCmp.compare_self
    rw [hse]
    decide

/-- **The best passage of all is the best passage of the best candidate.** -/
theorem head?_rankedSpans (hF : RanksUnit F) (hs : ScoresInUnit scorer)
    {cs : List (AskCandidate F)} {best : AskCandidate F} (hm : best ∈ cs)
    (hco : trim best.content ≠ "")
    (hbe : ∀ c ∈ cs, c ≠ best → trim c.content ≠ "" →
      (rankCandidate rules scorer questionTerms best).cmp
        (rankCandidate rules scorer questionTerms c) = .lt) :
    (rankedSpans rules scorer questionTerms cs).head?
      = bestSpanOf rules scorer questionTerms best := by
  obtain ⟨anchor, han⟩ := Option.isSome_iff_exists.mp
    ((@bestSpanOf_isSome F _ rules scorer questionTerms best).mpr hco)
  obtain ⟨ha, hanc⟩ := bestSpanOf_eq_some_iff.mp han
  have hso : StableSort.IsStableSort AskSpan.cmp _ (rankedSpans rules scorer questionTerms cs) :=
    StableSort.isStableSort_sortBy (cs.flatMap (spansOf rules scorer questionTerms))
  have hin := mem_rankedSpans.mpr ⟨best, hm, ha⟩
  obtain ⟨first, r, hr⟩ := List.exists_cons_of_ne_nil (List.ne_nil_of_mem hin)
  rw [hr, List.head?_cons, han]
  obtain ⟨c, hc, hfi⟩ := mem_rankedSpans.mp (hr ▸ List.mem_cons_self)
  have hle : first.cmp anchor ≠ .gt := by
    rw [hr] at hin hso
    rcases List.mem_cons.mp hin with rfl | hin
    · have hse : anchor.cmp anchor = .eq := Std.ReflCmp.compare_self
      rw [hse]
      decide
    · exact (List.pairwise_cons.mp hso.sorted).1 anchor hin
  have hcb : c = best := by
    by_contra hne
    have hc' : trim c.content ≠ "" := by
      rw [Ne, ← @passages_eq_nil_iff rules.isUppercase]
      intro hn
      rw [spansOf, hn] at hfi
      exact List.not_mem_nil hfi
    have hlt := hbe c hc hne hc'
    have hsc := score_of_bestSpanOf hF hs han
    have hf := (bestSpanScore_spec hF hs hc').1 first hfi
    refine hle ?_
    unfold AskSpan.cmp
    rw [hsc, (source_of_mem_spansOf hfi).1, (source_of_mem_spansOf ha).1]
    rcases Ordering.then_eq_lt.mp hlt with hl | ⟨hsa, hid⟩
    · -- the candidate scores lower, and so does its passage
      have hb : F32.totalCmp first.score (bestSpanScore rules scorer questionTerms best) = .lt :=
        Std.TransCmp.lt_of_isLE_of_lt (Ordering.isLE_iff_ne_gt.mpr hf) hl
      rw [Std.OrientedCmp.gt_of_lt hb]
      rfl
    · have he : bestSpanScore rules scorer questionTerms c
          = bestSpanScore rules scorer questionTerms best := Std.LawfulEqCmp.eq_of_compare hsa
      rw [he] at hf
      have h' : strCmp c.memoryId best.memoryId = .gt := Std.OrientedCmp.gt_of_lt hid
      rw [h']
      cases hcm : F32.totalCmp (bestSpanScore rules scorer questionTerms best) first.score with
      | lt => exact absurd (Std.OrientedCmp.gt_of_lt hcm) hf
      | eq => rfl
      | gt => rfl
  subst hcb
  rw [span_eq_of_cmp hfi ha (ComparisonSort.eq_of_ne_gt hle (hanc first hfi))]

end Spans

/-! ## The first link -/

section Links

variable (rules : AskRules) (scorer : SpanScorer F) (request : AskRequest F)
  (questionTerms : List String)

/-- The pair that a link sets against each other, among all registered candidates. -/
def storedPair (unique : ExtTreeMap String (AskCandidate F) strCmp) (anchor : AskSpan F)
    (link : AskContradiction F) : Option (AskContradiction F × AskSpan F × AskSpan F) := do
  let otherId ← link.otherEnd anchor.memoryId
  let candidate ← unique[otherId]?
  let other ← bestSpanOf rules scorer questionTerms candidate
  let evidenceScore ← conflictScore anchor.score
    (sourceTrust anchor.memoryConfidence anchor.trustClass)
    (sourceTrust other.memoryConfidence other.trustClass)
    link.confidence request.minConfidence
  return (link, anchor, { other with score := evidenceScore })

/-- The conflict that is stored about the best candidate. -/
def storedConflict (unique : ExtTreeMap String (AskCandidate F) strCmp)
    (best : AskCandidate F) : Option (AskContradiction F × AskSpan F × AskSpan F) :=
  (bestSpanOf rules scorer questionTerms best).bind fun anchor =>
    if F32.lt anchor.score request.minConfidence then none
    else (eligibleLinks request).findSome?
      (storedPair rules scorer request questionTerms unique anchor)

end Links

section Conflict

variable {rules : AskRules} {scorer : SpanScorer F} {request : AskRequest F}
  {questionTerms : List String} {unique : ExtTreeMap String (AskCandidate F) strCmp}
  {admitted : List (AskCandidate F)} {anchor : AskSpan F} {best : AskCandidate F}

/-- The candidates of a list are registered, each under its identity. -/
def Registered (unique : ExtTreeMap String (AskCandidate F) strCmp)
    (candidates : List (AskCandidate F)) : Prop :=
  ∀ c ∈ candidates, unique[c.memoryId]? = some c

omit [AskF32 F] in
theorem Registered.distinctIds (h : Registered unique admitted) : DistinctIds admitted := by
  intro c hc c' hc' hid
  have hg := h c hc
  rw [hid, h c' hc'] at hg
  exact (Option.some.inj hg).symm

/-- A pair of admitted passages is a stored pair. -/
theorem linkedPair_of_mem (ha : Registered unique admitted) {l : AskContradiction F}
    {other : AskCandidate F} (hl : l.otherEnd anchor.memoryId = some other.memoryId)
    (ho : other ∈ admitted) :
    linkedPair request (rankedSpans rules scorer questionTerms admitted) anchor l
      = storedPair rules scorer request questionTerms unique anchor l := by
  unfold linkedPair storedPair
  simp only [hl, Option.bind_eq_bind, Option.bind_some,
    bestByMemory_rankedSpans ha.distinctIds ho, ha other ho]

theorem linkedPair_eq_none (ha : Registered unique admitted) {l : AskContradiction F}
    (h : storedPair rules scorer request questionTerms unique anchor l = none) :
    linkedPair request (rankedSpans rules scorer questionTerms admitted) anchor l = none := by
  by_contra hsome
  obtain ⟨pair, hp⟩ := Option.ne_none_iff_exists'.mp hsome
  have hp' := hp
  unfold linkedPair at hp
  obtain ⟨oi, hl, hp⟩ := Option.bind_eq_some_iff.mp hp
  obtain ⟨other, hg, -⟩ := Option.bind_eq_some_iff.mp hp
  obtain ⟨c, hc, hs⟩ := mem_rankedSpans.mp (mem_of_bestByMemory hg)
  rw [getElem?_bestByMemory] at hg
  have hid : other.memoryId = oi := by simpa using List.find?_some hg
  rw [← hid, (source_of_mem_spansOf hs).1] at hl
  rw [linkedPair_of_mem ha hl hc, h] at hp'
  cases hp'

/-- A link opposes the best candidate where it opposes its best passage. -/
theorem linkedOpposition_eq_none_iff (hF : RanksUnit F) (hsc : ScoresInUnit scorer)
    (ha : bestSpanOf rules scorer questionTerms best = some anchor)
    (l : AskContradiction F) :
    linkedOpposition request unique (rankCandidate rules scorer questionTerms best) l = none
      ↔ storedPair rules scorer request questionTerms unique anchor l = none := by
  obtain ⟨hid, hcon, ht⟩ := source_of_mem_spansOf (bestSpanOf_eq_some_iff.mp ha).1
  have hsco := score_of_bestSpanOf hF hsc ha
  unfold linkedOpposition storedPair
  rw [hid, hcon, ht, hsco]
  simp only [rankCandidate, RankedCandidate.memoryId]
  cases l.otherEnd best.memoryId with
  | none => simp
  | some oi =>
    simp only [Option.bind_eq_bind, Option.bind_some]
    cases unique[oi]? with
    | none => simp
    | some other =>
      simp only [Option.bind_some]
      cases hs : bestSpanOf rules scorer questionTerms other with
      | none =>
        have hb : trim other.content = "" := by
          by_contra hc
          rw [← Ne, ← @bestSpanOf_isSome F _ rules scorer questionTerms, hs] at hc
          cases hc
        simp [hb]
      | some sp =>
        have hc : trim other.content ≠ "" := by
          rw [← @bestSpanOf_isSome F _ rules scorer questionTerms, hs]
          rfl
        obtain ⟨-, hc', ht'⟩ := source_of_mem_spansOf (bestSpanOf_eq_some_iff.mp hs).1
        rw [Option.bind_some, hc', ht']
        by_cases hco : conflictScore (bestSpanScore rules scorer questionTerms best)
            (sourceTrust best.confidence best.trustClass)
            (sourceTrust other.confidence other.trustClass)
            l.confidence request.minConfidence = none
        · simp [hco]
        · obtain ⟨s, hs'⟩ := Option.ne_none_iff_exists'.mp hco
          simp [hs', hc]

/-- **Admission that keeps the best candidate and the opposition of its first link shows the
stored conflict.** -/
theorem explicitConflict_eq_storedConflict (hF : RanksUnit F) (hs : ScoresInUnit scorer)
    (had : Registered unique admitted) (hm : best ∈ admitted)
    (hc : trim best.content ≠ "")
    (hb : ∀ c ∈ admitted, c ≠ best → trim c.content ≠ "" →
      (rankCandidate rules scorer questionTerms best).cmp
        (rankCandidate rules scorer questionTerms c) = .lt)
    (ho : ∀ other,
      F32.lt (bestSpanScore rules scorer questionTerms best) request.minConfidence = false →
      (eligibleLinks request).findSome?
        (linkedOpposition request unique (rankCandidate rules scorer questionTerms best))
        = some other → other ∈ admitted)
    (hk : ∀ (id : String) (c : AskCandidate F), unique[id]? = some c → c.memoryId = id) :
    explicitConflict request (rankedSpans rules scorer questionTerms admitted)
      = storedConflict rules scorer request questionTerms unique best := by
  have hh := head?_rankedSpans hF hs hm hc hb
  obtain ⟨anchor, ha⟩ := Option.isSome_iff_exists.mp
    ((@bestSpanOf_isSome F _ rules scorer questionTerms best).mpr hc)
  have hsc := score_of_bestSpanOf hF hs ha
  have hid := (source_of_mem_spansOf (bestSpanOf_eq_some_iff.mp ha).1).1
  rw [ha] at hh
  obtain ⟨r, hr⟩ := List.head?_eq_some_iff.mp hh
  have he : explicitConflict request (rankedSpans rules scorer questionTerms admitted)
      = if F32.lt anchor.score request.minConfidence then none
        else (eligibleLinks request).findSome?
          (linkedPair request (rankedSpans rules scorer questionTerms admitted) anchor) := by
    rw [hr]
    rfl
  rw [he, storedConflict, ha, Option.bind_some]
  split
  · rfl
  · rename_i hf
    rw [hsc, Bool.not_eq_true] at hf
    refine ListRules.findSome?_eq_of_first (fun l => linkedPair_eq_none had)
      (linkedOpposition_eq_none_iff hF hs ha) _ fun other hot l hl => ?_
    refine linkedPair_of_mem had ?_ (ho other hf hot)
    unfold linkedOpposition at hl
    obtain ⟨oi, hen, hl⟩ := Option.bind_eq_some_iff.mp hl
    obtain ⟨f, hg, hl⟩ := Option.bind_eq_some_iff.mp hl
    split at hl
    · cases hl
    · obtain rfl := Option.some.inj hl
      rw [hid, hk oi f hg]
      exact hen

end Conflict

/-! ## Admission keeps the opposition -/

section Admission

variable {rules : AskRules} {scorer : SpanScorer F} {request : AskRequest F}
  {questionTerms : List String} {unique : ExtTreeMap String (AskCandidate F) strCmp}
  {slots : List (RankedCandidate F)} {best : RankedCandidate F}

/-- The slots after room was made for opposition. -/
def opposedSlots (rules : AskRules) (scorer : SpanScorer F) (request : AskRequest F)
    (questionTerms : List String) (unique : ExtTreeMap String (AskCandidate F) strCmp)
    (slots : List (RankedCandidate F)) : List (RankedCandidate F) :=
  let (linked, ranked) := preserveLinkedOpposition rules scorer request questionTerms unique slots
  if linked then ranked
  else preserveInferredOpposition rules scorer request questionTerms unique ranked

theorem mem_replaceLast_self (r : List (RankedCandidate F)) (en : RankedCandidate F) :
    en ∈ replaceLast r en := by
  rw [replaceLast, sortBy, List.mem_insertionSort]
  exact List.mem_append_right _ List.mem_cons_self

/-- The first of two or more slots is not the last one. -/
theorem head_mem_replaceLast {first s : RankedCandidate F} (r : List (RankedCandidate F))
    (en : RankedCandidate F) : first ∈ replaceLast (first :: s :: r) en := by
  rw [replaceLast, sortBy, List.mem_insertionSort, List.dropLast_cons_cons]
  exact List.mem_append_left _ List.mem_cons_self

/-- Room for an inferred opposition leaves the first slot alone. -/
theorem head_mem_preserveInferredOpposition {first : RankedCandidate F}
    (r : List (RankedCandidate F)) :
    first ∈ preserveInferredOpposition rules scorer request questionTerms unique (first :: r) := by
  have hs : first ∈ first :: r := List.mem_cons_self
  unfold preserveInferredOpposition
  simp only
  split
  · exact hs
  · rename_i hr
    split
    · exact hs
    · split
      · exact hs
      · split
        · exact hs
        · cases r with
          | nil => exact absurd (.inl (by simp)) hr
          | cons s r => exact head_mem_replaceLast r _

/-- With two slots or more, the best candidate and the opposition of its first link stay. -/
theorem opposedSlots_spec (hk : ∀ (id : String) (c : AskCandidate F),
      unique[id]? = some c → c.memoryId = id)
    (hs : ∀ en ∈ slots, en.candidate ∈ unique.values) {r : List (RankedCandidate F)}
    (hfi : slots = best :: r) (hlo : 2 ≤ slots.length) :
    best ∈ opposedSlots rules scorer request questionTerms unique slots
      ∧ ∀ other, F32.lt best.score request.minConfidence = false →
        (eligibleLinks request).findSome? (linkedOpposition request unique best) = some other →
        other ∈ (opposedSlots rules scorer request questionTerms unique slots).map
          RankedCandidate.candidate := by
  subst hfi
  obtain ⟨s, r, rfl⟩ : ∃ s r', r = s :: r' := by
    cases r with
    | nil => simp at hlo
    | cons s r => exact ⟨s, r, rfl⟩
  have hse : best ∈ best :: s :: r := List.mem_cons_self
  unfold opposedSlots preserveLinkedOpposition
  by_cases hf : F32.lt best.score request.minConfidence = true
  · simp only [hf, or_true, if_true, Bool.false_eq_true, if_false]
    refine ⟨head_mem_preserveInferredOpposition _, fun other hab => ?_⟩
    cases hab
  have hope : ¬ ((best :: s :: r).length < 2 ∨ F32.lt best.score request.minConfidence = true) := by
    simpa using hf
  simp only [if_neg hope]
  cases hfin : (eligibleLinks request).findSome? (linkedOpposition request unique best) with
  | none =>
    simp only [Bool.false_eq_true, if_false]
    refine ⟨head_mem_preserveInferredOpposition _, fun other _ ho => ?_⟩
    cases ho
  | some o =>
    obtain ⟨l, -, hl⟩ := List.exists_of_findSome?_eq_some hfin
    have hop := mem_of_linkedOpposition hl
    simp only
    split
    · rename_i ha
      obtain ⟨en, he, hid⟩ := List.any_eq_true.mp ha
      simp only [if_true]
      refine ⟨hse, fun other _ ho => ?_⟩
      obtain rfl := Option.some.inj ho
      obtain ⟨id, hg⟩ := ExtTreeMap.mem_values_iff.mp hop
      obtain ⟨id', hg'⟩ := ExtTreeMap.mem_values_iff.mp (hs en he)
      have hsa : id = id' := by
        rw [← hk id _ hg, ← hk id' _ hg']
        exact (of_decide_eq_true hid).symm
      rw [hsa, hg'] at hg
      rw [← Option.some.inj hg]
      exact List.mem_map_of_mem he
    · simp only [if_true]
      refine ⟨head_mem_replaceLast r _, fun other _ ho => ?_⟩
      obtain rfl := Option.some.inj ho
      exact List.mem_map.mpr ⟨_, mem_replaceLast_self _ _, rfl⟩

theorem opposedSlots_of_short (hs : slots.length < 2) :
    opposedSlots rules scorer request questionTerms unique slots = slots := by
  unfold opposedSlots preserveLinkedOpposition preserveInferredOpposition
  cases slots with
  | nil => rfl
  | cons first r =>
    have hn : r = [] := by
      rw [List.length_cons] at hs
      exact List.eq_nil_of_length_eq_zero (by omega)
    simp [hn]

theorem mem_opposedSlots (hs : ∀ en ∈ slots, en.candidate ∈ unique.values) :
    ∀ en ∈ opposedSlots rules scorer request questionTerms unique slots,
      en.candidate ∈ unique.values := by
  have hl := @mem_preserveLinkedOpposition F _ rules scorer request questionTerms unique slots hs
  unfold opposedSlots
  simp only
  split
  · exact hl
  · exact mem_preserveInferredOpposition hl

theorem mem_allEntries {en : RankedCandidate F} : en ∈ allEntries rules scorer questionTerms unique
      ↔ ∃ c ∈ unique.values, trim c.content ≠ ""
        ∧ en = rankCandidate rules scorer questionTerms c := by
  unfold allEntries eligibleEntries
  rw [List.mem_filter, List.mem_map]
  constructor
  · rintro ⟨⟨c, hc, rfl⟩, hp⟩
    exact ⟨c, hc, by simpa [rankCandidate] using hp, rfl⟩
  · rintro ⟨c, hc, hco, rfl⟩
    exact ⟨⟨c, hc, rfl⟩, by simpa [rankCandidate] using hco⟩

/-- Where a candidate is not blank, one of them is the best. -/
theorem exists_isOverallBest (hi : (unique.values.map AskCandidate.memoryId).Nodup)
    (hne : allEntries rules scorer questionTerms unique ≠ []) :
    ∃ best, IsOverallBest rules scorer questionTerms unique best := by
  obtain ⟨en, he⟩ := List.exists_mem_of_ne_nil _ hne
  have hf := isFirst_bestRanked rules scorer questionTerms 1 hi
  cases hr : bestRanked rules scorer questionTerms 1 unique with
  | nil =>
    rw [hr] at hf
    cases (hf.rest en he List.not_mem_nil).1
  | cons best r =>
    have hb : best ∈ bestRanked rules scorer questionTerms 1 unique := hr ▸ List.mem_cons_self
    refine ⟨best, hf.mem best hb, fun other ho => ?_⟩
    by_cases hin : other ∈ bestRanked rules scorer questionTerms 1 unique
    · rw [hr] at hin hf
      rcases List.mem_cons.mp hin with rfl | hin
      · have hs : other.cmp other = .eq := Std.ReflCmp.compare_self
        rw [hs]
        decide
      · rw [(List.pairwise_cons.mp hf.sorted).1 other hin]
        decide
    · rw [(hf.rest other ho hin).2 best hb]
      decide

/-- **The conflict that admission shows**, whatever the budget: that of the best candidate, among
all registered ones. -/
theorem explicitConflict_opposedSlots (hF : RanksUnit F) (hor : OrdersScores F)
    (hsc : ScoresInUnit scorer) (hke : ∀ (id : String) (c : AskCandidate F),
      unique[id]? = some c → c.memoryId = id) {l : ℕ} (hli : 2 ≤ l) :
    ∃ slots, preserveIndependentSupport rules scorer questionTerms request unique
        (bestRanked rules scorer questionTerms l unique) = some slots
      ∧ (allEntries rules scorer questionTerms unique = [] →
        explicitConflict request (rankedSpans rules scorer questionTerms
          ((opposedSlots rules scorer request questionTerms unique slots).map
            RankedCandidate.candidate)) = none)
      ∧ ∀ best, IsOverallBest rules scorer questionTerms unique best →
        explicitConflict request (rankedSpans rules scorer questionTerms
          ((opposedSlots rules scorer request questionTerms unique slots).map
            RankedCandidate.candidate))
          = storedConflict rules scorer request questionTerms unique best.candidate := by
  have hi := nodup_memoryIds hke
  have hr := isFirst_bestRanked rules scorer questionTerms l hi
  obtain ⟨slots, hs, -, hbest⟩ := @preserveIndependentSupport_valid F _ rules scorer
    questionTerms unique _ hi request l rfl
  have hk := hbest hor
  have hv : ∀ en ∈ slots, en.candidate ∈ unique.values := by
    intro en he
    obtain ⟨c, hc, -, rfl⟩ := mem_allEntries.mp (hk.valid.mem en he)
    exact hc
  refine ⟨slots, hs, fun hn => ?_, fun best hb => ?_⟩
  · have hem : slots = [] := by
      refine List.eq_nil_iff_forall_not_mem.mpr fun en he => ?_
      have hm := hk.valid.mem en he
      rw [hn] at hm
      exact List.not_mem_nil hm
    rw [hem]
    rfl
  obtain ⟨c, hc, hco, rfl⟩ := mem_allEntries.mp hb.1
  have hin : rankCandidate rules scorer questionTerms c
      ∈ bestRanked rules scorer questionTerms l unique :=
    mem_of_isOverallBest hr (by omega) (fun _ h => h) hb hb.1
  have hm := hk.best _ hb hin
  obtain ⟨r, hres⟩ := head_of_isOverallBest hk.valid hb hm
  -- the best candidate and the opposition of its first link have their slots
  have hkep : rankCandidate rules scorer questionTerms c
        ∈ opposedSlots rules scorer request questionTerms unique slots
      ∧ ∀ other, F32.lt (bestSpanScore rules scorer questionTerms c) request.minConfidence = false →
        (eligibleLinks request).findSome? (linkedOpposition request unique
          (rankCandidate rules scorer questionTerms c)) = some other →
        other ∈ (opposedSlots rules scorer request questionTerms unique slots).map
          RankedCandidate.candidate := by
    by_cases hlo : 2 ≤ slots.length
    · exact opposedSlots_spec hke hv hres hlo
    · -- fewer slots than the budget allows: every candidate has one
      have hsa : slots = bestRanked rules scorer questionTerms l unique := by
        rw [preserveIndependentSupport_eq, if_pos] at hs
        · exact (Option.some.inj hs).symm
        · left
          rw [← hk.length_eq]
          omega
      rw [opposedSlots_of_short (by omega)]
      refine ⟨hm, fun other _ hot => ?_⟩
      obtain ⟨li, -, hl⟩ := List.exists_of_findSome?_eq_some hot
      have hoth : rankCandidate rules scorer questionTerms other
          ∈ allEntries rules scorer questionTerms unique := by
        refine mem_allEntries.mpr ⟨other, mem_of_linkedOpposition hl, ?_, rfl⟩
        unfold linkedOpposition at hl
        obtain ⟨oi, -, hl⟩ := Option.bind_eq_some_iff.mp hl
        obtain ⟨f, -, hl⟩ := Option.bind_eq_some_iff.mp hl
        split at hl
        · cases hl
        · rename_i hop
          rw [← Option.some.inj hl]
          exact fun hbl => hop (.inl hbl)
      refine List.mem_map.mpr ⟨rankCandidate rules scorer questionTerms other, ?_, rfl⟩
      by_contra hout
      rw [hsa] at hout
      have hf := (hr.rest _ hoth hout).1
      rw [← hsa] at hf
      omega
  have hre : Registered unique ((opposedSlots rules scorer request questionTerms unique slots).map
        RankedCandidate.candidate) := by
    intro c hc
    obtain ⟨en, he, rfl⟩ := List.mem_map.mp hc
    obtain ⟨id, hg⟩ := ExtTreeMap.mem_values_iff.mp (mem_opposedSlots hv en he)
    rw [hke id _ hg]
    exact hg
  refine explicitConflict_eq_storedConflict hF hsc hre
    (List.mem_map.mpr ⟨_, hkep.1, rfl⟩) hco ?_ hkep.2 hke
  intro other hot hne ho'
  obtain ⟨en, he, rfl⟩ := List.mem_map.mp hot
  have ho := mem_opposedSlots hv en he
  refine BestPerKey.lt_of_ne (hb.2 _ (mem_allEntries.mpr ⟨_, ho, ho', rfl⟩)) ?_
  intro heq
  refine hne ?_
  have hid := memoryId_eq_of_cmp heq
  exact (List.inj_on_of_nodup_map hi hc ho hid).symm

end Admission

/-- **A stored contradiction is never hidden by the candidate cap.** Within any two budgets of two
or more, admission returns and the admitted passages show the same conflict: the same link with
the same two passages, or none. -/
theorem stored_contradiction_within_any_cap (hF : RanksUnit F) (horders : OrdersScores F)
    (rules : AskRules) {scorer : SpanScorer F} (hscorer : ScoresInUnit scorer)
    (request : AskRequest F) (questionTerms : List String) {candidates : List (AskCandidate F)}
    (hvalid : ValidCandidates candidates) {limit limit' : ℕ} (hlimit : 2 ≤ limit)
    (hlimit' : 2 ≤ limit') :
    ∃ selected selected',
      selectCandidatesWithScorer rules scorer request questionTerms candidates limit
          = some (.ok selected)
        ∧ selectCandidatesWithScorer rules scorer request questionTerms candidates limit'
          = some (.ok selected')
        ∧ explicitConflict request (rankedSpans rules scorer questionTerms selected)
          = explicitConflict request (rankedSpans rules scorer questionTerms selected') := by
  have hh := holds_registerAll candidates
  obtain ⟨hc, hso⟩ := (validCandidates_iff candidates).mp hvalid
  set unique := (registerAll candidates).unique with hunique
  have hk : ∀ (id : String) (c : AskCandidate F), unique[id]? = some c → c.memoryId = id := by
    intro id c hg
    rw [hh.unique] at hg
    exact (firstWith_spec hg).2
  have hse : ∀ limit slots, 2 ≤ limit →
      preserveIndependentSupport rules scorer questionTerms request unique
        (bestRanked rules scorer questionTerms limit unique) = some slots →
      selectCandidatesWithScorer rules scorer request questionTerms candidates limit
        = some (.ok ((opposedSlots rules scorer request questionTerms unique slots).map
          RankedCandidate.candidate)) := by
    intro limit slots hle hs
    unfold selectCandidatesWithScorer
    simp only [hc, hso, ← hunique, Bool.false_eq_true, if_false]
    rw [if_neg (by omega), hs]
    rfl
  have hsh := fun limit => @explicitConflict_opposedSlots F _ rules scorer request questionTerms
    unique hF horders hscorer hk limit
  obtain ⟨slots, hs, hno, hb⟩ := hsh limit hlimit
  obtain ⟨ss', hs', hn', hb'⟩ := hsh limit' hlimit'
  refine ⟨_, _, hse limit slots hlimit hs, hse limit' ss' hlimit' hs', ?_⟩
  by_cases hn : allEntries rules scorer questionTerms unique = []
  · rw [hno hn, hn' hn]
  · obtain ⟨best, ho⟩ := exists_isOverallBest (nodup_memoryIds hk) hn
    rw [hb best ho, hb' best ho]

theorem ranksUnit_rat : RanksUnit ℚ where
  zero_le_one := by decide
  max_eq a b _ _ _ _ := by
    change (if a ≤ b then b else a) = if compare a b = .lt then b else a
    by_cases hlt : a < b
    · rw [if_pos hlt.le, if_pos (compare_lt_iff_lt.mpr hlt)]
    · rw [if_neg fun h => hlt (compare_lt_iff_lt.mp h)]
      split
      · exact le_antisymm (not_lt.mp hlt) ‹a ≤ b›
      · rfl

/-- A scorer that trusts the confidence of a memory. -/
def clampScorer : SpanScorer ℚ := fun _ _ confidence _ => F32.clamp confidence 0 1

theorem scoresInUnit_clampScorer : ScoresInUnit clampScorer := by
  intro _ _ c _
  change compare (0 : ℚ) (F32.clamp c 0 1) ≠ .gt ∧ compare (F32.clamp c 0 1) (1 : ℚ) ≠ .gt
  rw [compare_le_iff_le, compare_le_iff_le]
  unfold F32.clamp
  split
  · exact ⟨le_rfl, zero_le_one⟩
  · rename_i hz
    split
    · exact ⟨zero_le_one, le_rfl⟩
    · rename_i ho
      refine ⟨not_lt.mp fun h => hz (decide_eq_true h), ?_⟩
      exact not_lt.mp fun h => ho (decide_eq_true h)

/-- Three notes, of which the last is linked to the first as its opposite. -/
def linkedNotes : List (AskCandidate ℚ) :=
  [formatCandidate "a" "Run cargo fmt before a release.",
    formatCandidate "b" "Run cargo fmt before a release.",
    formatCandidate "c" "Releases skip formatting."]

def linkedQuestion : AskRequest ℚ :=
  { formatQuestion with contradictions := [⟨"link", "c", "a", 9 / 10, "human"⟩] }

theorem stored_contradiction_within_any_cap_linked :
    RanksUnit ℚ ∧ OrdersScores ℚ ∧ ScoresInUnit clampScorer ∧ ValidCandidates linkedNotes
      ∧ ∃ selected selected',
        selectCandidatesWithScorer asciiRules clampScorer linkedQuestion [] linkedNotes 2
            = some (.ok selected)
          ∧ selectCandidatesWithScorer asciiRules clampScorer linkedQuestion [] linkedNotes 3
            = some (.ok selected')
          ∧ explicitConflict linkedQuestion (rankedSpans asciiRules clampScorer [] selected)
            = explicitConflict linkedQuestion
              (rankedSpans asciiRules clampScorer [] selected') := by
  have hv : ValidCandidates linkedNotes := by
    constructor
    · intro c hc
      simp only [linkedNotes, List.mem_cons, List.not_mem_nil, or_false] at hc
      have hu : isUnit (9 / 10 : ℚ) = true := by decide +kernel
      rcases hc with rfl | rfl | rfl <;> exact hu
    · intro c hc c' hc' hid
      simp only [linkedNotes, List.mem_cons, List.not_mem_nil, or_false] at hc hc'
      rcases hc with rfl | rfl | rfl <;> rcases hc' with rfl | rfl | rfl <;>
        first | rfl | exact absurd hid (by decide)
  refine ⟨ranksUnit_rat, ordersScores_rat, scoresInUnit_clampScorer, hv, ?_⟩
  exact stored_contradiction_within_any_cap ranksUnit_rat ordersScores_rat asciiRules
    scoresInUnit_clampScorer linkedQuestion [] hv (by decide) (by decide)

end Ask
