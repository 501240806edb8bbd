/-
# Admission of candidates

`select_candidates_with_scorer` of `src/core/ask_candidates.rs` checks every candidate, ranks
them by their best passage, keeps the best within the budget and then reserves slots for
independent support and for opposition to the best answer.

Whatever is admitted was registered, so that an identity stands for one candidate.
-/
import EideticEngine.AskSupport

namespace Ask

open RustText (trim strCmp)
open StableSort (sortBy)
open Std (ExtTreeMap)

variable {F : Type} [AskF32 F]

/-! ## Registration -/

inductive SelectionError where
  | ambiguousSource
  | invalidConfidence
  deriving DecidableEq

/-- `is_finite` and within `0.0..=1.0`. -/
def isUnit (x : F) : Bool :=
  F32.isFinite x && (F32.le (F32.lit 0) x && F32.le x (F32.lit 1))

def sameSource (left right : AskCandidate F) : Bool :=
  left.content = right.content
    && AskF32.toBits left.confidence = AskF32.toBits right.confidence
    && left.trustClass = right.trustClass
    && left.provenanceUri = right.provenanceUri
    && left.level = right.level
    && left.kind = right.kind
    && left.teamProvenance = right.teamProvenance

/-- The candidates by their identity, and what is wrong with them. -/
structure Registry (F : Type) where
  unique : ExtTreeMap String (AskCandidate F) strCmp
  invalidConfidence : Bool
  ambiguousSource : Bool

def Registry.register (registry : Registry F) (candidate : AskCandidate F) : Registry F :=
  let invalidConfidence := registry.invalidConfidence || !isUnit candidate.confidence
  match registry.unique[candidate.memoryId]? with
  | some previous =>
    { registry with
      invalidConfidence
      ambiguousSource := registry.ambiguousSource || !sameSource previous candidate }
  | none =>
    { registry with
      invalidConfidence
      unique := registry.unique.insert candidate.memoryId candidate }

def registerAll (candidates : List (AskCandidate F)) : Registry F :=
  candidates.foldl Registry.register ⟨∅, false, false⟩

/-- A heap of so many entries, the worst on top, is kept as the sorted list of its entries. -/
def pushRanked (limit : ℕ) (retained : List (RankedCandidate F)) (ranked : RankedCandidate F) :
    List (RankedCandidate F) :=
  if retained.length < limit then ranked.place retained
  else
    match retained.getLast? with
    | some worst => if ranked.cmp worst = .lt then ranked.place retained.dropLast else retained
    | none => retained

/-! ## Opposition -/

def eligibleLink (request : AskRequest F) (link : AskContradiction F) : Bool :=
  (link.source = "human" || link.source = "agent")
    && F32.isFinite link.confidence
    && (F32.le request.minConfidence link.confidence && F32.le link.confidence (F32.lit 1))
    && link.srcMemoryId ≠ link.dstMemoryId

def compareLinks (left right : AskContradiction F) : Ordering :=
  (strCmp left.id right.id).then ((strCmp left.srcMemoryId right.srcMemoryId).then
    ((strCmp left.dstMemoryId right.dstMemoryId).then ((strCmp left.source right.source).then
      (F32.totalCmp right.confidence left.confidence))))

/-- The eligible links in their order. -/
def eligibleLinks (request : AskRequest F) : List (AskContradiction F) :=
  sortBy compareLinks (request.contradictions.filter (eligibleLink request))

/-- The other end of a link. -/
def AskContradiction.otherEnd (link : AskContradiction F) (id : String) : Option String :=
  if link.srcMemoryId = id then some link.dstMemoryId
  else if link.dstMemoryId = id then some link.srcMemoryId
  else none

/-- The score of a linked pair, if it reaches the floor. -/
def conflictScore (anchorScore anchorTrust otherTrust linkConfidence minimum : F) : Option F :=
  if [anchorScore, anchorTrust, otherTrust, linkConfidence, minimum].all F32.isFinite then
    let score := F32.min (F32.min (F32.min anchorScore linkConfidence) anchorTrust) otherTrust
    if F32.le minimum score then some score else none
  else none

/-- The trust in the memory of a candidate. -/
def sourceTrust (confidence : F) (trustClass : String) : F :=
  F32.mul confidence (trustTilt trustClass)

/-- Put a candidate into the last slot. -/
def replaceLast (ranked : List (RankedCandidate F)) (entry : RankedCandidate F) :
    List (RankedCandidate F) :=
  sortBy RankedCandidate.cmp (ranked.dropLast ++ [entry])

section Selection

variable (rules : AskRules) (scorer : SpanScorer F) (request : AskRequest F)
  (questionTerms : List String)

/-- The linked candidate that opposes the best one. -/
def linkedOpposition (unique : ExtTreeMap String (AskCandidate F) strCmp)
    (anchor : RankedCandidate F) (link : AskContradiction F) : Option (AskCandidate F) := do
  let otherId ← link.otherEnd anchor.memoryId
  let other ← unique[otherId]?
  if trim other.content = ""
      ∨ conflictScore anchor.score
          (sourceTrust anchor.candidate.confidence anchor.candidate.trustClass)
          (sourceTrust other.confidence other.trustClass)
          link.confidence request.minConfidence = none then none
  else some other

/-- Reserve a slot for the opposition of the first eligible link; whether there is one. -/
def preserveLinkedOpposition (unique : ExtTreeMap String (AskCandidate F) strCmp)
    (ranked : List (RankedCandidate F)) : Bool × List (RankedCandidate F) :=
  match ranked with
  | [] => (false, ranked)
  | anchor :: _ =>
    if ranked.length < 2 ∨ F32.lt anchor.score request.minConfidence then (false, ranked)
    else
      match (eligibleLinks request).findSome? (linkedOpposition request unique anchor) with
      | none => (false, ranked)
      | some other =>
        if ranked.any fun entry => entry.memoryId = other.memoryId then (true, ranked)
        else (true, replaceLast ranked (rankCandidate rules scorer questionTerms other))

/-- Whether a passage opposes the passage of the best candidate. -/
def opposes (anchorText text : String) (score : F) : Bool :=
  let numericOpposition := numericConflict rules anchorText text
  ((hasNegation rules text ≠ hasNegation rules anchorText
      && sameNumericContext rules anchorText text) || numericOpposition)
    && !F32.lt score request.minConfidence
    && (numericOpposition
      || sameConflictTopic F (tokenizeForAsk rules anchorText) (tokenizeForAsk rules text))

/-- The best of the opposing passages, as ranked candidates. -/
def inferredOpposition (unique : ExtTreeMap String (AskCandidate F) strCmp)
    (anchorText : String) : Option (RankedCandidate F) :=
  unique.values.foldl (fun opposition candidate =>
    (passages rules.isUppercase candidate.content).foldl (fun opposition passage =>
      let score := passageScore scorer questionTerms candidate passage.2
      if opposes rules request anchorText passage.2 score
          && opposition.all (fun current => (⟨candidate, score⟩ : RankedCandidate F).cmp current
            = .lt) then some ⟨candidate, score⟩
      else opposition) opposition) none

/-- Reserve a slot for a passage that opposes the best one. -/
def preserveInferredOpposition (unique : ExtTreeMap String (AskCandidate F) strCmp)
    (ranked : List (RankedCandidate F)) : List (RankedCandidate F) :=
  match ranked with
  | [] => ranked
  | anchor :: _ =>
    if ranked.length < 2 ∨ unique.size ≤ ranked.length
        ∨ F32.lt anchor.score request.minConfidence then ranked
    else
      match (passages rules.isUppercase anchor.candidate.content).find? fun passage =>
          F32.totalCmp (passageScore scorer questionTerms anchor.candidate passage.2) anchor.score
            = .eq with
      | none => ranked
      | some (_, anchorText) =>
        match inferredOpposition rules scorer request questionTerms unique anchorText with
        | none => ranked
        | some opposition =>
          if ranked.any fun entry => entry.memoryId = opposition.memoryId then ranked
          else
            replaceLast ranked (rankCandidate rules scorer questionTerms opposition.candidate)

/-! ## Selection -/

/-- The candidates within the budget, best first. -/
def bestRanked (limit : ℕ) (unique : ExtTreeMap String (AskCandidate F) strCmp) :
    List (RankedCandidate F) :=
  unique.values.foldl (fun retained candidate =>
    if trim candidate.content = "" then retained
    else pushRanked limit retained (rankCandidate rules scorer questionTerms candidate)) []

/-- Admit candidates; `none` stands for a panic. -/
def selectCandidatesWithScorer (candidates : List (AskCandidate F)) (limit : ℕ) :
    Option (Except SelectionError (List (AskCandidate F))) :=
  let registry := registerAll candidates
  if registry.invalidConfidence then some (.error .invalidConfidence)
  else if registry.ambiguousSource then some (.error .ambiguousSource)
  else if limit = 0 then some (.ok [])
  else do
    let unique := registry.unique
    let ranked ← preserveIndependentSupport rules scorer questionTerms request unique
      (bestRanked rules scorer questionTerms limit unique)
    let (linked, ranked) :=
      preserveLinkedOpposition rules scorer request questionTerms unique ranked
    let ranked := if linked then ranked
      else preserveInferredOpposition rules scorer request questionTerms unique ranked
    return .ok (ranked.map RankedCandidate.candidate)

end Selection

/-! ## What registration finds -/

theorem eq_of_sameSource {left right : AskCandidate F} (hid : left.memoryId = right.memoryId)
    (h : sameSource left right = true) : left = right := by
  obtain ⟨id, co, c, tc, uri, level, kind, t⟩ := left
  obtain ⟨id', co', c', tc', u', l', k', t'⟩ := right
  simp only [sameSource, Bool.and_eq_true, decide_eq_true_eq] at h
  obtain ⟨⟨⟨⟨⟨⟨rfl, hb⟩, rfl⟩, rfl⟩, rfl⟩, rfl⟩, rfl⟩ := h
  obtain rfl := AskF32.toBits_injective hb
  obtain rfl : id = id' := hid
  rfl

theorem sameSource_self (candidate : AskCandidate F) : sameSource candidate candidate = true := by
  simp [sameSource]

/-- The candidate that was registered first under an identity. -/
def firstWith (candidates : List (AskCandidate F)) (id : String) : Option (AskCandidate F) :=
  candidates.find? fun candidate => candidate.memoryId = id

omit [AskF32 F] in
theorem firstWith_spec {cs : List (AskCandidate F)} {id : String}
    {candidate : AskCandidate F} (h : firstWith cs id = some candidate) :
    candidate ∈ cs ∧ candidate.memoryId = id :=
  ⟨List.mem_of_find?_eq_some h, by simpa using List.find?_some h⟩

omit [AskF32 F] in
theorem exists_firstWith {cs : List (AskCandidate F)} {candidate : AskCandidate F}
    (h : candidate ∈ cs) : ∃ first, firstWith cs candidate.memoryId = some first :=
  Option.isSome_iff_exists.mp (List.find?_isSome.mpr ⟨candidate, h, by simp⟩)

/-- The registry of the candidates seen so far. -/
structure Registry.Holds (seen : List (AskCandidate F)) (registry : Registry F) : Prop where
  unique : ∀ id, registry.unique[id]? = firstWith seen id
  invalidConfidence : registry.invalidConfidence = seen.any fun c => !isUnit c.confidence
  ambiguousSource : registry.ambiguousSource
    = seen.any fun c => (firstWith seen c.memoryId).any fun first => !sameSource first c

omit [AskF32 F] in
/-- A later candidate is not the first where there is one. -/
theorem firstWith_concat (s : List (AskCandidate F)) (candidate : AskCandidate F) (id : String) :
    firstWith (s ++ [candidate]) id
      = (firstWith s id).or (if candidate.memoryId = id then some candidate else none) := by
  unfold firstWith
  rw [List.find?_append, List.find?_singleton]
  simp only [decide_eq_true_eq]

/-- Registering a candidate keeps the registry. -/
theorem Registry.Holds.register {s : List (AskCandidate F)} {r : Registry F}
    (h : r.Holds s) (candidate : AskCandidate F) :
    (r.register candidate).Holds (s ++ [candidate]) := by
  -- The candidates before keep the first one that they are compared with.
  have hs : ∀ c ∈ s, firstWith (s ++ [candidate]) c.memoryId = firstWith s c.memoryId := by
    intro c hc
    obtain ⟨first, hf⟩ := exists_firstWith hc
    rw [firstWith_concat, hf, Option.some_or]
  have hi : (r.invalidConfidence || !isUnit candidate.confidence)
      = (s ++ [candidate]).any fun c => !isUnit c.confidence := by
    rw [List.any_append, h.invalidConfidence, List.any_cons, List.any_nil, Bool.or_false]
  have ha : (s ++ [candidate]).any (fun c =>
        (firstWith (s ++ [candidate]) c.memoryId).any fun first => !sameSource first c)
      = (r.ambiguousSource
        || (firstWith (s ++ [candidate]) candidate.memoryId).any fun first =>
          !sameSource first candidate) := by
    rw [List.any_append, List.any_cons, List.any_nil, Bool.or_false, h.ambiguousSource]
    congr 1
    rw [Bool.eq_iff_iff, List.any_eq_true, List.any_eq_true]
    constructor
    · rintro ⟨c, hc, hd⟩
      exact ⟨c, hc, by rw [← hs c hc]; exact hd⟩
    · rintro ⟨c, hc, hd⟩
      exact ⟨c, hc, by rw [hs c hc]; exact hd⟩
  unfold Registry.register
  cases hg : r.unique[candidate.memoryId]? with
  | some ps =>
    have hf : firstWith s candidate.memoryId = some ps := by rw [← h.unique, hg]
    refine ⟨?_, hi, ?_⟩
    · intro id
      rw [firstWith_concat]
      simp only
      by_cases hid : candidate.memoryId = id
      · rw [← hid, hf, hg, Option.some_or]
      · rw [if_neg hid, Option.or_none, h.unique]
    · rw [ha, firstWith_concat, hf, Option.some_or, Option.any_some]
  | none =>
    have hf : firstWith s candidate.memoryId = none := by rw [← h.unique, hg]
    refine ⟨?_, hi, ?_⟩
    · intro id
      rw [firstWith_concat]
      simp only
      rw [ExtTreeMap.getElem?_insert_ite]
      by_cases hid : candidate.memoryId = id
      · rw [if_pos hid, if_pos hid, ← hid, hf, Option.none_or]
      · rw [if_neg hid, if_neg hid, Option.or_none, h.unique]
    · rw [ha, firstWith_concat, hf, Option.none_or, if_pos rfl, Option.any_some,
        sameSource_self, Bool.not_true, Bool.or_false]

theorem holds_registerAll (cs : List (AskCandidate F)) : (registerAll cs).Holds cs := by
  have hr : ∀ (re s : List (AskCandidate F)) (r : Registry F),
      r.Holds s → (re.foldl Registry.register r).Holds (s ++ re) := by
    intro re
    induction re with
    | nil => exact fun s r h => by rw [List.append_nil]; exact h
    | cons candidate re ih =>
      intro s r h
      rw [List.foldl_cons, List.append_cons]
      exact ih _ _ (h.register candidate)
  have hs : Registry.Holds [] (⟨∅, false, false⟩ : Registry F) :=
    ⟨fun id => ExtTreeMap.getElem?_empty, rfl, rfl⟩
  exact hr cs [] _ hs

/-- Candidates with valid confidence of which no two with one identity differ. -/
structure ValidCandidates (candidates : List (AskCandidate F)) : Prop where
  confidence : ∀ c ∈ candidates, isUnit c.confidence = true
  identity : ∀ c ∈ candidates, ∀ c' ∈ candidates, c.memoryId = c'.memoryId → c = c'

/-- Registration finds nothing wrong exactly with valid candidates. -/
theorem validCandidates_iff (cs : List (AskCandidate F)) :
    ValidCandidates cs ↔ (registerAll cs).invalidConfidence = false ∧
      (registerAll cs).ambiguousSource = false := by
  have h := holds_registerAll cs
  rw [h.invalidConfidence, h.ambiguousSource, List.any_eq_false, List.any_eq_false]
  simp only [Bool.not_eq_true', Bool.not_eq_false]
  constructor
  · rintro ⟨hco, hi⟩
    refine ⟨hco, fun c hc hdi => ?_⟩
    obtain ⟨first, hf⟩ := exists_firstWith hc
    obtain ⟨hm, hid⟩ := firstWith_spec hf
    rw [hf, Option.any_some, hi first hm c hc hid, sameSource_self] at hdi
    exact absurd hdi (by decide)
  · rintro ⟨hco, hs⟩
    refine ⟨hco, fun c hc c' hc' hid => ?_⟩
    obtain ⟨first, hf⟩ := exists_firstWith hc
    have heq : ∀ d ∈ cs, d.memoryId = c.memoryId → first = d := by
      intro d hd hdid
      refine eq_of_sameSource ((firstWith_spec hf).2.trans hdid.symm) ?_
      have hd' := hs d hd
      rw [hdid, hf, Option.any_some] at hd'
      simpa using hd'
    rw [← heq c hc rfl, ← heq c' hc' hid.symm]

/-! ## What is admitted was registered -/

section Admission

variable {rules : AskRules} {scorer : SpanScorer F} {request : AskRequest F}
  {questionTerms : List String} {unique : ExtTreeMap String (AskCandidate F) strCmp}

omit [AskF32 F] in
/-- The values of a registry have distinct identities. -/
theorem nodup_memoryIds (hk : ∀ (id : String) (c : AskCandidate F), unique[id]? = some c →
    c.memoryId = id) : (unique.values.map AskCandidate.memoryId).Nodup := by
  have hi : unique.values.map AskCandidate.memoryId = unique.keys := by
    rw [ExtTreeMap.values_eq_map_snd, List.map_map, ← ExtTreeMap.map_fst_toList_eq_keys]
    refine List.map_congr_left fun pair hp => ?_
    exact hk pair.1 pair.2 (ExtTreeMap.mem_toList_iff_getElem?_eq_some.mp hp)
  rw [hi]
  exact ExtTreeMap.nodup_keys

theorem mem_replaceLast {r : List (RankedCandidate F)} {en : RankedCandidate F}
    (hr : ∀ other ∈ r, other.candidate ∈ unique.values)
    (he : en.candidate ∈ unique.values) :
    ∀ other ∈ replaceLast r en, other.candidate ∈ unique.values := by
  intro other ho
  rw [replaceLast, StableSort.sortBy, List.mem_insertionSort] at ho
  rcases List.mem_append.mp ho with h | hn
  · exact hr other (List.mem_of_mem_dropLast h)
  · rw [List.mem_singleton.mp hn]
    exact he

theorem mem_of_linkedOpposition {a : RankedCandidate F} {l : AskContradiction F}
    {other : AskCandidate F} (h : linkedOpposition request unique a l = some other) :
    other ∈ unique.values := by
  unfold linkedOpposition at h
  obtain ⟨oi, -, h⟩ := Option.bind_eq_some_iff.mp h
  obtain ⟨f, hg, h⟩ := Option.bind_eq_some_iff.mp h
  split at h
  · cases h
  · obtain rfl := Option.some.inj h
    exact ExtTreeMap.mem_values_iff.mpr ⟨oi, hg⟩

theorem mem_preserveLinkedOpposition {r : List (RankedCandidate F)}
    (hr : ∀ en ∈ r, en.candidate ∈ unique.values) :
    ∀ en ∈ (preserveLinkedOpposition rules scorer request questionTerms unique r).2,
      en.candidate ∈ unique.values := by
  unfold preserveLinkedOpposition
  split
  · exact hr
  · split
    · exact hr
    · split
      · exact hr
      · rename_i other ho
        obtain ⟨l, -, hl⟩ := List.exists_of_findSome?_eq_some ho
        split
        · exact hr
        · exact mem_replaceLast hr (mem_of_linkedOpposition hl)

theorem mem_of_inferredOpposition {ate : String} {o : RankedCandidate F}
    (h : inferredOpposition rules scorer request questionTerms unique ate
      = some o) : o.candidate ∈ unique.values := by
  have ha : ∀ o ∈ inferredOpposition rules scorer request questionTerms unique ate,
      o.candidate ∈ unique.values := by
    have hn : ∀ o ∈ (none : Option (RankedCandidate F)),
        o.candidate ∈ unique.values := fun _ h => absurd h (Option.not_mem_none _)
    unfold inferredOpposition
    refine List.foldlRecOn (motive := fun b : Option (RankedCandidate F) =>
      ∀ o ∈ b, o.candidate ∈ unique.values) _ _ hn ?_
    intro b hb candidate hc
    refine List.foldlRecOn (motive := fun b : Option (RankedCandidate F) =>
      ∀ o ∈ b, o.candidate ∈ unique.values) _ _ hb ?_
    intro b hb p _
    simp only
    split
    · intro o ho
      obtain rfl := Option.some.inj ho
      exact hc
    · exact hb
  exact ha o h

theorem mem_preserveInferredOpposition {r : List (RankedCandidate F)}
    (hr : ∀ en ∈ r, en.candidate ∈ unique.values) :
    ∀ en ∈ preserveInferredOpposition rules scorer request questionTerms unique r,
      en.candidate ∈ unique.values := by
  unfold preserveInferredOpposition
  split
  · exact hr
  · split
    · exact hr
    · split
      · exact hr
      · split
        · exact hr
        · rename_i o ho
          split
          · exact hr
          · have hm := mem_of_inferredOpposition ho
            exact mem_replaceLast hr hm

end Admission

end Ask
