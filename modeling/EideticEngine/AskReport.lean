/-
# Answers from stored passages

`evaluate_ask_scored` of `src/core/ask.rs` composes a report from the passages of the admitted
candidates: a single answer, both sides of a conflict, or an abstention with the nearest
evidence.  A report that would cite anything but a passage of a candidate is withheld.

For valid input the check behind that never fails, since the passages are slices and an
identity stands for one candidate; and the two sides of a conflict are never empty, since the
best answer shares a topic with itself.
-/
import EideticEngine.AskClustering
import EideticEngine.AskSlots

namespace Ask

open RustText (trim strCmp joinSpace)
open StableSort (sortBy)
open Std (ExtTreeMap)
open Utf8Slice

/-! ## Reports -/

structure AskCitation (F : Type) where
  index : ℕ
  memoryId : String
  byteStart : ℕ
  byteEnd : ℕ
  text : String
  provenanceUri : Option String
  trustClass : String
  confidence : F
  teamProvenance : Option TeamProvenance

/-- One side of a conflict. -/
structure AskSide (F : Type) where
  label : String
  answerText : String
  citations : List (AskCitation F)

structure AskNearestEvidence (F : Type) where
  memoryId : String
  byteStart : ℕ
  byteEnd : ℕ
  text : String
  score : F

structure AskConfidenceComponents (F : Type) where
  topSpanScore : F
  corroboration : F
  contradictionPenalty : F

structure AskReport (F : Type) where
  nativeSources : ExtTreeMap String AskNativeSource strCmp
  question : String
  abstained : Bool
  answerText : Option String
  confidence : F
  confidenceComponents : AskConfidenceComponents F
  citations : List (AskCitation F)
  sides : Option (List (AskSide F))
  nearestEvidence : Option (List (AskNearestEvidence F))
  counterfactualHint : Option String
  semanticDegraded : Bool
  conflictDetected : Bool
  conflictLink : Option (AskContradiction F)
  extractivenessViolated : Bool
  candidatesScanned : ℕ

variable {F : Type} [AskF32 F]

def contradictionPenalty : F := F32.lit (40 / 100)

def askCandidateScanCap : ℕ := 512

/-- The report that withholds every answer. -/
def extractivenessFailureReport (request : AskRequest F) (candidatesScanned : ℕ) :
    AskReport F where
  nativeSources := ∅
  question := request.question
  abstained := true
  answerText := none
  confidence := F32.lit 0
  confidenceComponents := ⟨F32.lit 0, F32.lit 1, F32.lit 0⟩
  citations := []
  sides := none
  nearestEvidence := none
  counterfactualHint := some "internal: extractiveness invariant violation; answer withheld"
  semanticDegraded := true
  conflictDetected := false
  conflictLink := none
  extractivenessViolated := true
  candidatesScanned

/-! ## Conflicts -/

section Evaluation

variable (rules : AskRules)

/-- Whether a passage is of the other polarity on the topic of the first. -/
def contradicts (anchor span : AskSpan F) : Bool :=
  hasNegation rules span.text ≠ hasNegation rules anchor.text
    && sameNumericContext rules anchor.text span.text
    && sameConflictTopic F (tokenizeForAsk rules anchor.text) (tokenizeForAsk rules span.text)

def detectContradiction (clusters : List (AskSpan F)) : Bool :=
  match clusters with
  | [] => false
  | anchor :: others => others.any fun span =>
    contradicts rules anchor span || numericConflict rules anchor.text span.text

/-- The best passage of each memory. -/
def bestByMemory (rankedSpans : List (AskSpan F)) : ExtTreeMap String (AskSpan F) strCmp :=
  rankedSpans.foldl (fun best span => best.insertIfNew span.memoryId span) ∅

/-- The pair that a link sets against each other. -/
def linkedPair (request : AskRequest F) (rankedSpans : List (AskSpan F)) (anchor : AskSpan F)
    (link : AskContradiction F) : Option (AskContradiction F × AskSpan F × AskSpan F) := do
  let otherId ← link.otherEnd anchor.memoryId
  let other ← (bestByMemory rankedSpans)[otherId]?
  let evidenceScore ← conflictScore anchor.score
    (sourceTrust anchor.memoryConfidence anchor.trustClass)
    (sourceTrust other.memoryConfidence other.trustClass)
    link.confidence request.minConfidence
  return (link, anchor, { other with score := evidenceScore })

/-- The first eligible link of the best passage, with its two sides. -/
def explicitConflict (request : AskRequest F) (rankedSpans : List (AskSpan F)) :
    Option (AskContradiction F × AskSpan F × AskSpan F) :=
  match rankedSpans with
  | [] => none
  | anchor :: _ =>
    if F32.lt anchor.score request.minConfidence then none
    else (eligibleLinks request).findSome? (linkedPair request rankedSpans anchor)

/-! ## Composition -/

/-- The contents by identity. -/
def contentMap (candidates : List (AskCandidate F)) : ExtTreeMap String String strCmp :=
  candidates.foldl (fun contents candidate =>
    contents.insert candidate.memoryId candidate.content) ∅

/-- Cite a passage, provided that its source has this text there. -/
def citeSpan (contents : ExtTreeMap String String strCmp) (span : AskSpan F) (index : ℕ) :
    Except String (AskCitation F) :=
  match slice (contents[span.memoryId]?.getD "") span.byteStart span.byteEnd with
  | none => .error "extractiveness: span range is not a valid slice of the source"
  | some originalText =>
    if originalText ≠ span.text then
      .error "extractiveness: emitted span does not byte-equal source"
    else
      .ok
        { index
          memoryId := span.memoryId
          byteStart := span.byteStart
          byteEnd := span.byteEnd
          text := span.text
          provenanceUri := span.provenanceUri
          trustClass := span.trustClass
          confidence := span.memoryConfidence
          teamProvenance := span.teamProvenance }

/-- Cite passages, numbered from `index` on. -/
def citeSpans (contents : ExtTreeMap String String strCmp) :
    List (AskSpan F) → ℕ → Except String (List (AskCitation F))
  | [], _ => .ok []
  | span :: rest, index => do
    let citation ← citeSpan contents span index
    let citations ← citeSpans contents rest (index + 1)
    return citation :: citations

def composeAnswer (clusters : List (AskSpan F)) (maxN : ℕ)
    (contents : ExtTreeMap String String strCmp) :
    Except String (String × List (AskCitation F)) := do
  let citations ← citeSpans contents (clusters.take maxN) 1
  return (joinSpace (citations.map fun citation =>
    "[" ++ toString citation.index ++ "] " ++ citation.text), citations)

/-- The passages of the two sides of a conflict, with their labels. -/
def conflictSides (linked : Bool) (anchor : AskSpan F) (others : List (AskSpan F)) :
    (List (AskSpan F) × String) × (List (AskSpan F) × String) :=
  if linked then
    (([anchor], "query_match"), (others.take 1, "linked_opposition"))
  else
    match others.find? fun span => numericConflict rules anchor.text span.text with
    | some alternative =>
      let label := if orderingConflicts anchor.text alternative.text
        then "ordering_alternative" else "numeric_alternative"
      (([anchor], "query_match"), ([alternative], label))
    | none =>
      let related := (anchor :: others).filter fun span =>
        sameNumericContext rules anchor.text span.text
          && sameConflictTopic F (tokenizeForAsk rules anchor.text)
            (tokenizeForAsk rules span.text)
      ((related.filter fun span => !hasNegation rules span.text, "affirming"),
        (related.filter fun span => hasNegation rules span.text, "negating"))

def composeSide (contents : ExtTreeMap String String strCmp) (maxN : ℕ)
    (side : List (AskSpan F) × String) : Except String (AskSide F) := do
  let (answerText, citations) ← composeAnswer side.1 maxN contents
  return ⟨side.2, answerText, citations⟩

/-! ## Evaluation -/

variable (scorer : SpanScorer F)

/-- The scored passages of a candidate. -/
def spansOf (questionTerms : List String) (candidate : AskCandidate F) : List (AskSpan F) :=
  (passages rules.isUppercase candidate.content).map fun (range, text) =>
    { memoryId := candidate.memoryId
      byteStart := range.1
      byteEnd := range.2
      text
      score := passageScore scorer questionTerms candidate text
      trustClass := candidate.trustClass
      memoryConfidence := candidate.confidence
      provenanceUri := candidate.provenanceUri
      teamProvenance := candidate.teamProvenance }

/-- All passages, best first. -/
def rankedSpans (questionTerms : List String) (candidates : List (AskCandidate F)) :
    List (AskSpan F) :=
  sortBy AskSpan.cmp (candidates.flatMap (spansOf rules scorer questionTerms))

/-- The evidence nearest to an answer. -/
def nearestEvidence (maxN : ℕ) (allSpans : List (AskSpan F)) : List (AskNearestEvidence F) :=
  (allSpans.take (min maxN 3)).map fun span =>
    ⟨span.memoryId, span.byteStart, span.byteEnd, span.text, span.score⟩

/-- What an abstention says about the evidence. -/
def counterfactualHint (question : String) : List (AskNearestEvidence F) → String
  | [] => "no memory mentions " ++ trim question
      ++ "; the corpus has no stored evidence for this question"
  | nearest :: _ => "no memory reaches the confidence threshold for \"" ++ trim question
      ++ "\"; nearest evidence: \"" ++ String.ofList (nearest.text.toList.take 80) ++ "…\""

/-- The link between the two sides of an explicit conflict, or else the clusters. -/
def gatherEvidence (request : AskRequest F) (supportGroups : ExtTreeMap String String strCmp)
    (allSpans : List (AskSpan F)) : Option (AskContradiction F) × List (AskSpan F) :=
  match explicitConflict request allSpans with
  | some (link, anchor, opposing) => (some link, [anchor, opposing])
  | none => (none, clusterSpansWithGroups rules allSpans supportGroups)

/-- A report without an answer. -/
def blankReport (request : AskRequest F) (confidence : F)
    (confidenceComponents : AskConfidenceComponents F)
    (semanticDegraded conflictDetected : Bool) (candidatesScanned : ℕ) : AskReport F where
  nativeSources := ∅
  question := request.question
  abstained := false
  answerText := none
  confidence
  confidenceComponents
  citations := []
  sides := none
  nearestEvidence := none
  counterfactualHint := none
  semanticDegraded
  conflictDetected
  conflictLink := none
  extractivenessViolated := false
  candidatesScanned

/-- Abstain, with the evidence that comes nearest. -/
def abstain (request : AskRequest F) (allSpans : List (AskSpan F)) (blank : AskReport F) :
    AskReport F :=
  let nearest := nearestEvidence (max request.maxEvidence 1) allSpans
  { blank with
    abstained := true
    nearestEvidence := some nearest
    counterfactualHint := some (counterfactualHint request.question nearest) }

/-- Complete a report from the clusters that reach the floor. -/
def completeReport (request : AskRequest F) (contents : ExtTreeMap String String strCmp)
    (allSpans : List (AskSpan F)) (conflictLink : Option (AskContradiction F))
    (clusters : List (AskSpan F)) (blank : AskReport F) : AskReport F :=
  let maxN := max request.maxEvidence 1
  match clusters with
  | [] => abstain request allSpans blank
  | anchor :: others =>
    if !blank.conflictDetected && F32.lt blank.confidence request.minConfidence then
      abstain request allSpans blank
    else if blank.conflictDetected ∧ others ≠ [] then
      let (first, second) := conflictSides rules conflictLink.isSome anchor others
      match composeSide contents maxN first, composeSide contents maxN second with
      | .ok first, .ok second => { blank with sides := some [first, second], conflictLink }
      | _, _ => extractivenessFailureReport request blank.candidatesScanned
    else
      match composeAnswer (anchor :: others) maxN contents with
      | .ok (answerText, citations) =>
        { blank with answerText := some answerText, citations, conflictDetected := false }
      | .error _ => extractivenessFailureReport request blank.candidatesScanned

/-- The report on the passages of the admitted candidates. -/
def composeReport (request : AskRequest F) (semanticDegraded : Bool) (candidatesScanned : ℕ)
    (supportGroups : ExtTreeMap String String strCmp) (candidates : List (AskCandidate F)) :
    AskReport F :=
  let allSpans := rankedSpans rules scorer (tokenizeForAsk rules request.question) candidates
  let (conflictLink, clusters) := gatherEvidence rules request supportGroups allSpans
  let topSpanScore := (clusters.head?.map AskSpan.score).getD (F32.lit 0)
  let clusters := clusters.filter fun span => F32.le request.minConfidence span.score
  let conflictDetected := conflictLink.isSome || detectContradiction rules clusters
  let penalty := if conflictDetected then contradictionPenalty else F32.lit 0
  let topRawScore := (allSpans.head?.map AskSpan.score).getD (F32.lit 0)
  let corroboration := if F32.lt (F32.lit 0) topRawScore
    then F32.clamp (F32.div topSpanScore topRawScore) (F32.lit 1) corroborationCap else F32.lit 1
  let confidence := F32.clamp (F32.mul topSpanScore (F32.sub (F32.lit 1) penalty))
    (F32.lit 0) (F32.lit 1)
  completeReport rules request (contentMap candidates) allSpans conflictLink clusters
    (blankReport request confidence ⟨topSpanScore, corroboration, penalty⟩ semanticDegraded
      conflictDetected candidatesScanned)

def evaluateAskInner (request : AskRequest F) (candidates : List (AskCandidate F))
    (semanticDegraded : Bool) : Option (AskReport F) := do
  let selected ← selectCandidatesWithScorer rules scorer request
    (tokenizeForAsk rules request.question) candidates askCandidateScanCap
  match selected with
  | .error _ => return extractivenessFailureReport request candidates.length
  | .ok selected =>
    return composeReport rules scorer request semanticDegraded candidates.length
      (candidateSupportGroups rules candidates request.nativeSources) selected

end Evaluation

/-- The sources that a report shows. -/
def AskReport.visible (report : AskReport F) : List String :=
  report.citations.map AskCitation.memoryId
    ++ (report.sides.getD []).flatMap (fun side => side.citations.map AskCitation.memoryId)
    ++ (report.nearestEvidence.getD []).map AskNearestEvidence.memoryId

def attachSources (request : AskRequest F) (report : AskReport F) : AskReport F :=
  if report.extractivenessViolated then report
  else
    { report with
      nativeSources := request.nativeSources.filter fun id _ => id ∈ report.visible }

def requestIsValid (request : AskRequest F) : Bool := isUnit request.minConfidence

/-- Answer a question; `none` stands for a panic. -/
def evaluateAskScored (rules : AskRules) (scorer : SpanScorer F) (request : AskRequest F)
    (candidates : List (AskCandidate F)) (semanticDegraded : Bool) : Option (AskReport F) :=
  if !requestIsValid request || !validateSources request candidates then
    some (extractivenessFailureReport request candidates.length)
  else
    (evaluateAskInner rules scorer request candidates semanticDegraded).map (attachSources request)

/-! ## Citations are passages -/

/-- A passage stands in one of the candidates. -/
def Extractive (candidates : List (AskCandidate F)) (memoryId : String) (byteStart byteEnd : ℕ)
    (text : String) : Prop :=
  ∃ c ∈ candidates, c.memoryId = memoryId ∧ slice c.content byteStart byteEnd = some text

/-- A scored passage stands in one of the candidates. -/
def AskSpan.Located (candidates : List (AskCandidate F)) (span : AskSpan F) : Prop :=
  Extractive candidates span.memoryId span.byteStart span.byteEnd span.text

section Citations

variable {rules : AskRules} {scorer : SpanScorer F} {request : AskRequest F}
  {questionTerms : List String} {candidates : List (AskCandidate F)} {span : AskSpan F}
  {spans : List (AskSpan F)}

theorem mem_rankedSpans : span ∈ rankedSpans rules scorer questionTerms candidates ↔
    ∃ c ∈ candidates, span ∈ spansOf rules scorer questionTerms c := by
  rw [rankedSpans, StableSort.sortBy, List.mem_insertionSort, List.mem_flatMap]

omit [AskF32 F] in
theorem spansOf_spec {c : AskCandidate F} (h : span ∈ spansOf rules scorer questionTerms c) :
    c.memoryId = span.memoryId ∧ slice c.content span.byteStart span.byteEnd = some span.text ∧
      span.score = passageScore scorer questionTerms c span.text := by
  obtain ⟨p, hp, rfl⟩ := List.mem_map.mp h
  exact ⟨rfl, slice_of_mem_passages hp, rfl⟩

theorem located_of_mem_rankedSpans (h : span ∈ rankedSpans rules scorer questionTerms candidates) :
    span.Located candidates := by
  obtain ⟨c, hc, hsp⟩ := mem_rankedSpans.mp h
  obtain ⟨hid, hs, -⟩ := spansOf_spec hsp
  exact ⟨c, hc, hid, hs⟩

omit [AskF32 F] in
/-- The contents of candidates that an identity tells apart. -/
theorem contentMap_of_mem (hi : ∀ c ∈ candidates, ∀ c' ∈ candidates,
      c.memoryId = c'.memoryId → c = c') {c : AskCandidate F} (hc : c ∈ candidates) :
    (contentMap candidates)[c.memoryId]? = some c.content := by
  have hr : ∀ (r : List (AskCandidate F)) (cs : ExtTreeMap String String strCmp),
      (∀ d ∈ r, d.memoryId = c.memoryId → d.content = c.content) →
      (c ∈ r ∨ cs[c.memoryId]? = some c.content) →
      (r.foldl (fun cs d => cs.insert d.memoryId d.content) cs)[c.memoryId]? = some c.content := by
    intro r
    induction r with
    | nil => exact fun cs _ h => h.resolve_left List.not_mem_nil
    | cons d r ih =>
      intro cs hco h
      rw [List.foldl_cons]
      refine ih _ (fun e he => hco e (List.mem_cons_of_mem d he)) ?_
      rw [ExtTreeMap.getElem?_insert_ite]
      by_cases hid : d.memoryId = c.memoryId
      · exact Or.inr (by rw [if_pos hid, hco d List.mem_cons_self hid])
      · rw [if_neg hid]
        rcases h with h | h
        · rcases List.mem_cons.mp h with rfl | h
          · exact absurd rfl hid
          · exact Or.inl h
        · exact Or.inr h
  refine hr candidates ∅ (fun d hd hid => ?_) (Or.inl hc)
  rw [hi d hd c hc hid]

/-- A citation repeats a passage. -/
def AskCitation.Repeats (citation : AskCitation F) (span : AskSpan F) : Prop :=
  citation.memoryId = span.memoryId ∧ citation.byteStart = span.byteStart ∧
    citation.byteEnd = span.byteEnd ∧ citation.text = span.text

omit [AskF32 F] in
/-- **A passage of a candidate can be cited.** -/
theorem citeSpan_ok (hi : ∀ c ∈ candidates, ∀ c' ∈ candidates,
      c.memoryId = c'.memoryId → c = c') (hl : span.Located candidates) (index : ℕ) :
    ∃ ci, citeSpan (contentMap candidates) span index = .ok ci ∧ ci.Repeats span := by
  obtain ⟨c, hc, hid, hs⟩ := hl
  have hco := contentMap_of_mem hi hc
  rw [hid] at hco
  unfold citeSpan
  rw [hco, Option.getD_some, hs]
  simp only [ne_eq, not_true_eq_false, if_false]
  exact ⟨_, rfl, rfl, rfl, rfl, rfl⟩

omit [AskF32 F] in
theorem citeSpans_ok (hi : ∀ c ∈ candidates, ∀ c' ∈ candidates, c.memoryId = c'.memoryId → c = c') :
    ∀ (spans : List (AskSpan F)) (index : ℕ), (∀ span ∈ spans, span.Located candidates) →
      ∃ cs, citeSpans (contentMap candidates) spans index = .ok cs ∧ cs.length = spans.length ∧
        ∀ ci ∈ cs, ∃ span ∈ spans, ci.Repeats span := by
  intro spans
  induction spans with
  | nil => exact fun index _ => ⟨[], rfl, rfl, fun _ h => absurd h List.not_mem_nil⟩
  | cons span spans ih =>
    intro index hl
    obtain ⟨ci, hf, hr⟩ := citeSpan_ok hi (hl span List.mem_cons_self) index
    obtain ⟨cs, hci, hle, hre⟩ := ih (index + 1) fun other ho =>
      hl other (List.mem_cons_of_mem span ho)
    refine ⟨ci :: cs, ?_, ?_, ?_⟩
    · rw [citeSpans, hf]
      change (citeSpans _ _ _ >>= _) = _
      rw [hci]
      rfl
    · rw [List.length_cons, List.length_cons, hle]
    · intro other ho
      rcases List.mem_cons.mp ho with rfl | ho
      · exact ⟨span, List.mem_cons_self, hr⟩
      · obtain ⟨cit, hc, hr⟩ := hre other ho
        exact ⟨cit, List.mem_cons_of_mem span hc, hr⟩

omit [AskF32 F] in
theorem composeAnswer_ok (hi : ∀ c ∈ candidates, ∀ c' ∈ candidates,
      c.memoryId = c'.memoryId → c = c') (hl : ∀ span ∈ spans, span.Located candidates)
    (maxN : ℕ) :
    ∃ ate cs, composeAnswer spans maxN (contentMap candidates)
        = .ok (ate, cs) ∧ cs.length = min maxN spans.length ∧
      ∀ ci ∈ cs, ∃ span ∈ spans, ci.Repeats span := by
  obtain ⟨cs, hcit, hle, hr⟩ := citeSpans_ok hi (spans.take maxN) 1
    fun span hs => hl span (List.mem_of_mem_take hs)
  have hc := composeAnswer.eq_1 spans maxN (contentMap candidates)
  rw [hcit] at hc
  refine ⟨_, cs, hc, ?_, ?_⟩
  · rw [hle, List.length_take]
  · intro ci hci
    obtain ⟨span, hs, hre⟩ := hr ci hci
    exact ⟨span, List.mem_of_mem_take hs, hre⟩

end Citations

/-! ## The evidence -/

/-- What is used of `f32`: finite values compare, and a count is at least half of itself. -/
structure ComparesFinite (F : Type) [F32 F] : Prop where
  le_of_not_lt : ∀ x y : F, F32.isFinite x = true → F32.isFinite y = true → F32.lt x y = false →
    F32.le y x = true
  halves : HalvesCounts F

section Evidence

variable {rules : AskRules} {scorer : SpanScorer F} {request : AskRequest F}
  {questionTerms : List String} {candidates : List (AskCandidate F)}
  {allSpans others : List (AskSpan F)} {anchor opposing : AskSpan F}
  {supportGroups : ExtTreeMap String String strCmp}

theorem conflictScore_spec {as atr ot lc m s : F} (h : conflictScore as atr ot lc m = some s) :
    F32.isFinite as = true ∧ F32.isFinite m = true ∧ F32.le m s = true := by
  unfold conflictScore at h
  split at h
  · rename_i hf
    rw [List.all_eq_true] at hf
    simp only at h
    split at h
    · rename_i hle
      rw [← Option.some.inj h]
      exact ⟨hf as (by simp), hf m (by simp), hle⟩
    · cases h
  · cases h

omit [AskF32 F] in
theorem mem_of_bestByMemory {id : String} {span : AskSpan F}
    (h : (bestByMemory allSpans)[id]? = some span) : span ∈ allSpans := by
  have hal : ∀ (id : String) (span : AskSpan F), (bestByMemory allSpans)[id]? = some span →
      span ∈ allSpans := by
    unfold bestByMemory
    refine List.foldlRecOn (motive := fun b : ExtTreeMap String (AskSpan F) strCmp =>
      ∀ (id : String) (span : AskSpan F), b[id]? = some span → span ∈ allSpans) _ _
      (fun id span h => by rw [ExtTreeMap.getElem?_empty] at h; cases h) ?_
    intro b hb a ha id span hg
    rw [ExtTreeMap.getElem?_insertIfNew] at hg
    split at hg
    · rw [← Option.some.inj hg]
      exact ha
    · exact hb id span hg
  exact hal id span h

/-- The two sides of an explicit conflict reach the floor. -/
theorem explicitConflict_spec (hF : ComparesFinite F) {link : AskContradiction F}
    (h : explicitConflict request allSpans = some (link, anchor, opposing)) :
    anchor ∈ allSpans ∧ (∃ other ∈ allSpans, ∃ score, opposing = { other with score }) ∧
      F32.le request.minConfidence anchor.score = true ∧
      F32.le request.minConfidence opposing.score = true := by
  unfold explicitConflict at h
  cases allSpans with
  | nil => cases h
  | cons first rest =>
    simp only at h
    split at h
    · cases h
    · rename_i hfloor
      obtain ⟨link', -, hlink⟩ := List.exists_of_findSome?_eq_some h
      unfold linkedPair at hlink
      obtain ⟨otherId, -, hlink⟩ := Option.bind_eq_some_iff.mp hlink
      obtain ⟨other, hother, hlink⟩ := Option.bind_eq_some_iff.mp hlink
      obtain ⟨score, hscore, hlink⟩ := Option.bind_eq_some_iff.mp hlink
      cases hlink
      obtain ⟨hanchor, hminimum, hle⟩ := conflictScore_spec hscore
      refine ⟨List.mem_cons_self, ⟨other, mem_of_bestByMemory hother, score, rfl⟩, ?_, hle⟩
      exact hF.le_of_not_lt _ _ hanchor hminimum (by simpa using hfloor)

/-- The evidence consists of passages, and the sides of a link stay above the floor. -/
theorem gatherEvidence_spec (hF : ComparesFinite F) {link : Option (AskContradiction F)}
    {clusters : List (AskSpan F)}
    (h : gatherEvidence rules request supportGroups
      (rankedSpans rules scorer questionTerms candidates) = (link, clusters)) :
    (∀ span ∈ clusters, span.Located candidates) ∧
    (link.isSome = true → clusters.length = 2 ∧
      ∀ span ∈ clusters, F32.le request.minConfidence span.score = true) ∧
    (link = none → ∀ span ∈ clusters, ∃ c ∈ candidates, c.memoryId = span.memoryId ∧
      slice c.content span.byteStart span.byteEnd = some span.text ∧
      ∃ cluster ∈ sparseClusters rules clusterSimilarityThreshold
        (rankedSpans rules scorer questionTerms candidates) supportGroups,
        span = representative (rankedSpans rules scorer questionTerms candidates) cluster ∧
        span.score = corroborate (passageScore scorer questionTerms c span.text)
          cluster.supporting.length) := by
  unfold gatherEvidence at h
  split at h
  · rename_i link' anchor opposing hexplicit
    obtain ⟨hanchor, ⟨other, hother, score, rfl⟩, hanchorLe, hopposingLe⟩ :=
      explicitConflict_spec hF hexplicit
    cases h
    refine ⟨?_, fun _ => ⟨rfl, ?_⟩, fun hnone => by cases hnone⟩
    · intro span hspan
      simp only [List.mem_cons, List.not_mem_nil, or_false] at hspan
      rcases hspan with rfl | rfl
      · exact located_of_mem_rankedSpans hanchor
      · have hlocated := located_of_mem_rankedSpans hother
        exact hlocated
    · intro span hspan
      simp only [List.mem_cons, List.not_mem_nil, or_false] at hspan
      rcases hspan with rfl | rfl
      · exact hanchorLe
      · exact hopposingLe
  · cases h
    have hscored : ∀ span ∈ clusterSpansWithGroups rules
        (rankedSpans rules scorer questionTerms candidates) supportGroups,
        ∃ c ∈ candidates, c.memoryId = span.memoryId ∧
          slice c.content span.byteStart span.byteEnd = some span.text ∧
          ∃ cluster ∈ sparseClusters rules clusterSimilarityThreshold
            (rankedSpans rules scorer questionTerms candidates) supportGroups,
            span = representative (rankedSpans rules scorer questionTerms candidates) cluster ∧
            span.score = corroborate (passageScore scorer questionTerms c span.text)
              cluster.supporting.length := by
      intro span hspan
      obtain ⟨cluster, hcluster, rfl⟩ := mem_clusterWithGroups _ _ _ _ hspan
      obtain ⟨c, hc, hmem⟩ := mem_rankedSpans.mp (List.get_mem _ cluster.seed)
      obtain ⟨hid, hslice, hscore⟩ := spansOf_spec hmem
      refine ⟨c, hc, hid, hslice, cluster, hcluster, rfl, ?_⟩
      rw [representative, hscore]
    refine ⟨?_, fun hsome => absurd hsome Bool.false_ne_true, fun _ => hscored⟩
    intro span hspan
    obtain ⟨c, hc, hid, hslice, -⟩ := hscored span hspan
    exact ⟨c, hc, hid, hslice⟩

/-- **Neither side of a conflict is empty.**  The test that finds the conflict is the one that
collects the sides, and the best answer passes it against itself. -/
theorem conflictSides_spec (hF : HalvesCounts F) {l : Bool} (hot : others ≠ [])
    (h : l = true ∨ detectContradiction rules (anchor :: others) = true) :
    ((conflictSides rules l anchor others).1.1 ≠ [] ∧
      ∀ span ∈ (conflictSides rules l anchor others).1.1, span ∈ anchor :: others) ∧
    ((conflictSides rules l anchor others).2.1 ≠ [] ∧
      ∀ span ∈ (conflictSides rules l anchor others).2.1, span ∈ anchor :: others) := by
  have han : [anchor] ≠ [] ∧ ∀ span ∈ [anchor], span ∈ anchor :: others :=
    ⟨List.cons_ne_nil _ _, fun span hs => List.mem_singleton.mp hs ▸ List.mem_cons_self⟩
  unfold conflictSides
  split
  · refine ⟨han, ?_, fun span hs => List.mem_cons_of_mem _ (List.mem_of_mem_take hs)⟩
    simpa using hot
  · rename_i hl
    split
    · rename_i a hf
      have hm := List.mem_of_find?_eq_some hf
      refine ⟨han, List.cons_ne_nil _ _, fun span hs => ?_⟩
      rw [List.mem_singleton.mp hs]
      exact List.mem_cons_of_mem _ hm
    · rename_i hf
      obtain ⟨span, hs, ho⟩ : ∃ span ∈ others, contradicts rules anchor span = true := by
        have hd : detectContradiction rules (anchor :: others) = true := h.resolve_left hl
        obtain ⟨span, hs, ho⟩ := List.any_eq_true.mp hd
        rw [Bool.or_eq_true] at ho
        refine ⟨span, hs, ho.resolve_right ?_⟩
        simpa using List.find?_eq_none.mp hf span hs
      simp only [contradicts, Bool.and_eq_true, decide_eq_true_eq] at ho
      obtain ⟨⟨hpo, hc⟩, ht⟩ := ho
      generalize hr : ((anchor :: others).filter fun span =>
        sameNumericContext rules anchor.text span.text
          && sameConflictTopic F (tokenizeForAsk rules anchor.text)
            (tokenizeForAsk rules span.text)) = related
      have ha : anchor ∈ related := by
        rw [← hr, List.mem_filter, Bool.and_eq_true]
        exact ⟨List.mem_cons_self, sameNumericContext_self rules anchor.text,
          sameConflictTopic_self hF ht⟩
      have hspa : span ∈ related := by
        rw [← hr, List.mem_filter, Bool.and_eq_true]
        exact ⟨List.mem_cons_of_mem _ hs, hc, ht⟩
      have hsi : ∀ (p : AskSpan F → Bool) (k : AskSpan F), k ∈ related → p k = true →
          related.filter p ≠ [] ∧ ∀ span ∈ related.filter p, span ∈ anchor :: others := by
        intro p k hk hp
        refine ⟨List.ne_nil_of_mem (List.mem_filter.mpr ⟨hk, hp⟩), fun span hs => ?_⟩
        have hm := List.mem_of_mem_filter hs
        rw [← hr] at hm
        exact List.mem_of_mem_filter hm
      cases hn : hasNegation rules anchor.text with
      | true =>
        have hsp : hasNegation rules span.text = false := by
          rw [hn] at hpo
          simpa using hpo
        exact ⟨hsi _ span hspa (by rw [hsp]; rfl), hsi _ anchor ha hn⟩
      | false =>
        have hsp : hasNegation rules span.text = true := by
          rw [hn] at hpo
          simpa using hpo
        exact ⟨hsi _ anchor ha (by rw [hn]; rfl), hsi _ span hspa hsp⟩

end Evidence

/-! ## Outcomes -/

/-- How a report can end. -/
inductive AskOutcome where
  | failure
  | abstention
  | answer
  | conflict
  deriving DecidableEq

/-- The citations of an answer and of the sides of a conflict. -/
def AskReport.allCitations (report : AskReport F) : List (AskCitation F) :=
  report.citations ++ (report.sides.getD []).flatMap AskSide.citations

/-- The cited passage of a candidate opened a cluster of the passages, and with the independent
sources of the cluster it scores at least the floor. -/
def AskCitation.Reaches (rules : AskRules) (scorer : SpanScorer F) (request : AskRequest F)
    (spans : List (AskSpan F)) (groups : ExtTreeMap String String strCmp) (c : AskCandidate F)
    (citation : AskCitation F) : Prop :=
  ∃ cluster ∈ sparseClusters rules clusterSimilarityThreshold spans groups,
    citation.Repeats (spans.get cluster.seed) ∧ 0 < cluster.supporting.length ∧
    F32.le request.minConfidence
      (corroborate (scorer (tokenizeForAsk rules request.question) citation.text c.confidence
        c.trustClass) cluster.supporting.length) = true

/-- What a report with an outcome shows, when it is made from these passages and groups of
sources. -/
def AskReport.ShowsOf (rules : AskRules) (scorer : SpanScorer F) (request : AskRequest F)
    (candidates : List (AskCandidate F)) (spans : List (AskSpan F))
    (groups : ExtTreeMap String String strCmp) (report : AskReport F) : AskOutcome → Prop
  | .failure => report.extractivenessViolated = true ∧ report.answerText = none ∧
      report.citations = [] ∧ report.sides = none ∧ report.nearestEvidence = none
  | .abstention => report.extractivenessViolated = false ∧ report.abstained = true ∧
      report.answerText = none ∧ report.citations = [] ∧ report.sides = none
  | .answer => report.extractivenessViolated = false ∧ report.abstained = false ∧
      report.answerText.isSome = true ∧ report.sides = none ∧
      1 ≤ report.citations.length ∧ report.citations.length ≤ max 1 request.maxEvidence ∧
      ∀ citation ∈ report.citations, ∃ c ∈ candidates, c.memoryId = citation.memoryId ∧
        slice c.content citation.byteStart citation.byteEnd = some citation.text ∧
        citation.Reaches rules scorer request spans groups c
  | .conflict => report.extractivenessViolated = false ∧ report.abstained = false ∧
      report.answerText = none ∧ report.citations = [] ∧
      ∃ first second, report.sides = some [first, second] ∧ first.citations ≠ [] ∧
        second.citations ≠ []

/-- The passages of the admitted candidates, best first. -/
def admittedSpans (rules : AskRules) (scorer : SpanScorer F) (request : AskRequest F)
    (candidates : List (AskCandidate F)) : List (AskSpan F) :=
  match selectCandidatesWithScorer rules scorer request (tokenizeForAsk rules request.question)
      candidates askCandidateScanCap with
  | some (.ok selected) =>
    rankedSpans rules scorer (tokenizeForAsk rules request.question) selected
  | _ => []

/-- What a report with an outcome shows.  A cited passage of a single answer scores at least the
floor, with the support of the independent sources of its cluster. -/
def AskReport.Shows (rules : AskRules) (scorer : SpanScorer F) (request : AskRequest F)
    (candidates : List (AskCandidate F)) (report : AskReport F) (outcome : AskOutcome) : Prop :=
  report.ShowsOf rules scorer request candidates (admittedSpans rules scorer request candidates)
    (candidateSupportGroups rules candidates request.nativeSources) outcome

/-- Everything that a report shows is a passage. -/
structure AskReport.IsExtractive (candidates : List (AskCandidate F)) (report : AskReport F) :
    Prop where
  citations : ∀ citation ∈ report.allCitations,
    Extractive candidates citation.memoryId citation.byteStart citation.byteEnd citation.text
  nearest : ∀ evidence ∈ report.nearestEvidence.getD [],
    Extractive candidates evidence.memoryId evidence.byteStart evidence.byteEnd evidence.text

section Outcomes

variable {rules : AskRules} {scorer : SpanScorer F} {request : AskRequest F}
  {candidates : List (AskCandidate F)} {allSpans : List (AskSpan F)}
  {groups : ExtTreeMap String String strCmp} {report : AskReport F}

/-- A report has no two outcomes. -/
theorem AskReport.outcome_unique {o o' : AskOutcome}
    (h : report.Shows rules scorer request candidates o)
    (h' : report.Shows rules scorer request candidates o') : o = o' := by
  cases o <;> cases o' <;> simp only [AskReport.Shows, AskReport.ShowsOf] at h h' <;>
    first | rfl | exact absurd h (by simp_all)

omit [AskF32 F] in
theorem extractive_of_repeats {spans : List (AskSpan F)}
    (hl : ∀ span ∈ spans, span.Located candidates) {c : AskCitation F}
    (h : ∃ span ∈ spans, c.Repeats span) :
    Extractive candidates c.memoryId c.byteStart c.byteEnd c.text := by
  obtain ⟨span, hsp, hid, hs, he, ht⟩ := h
  rw [hid, hs, he, ht]
  exact hl span hsp

omit [AskF32 F] in
theorem composeSide_ok (hi : ∀ c ∈ candidates, ∀ c' ∈ candidates,
      c.memoryId = c'.memoryId → c = c') {maxN : ℕ} (hm : 1 ≤ maxN)
    {s : List (AskSpan F) × String} (hne : s.1 ≠ [])
    (hl : ∀ span ∈ s.1, span.Located candidates) :
    ∃ co, composeSide (contentMap candidates) maxN s = .ok co ∧
      co.citations ≠ [] ∧ ∀ ci ∈ co.citations,
        Extractive candidates ci.memoryId ci.byteStart ci.byteEnd ci.text := by
  obtain ⟨ate, cs, hco, hle, hr⟩ := composeAnswer_ok hi hl maxN
  refine ⟨⟨s.2, ate, cs⟩, ?_, ?_, ?_⟩
  · rw [composeSide, hco]
    rfl
  · have hp := List.length_pos_iff.mpr hne
    rw [← List.length_pos_iff, hle]
    omega
  · intro ci hc
    exact extractive_of_repeats hl (hr ci hc)

theorem nearestEvidence_extractive {questionTerms : List String} {maxN : ℕ} :
    ∀ ev ∈ nearestEvidence maxN (rankedSpans rules scorer questionTerms candidates),
      Extractive candidates ev.memoryId ev.byteStart ev.byteEnd ev.text := by
  intro ev he
  obtain ⟨span, hs, rfl⟩ := List.mem_map.mp he
  exact located_of_mem_rankedSpans (List.mem_of_mem_take hs)

/-- A report with an outcome other than a failure, in which everything shown is a passage. -/
structure AskReport.IsSettled (rules : AskRules) (scorer : SpanScorer F) (request : AskRequest F)
    (candidates : List (AskCandidate F)) (spans : List (AskSpan F))
    (groups : ExtTreeMap String String strCmp) (report : AskReport F) : Prop where
  outcome : ∃ outcome, outcome ≠ .failure ∧
    report.ShowsOf rules scorer request candidates spans groups outcome
  extractive : report.IsExtractive candidates

/-- A report that shows nothing yet. -/
structure AskReport.IsBlank (report : AskReport F) : Prop where
  abstained : report.abstained = false
  answerText : report.answerText = none
  citations : report.citations = []
  sides : report.sides = none
  nearestEvidence : report.nearestEvidence = none
  violated : report.extractivenessViolated = false

section Settled

variable {blank : AskReport F} {maxN : ℕ}

theorem settled_abstain (h : blank.IsBlank) (questionTerms : List String) :
    (abstain request (rankedSpans rules scorer questionTerms candidates) blank).IsSettled rules
      scorer request candidates allSpans groups := by
  have hc : (abstain request (rankedSpans rules scorer questionTerms candidates)
      blank).allCitations = [] := by
    simp only [AskReport.allCitations, abstain, h.citations, h.sides, Option.getD_none,
      List.flatMap_nil, List.append_nil]
  refine ⟨⟨.abstention, by decide, h.violated, rfl, h.answerText, h.citations, h.sides⟩, ?_,
    nearestEvidence_extractive⟩
  rw [hc]
  exact fun c hci => absurd hci List.not_mem_nil

theorem settled_conflict (h : blank.IsBlank) {first second : AskSide F}
    {conflictLink : Option (AskContradiction F)} (hfirst : first.citations ≠ [])
    (hsecond : second.citations ≠ [])
    (hcited : ∀ citation ∈ first.citations ++ second.citations, Extractive candidates
      citation.memoryId citation.byteStart citation.byteEnd citation.text) :
    ({ blank with sides := some [first, second], conflictLink } : AskReport F).IsSettled rules
      scorer request candidates allSpans groups := by
  refine ⟨⟨.conflict, by decide, h.violated, h.abstained, h.answerText, h.citations, first, second,
    rfl, hfirst, hsecond⟩, ?_, ?_⟩
  · intro citation hcitation
    refine hcited citation ?_
    simpa [AskReport.allCitations, h.citations] using hcitation
  · intro evidence hevidence
    simp only [h.nearestEvidence, Option.getD_none] at hevidence
    exact absurd hevidence List.not_mem_nil

/-- Passages that reach the floor, of which at least one is cited, make an answer. -/
theorem settled_answer (h : blank.IsBlank) {answerText : String} {spans : List (AskSpan F)}
    {citations : List (AskCitation F)} {conflictDetected : Bool} (hspans : spans ≠ [])
    (hlength : citations.length = min (max request.maxEvidence 1) spans.length)
    (hrepeats : ∀ citation ∈ citations, ∃ span ∈ spans, citation.Repeats span)
    (hscored : ∀ span ∈ spans, F32.le request.minConfidence span.score = true ∧
      ∃ c ∈ candidates, c.memoryId = span.memoryId ∧
        slice c.content span.byteStart span.byteEnd = some span.text ∧
        ∃ cluster ∈ sparseClusters rules clusterSimilarityThreshold allSpans groups,
          span = representative allSpans cluster ∧
          span.score = corroborate (passageScore scorer (tokenizeForAsk rules request.question) c
            span.text) cluster.supporting.length) :
    ({ blank with answerText := some answerText, citations, conflictDetected } :
      AskReport F).IsSettled rules scorer request candidates allSpans groups := by
  have hpos := List.length_pos_iff.mpr hspans
  have hfloor : ∀ citation ∈ citations, ∃ c ∈ candidates, c.memoryId = citation.memoryId ∧
      slice c.content citation.byteStart citation.byteEnd = some citation.text ∧
      citation.Reaches rules scorer request allSpans groups c := by
    intro citation hcitation
    obtain ⟨span, hspan, hrepeat⟩ := hrepeats citation hcitation
    obtain ⟨hle, c, hc, hcid, hslice, cluster, hcluster, hrep, hscore⟩ := hscored span hspan
    have hcluster' : citation.Repeats (allSpans.get cluster.seed) := by
      rw [hrep] at hrepeat
      exact hrepeat
    obtain ⟨hid, hstart, hend, htext⟩ := hrepeat
    refine ⟨c, hc, hcid.trans hid.symm, by rw [hstart, hend, htext, hslice], cluster, hcluster,
      hcluster', List.length_pos_iff.mpr (supporting_ne_nil _ _ _ _ hcluster), ?_⟩
    rw [hscore, ← htext] at hle
    exact hle
  refine ⟨⟨.answer, by decide, h.violated, h.abstained, rfl, h.sides, ?_, ?_, hfloor⟩, ?_, ?_⟩
  · simp only [hlength]
    omega
  · simp only [hlength]
    omega
  · intro citation hcitation
    have hmem : citation ∈ citations := by
      simpa [AskReport.allCitations, h.sides] using hcitation
    obtain ⟨c, hc, hid, hslice, -⟩ := hfloor citation hmem
    exact ⟨c, hc, hid, hslice⟩
  · intro evidence hevidence
    simp only [h.nearestEvidence, Option.getD_none] at hevidence
    exact absurd hevidence List.not_mem_nil

end Settled

/-- **The report on admitted candidates** is an abstention, an answer or a conflict. -/
theorem settled_composeReport (hF : ComparesFinite F) (hidentity : ∀ c ∈ candidates,
      ∀ c' ∈ candidates, c.memoryId = c'.memoryId → c = c') (semanticDegraded : Bool)
    (candidatesScanned : ℕ) (supportGroups : ExtTreeMap String String strCmp) :
    (composeReport rules scorer request semanticDegraded candidatesScanned supportGroups
      candidates).IsSettled rules scorer request candidates
        (rankedSpans rules scorer (tokenizeForAsk rules request.question) candidates)
        supportGroups := by
  obtain ⟨link, clusters, hevidence⟩ : ∃ link clusters, gatherEvidence rules request supportGroups
      (rankedSpans rules scorer (tokenizeForAsk rules request.question) candidates)
        = (link, clusters) := ⟨_, _, rfl⟩
  obtain ⟨hlocated, hlinked, hscored⟩ := gatherEvidence_spec hF hevidence
  unfold composeReport
  simp only [hevidence]
  have hkeptMem : ∀ span ∈ clusters.filter (fun span => F32.le request.minConfidence span.score),
      span ∈ clusters ∧ F32.le request.minConfidence span.score = true :=
    fun span hspan => List.mem_filter.mp hspan
  have hkeptLink : link.isSome = true →
      (clusters.filter fun span => F32.le request.minConfidence span.score).length = 2 := by
    intro hsome
    rw [List.filter_eq_self.mpr (hlinked hsome).2]
    exact (hlinked hsome).1
  generalize clusters.filter (fun span => F32.le request.minConfidence span.score) = kept
    at hkeptMem hkeptLink ⊢
  have hkeptLocated : ∀ span ∈ kept, span.Located candidates :=
    fun span hspan => hlocated span (hkeptMem span hspan).1
  generalize hreport : blankReport request _ _ semanticDegraded
    (link.isSome || detectContradiction rules kept) candidatesScanned = blank
  have hblank : blank.IsBlank := by
    rw [← hreport]
    exact ⟨rfl, rfl, rfl, rfl, rfl, rfl⟩
  have hdetects : blank.conflictDetected = (link.isSome || detectContradiction rules kept) := by
    rw [← hreport]
    rfl
  unfold completeReport
  cases kept with
  | nil => exact settled_abstain hblank _
  | cons anchor others =>
    simp only
    split
    · exact settled_abstain hblank _
    · split
      · rename_i hconflict
        obtain ⟨⟨hfirst, hfirstMem⟩, hsecond, hsecondMem⟩ :=
          @conflictSides_spec F _ rules others anchor hF.halves link.isSome hconflict.2
            (by rw [← Bool.or_eq_true, ← hdetects]; exact hconflict.1)
        generalize conflictSides rules link.isSome anchor others = sides
          at hfirst hfirstMem hsecond hsecondMem ⊢
        have hmax : 1 ≤ max request.maxEvidence 1 := Nat.le_max_right _ _
        obtain ⟨first, hcomposeFirst, hfirstCited, hfirstExtractive⟩ := composeSide_ok hidentity
          hmax hfirst fun span hspan => hkeptLocated span (hfirstMem span hspan)
        obtain ⟨second, hcomposeSecond, hsecondCited, hsecondExtractive⟩ := composeSide_ok
          hidentity hmax hsecond fun span hspan => hkeptLocated span (hsecondMem span hspan)
        rw [hcomposeFirst, hcomposeSecond]
        refine settled_conflict hblank hfirstCited hsecondCited ?_
        intro citation hcitation
        rcases List.mem_append.mp hcitation with hmem | hmem
        · exact hfirstExtractive citation hmem
        · exact hsecondExtractive citation hmem
      · rename_i hsingle
        -- A link keeps both of its sides, so that a single answer has none.
        have hnone : link = none := by
          cases link with
          | none => rfl
          | some found =>
            have hlength := hkeptLink rfl
            refine absurd ⟨?_, ?_⟩ hsingle
            · rw [hdetects]
              rfl
            · rintro rfl
              simp at hlength
        obtain ⟨answerText, citations, hcompose, hlength, hrepeats⟩ :=
          composeAnswer_ok hidentity hkeptLocated (max request.maxEvidence 1)
        rw [hcompose]
        refine settled_answer hblank (List.cons_ne_nil anchor others) hlength hrepeats ?_
        intro span hspan
        obtain ⟨hmem, hle⟩ := hkeptMem span hspan
        exact ⟨hle, hscored hnone span hmem⟩

omit [AskF32 F] in
theorem Extractive.mono {cs' : List (AskCandidate F)} (hs : candidates ⊆ cs')
    {memoryId text : String} {bs be : ℕ}
    (h : Extractive candidates memoryId bs be text) :
    Extractive cs' memoryId bs be text := by
  obtain ⟨c, hc, hci⟩ := h
  exact ⟨c, hs hc, hci⟩

theorem AskReport.ShowsOf.mono {cs' : List (AskCandidate F)}
    (hsu : candidates ⊆ cs') {outcome : AskOutcome}
    (h : report.ShowsOf rules scorer request candidates allSpans groups outcome) :
    report.ShowsOf rules scorer request cs' allSpans groups outcome := by
  cases outcome with
  | failure => exact h
  | abstention => exact h
  | answer =>
    obtain ⟨hv, ha, han, hs, hp, hle, hcit⟩ := h
    refine ⟨hv, ha, han, hs, hp, hle, fun ci hci => ?_⟩
    obtain ⟨c, hc, hf⟩ := hcit ci hci
    exact ⟨c, hsu hc, hf⟩
  | conflict => exact h

/-- Naming the sources does not change what is shown. -/
theorem AskReport.IsSettled.attachSources
    (h : report.IsSettled rules scorer request candidates allSpans groups) :
    (attachSources request report).IsSettled rules scorer request candidates allSpans groups := by
  unfold Ask.attachSources
  split
  · exact h
  · obtain ⟨⟨outcome, hne, hs⟩, hc, hn⟩ := h
    refine ⟨⟨outcome, hne, ?_⟩, hc, hn⟩
    cases outcome with
    | failure => exact hs
    | abstention => exact hs
    | answer => exact hs
    | conflict => exact hs

/-- Reports on valid input are settled; on invalid input they fail. -/
theorem evaluateAskScored_cases (hF : ComparesFinite F) (rules : AskRules) (scorer : SpanScorer F)
    (request : AskRequest F) (candidates : List (AskCandidate F)) (sd : Bool) :
    (¬ (requestIsValid request = true ∧ validateSources request candidates = true ∧
        ValidCandidates candidates) ∧
      evaluateAskScored rules scorer request candidates sd
        = some (extractivenessFailureReport request candidates.length)) ∨
    ((requestIsValid request = true ∧ validateSources request candidates = true ∧
        ValidCandidates candidates) ∧
      ∃ report, evaluateAskScored rules scorer request candidates sd = some report ∧
        report.IsSettled rules scorer request candidates
          (admittedSpans rules scorer request candidates)
          (candidateSupportGroups rules candidates request.nativeSources)) := by
  unfold evaluateAskScored
  split
  · rename_i hi
    refine Or.inl ⟨?_, rfl⟩
    rintro ⟨hr, hs, -⟩
    simp [hr, hs] at hi
  · rename_i hv
    simp only [Bool.or_eq_true, Bool.not_eq_true', not_or, Bool.not_eq_false] at hv
    unfold evaluateAskInner
    rcases selectCandidatesWithScorer_spec rules scorer request
        (tokenizeForAsk rules request.question) candidates askCandidateScanCap with
      ⟨hi, e, hselect⟩ | ⟨hcandidates, selected, hselect, hsub⟩
    · refine Or.inl ⟨fun h => hi h.2.2, ?_⟩
      rw [hselect]
      rfl
    · refine Or.inr ⟨⟨hv.1, hv.2, hcandidates⟩, ?_⟩
      have hid : ∀ c ∈ selected, ∀ c' ∈ selected, c.memoryId = c'.memoryId → c = c' :=
        fun c hc c' hc' => hcandidates.identity c (hsub c hc) c' (hsub c' hc')
      obtain ⟨⟨outcome, hne, hsh⟩, hci, hn⟩ :=
        (@settled_composeReport F _ rules scorer request selected hF hid sd candidates.length
          (candidateSupportGroups rules candidates request.nativeSources)).attachSources
      have hspans : admittedSpans rules scorer request candidates
          = rankedSpans rules scorer (tokenizeForAsk rules request.question) selected := by
        unfold admittedSpans
        rw [hselect]
      rw [hselect, hspans]
      refine ⟨_, rfl, ⟨outcome, hne, hsh.mono hsub⟩, ?_, ?_⟩
      · exact fun ci hcit => (hci ci hcit).mono hsub
      · exact fun ev he => (hn ev he).mono hsub

/-- What can be wrong with the input. -/
theorem invalid_input_iff (request : AskRequest F) (candidates : List (AskCandidate F)) :
    (isUnit request.minConfidence = false ∨ validateSources request candidates = false ∨
      (∃ c ∈ candidates, isUnit c.confidence = false) ∨
      ∃ c ∈ candidates, ∃ c' ∈ candidates, c.memoryId = c'.memoryId ∧ c ≠ c') ↔
    ¬ (requestIsValid request = true ∧ validateSources request candidates = true ∧
      ValidCandidates candidates) := by
  constructor
  · rintro h ⟨hr, hs, hca⟩
    rcases h with h | h | ⟨c, hc, h⟩ | ⟨c, hc, c', hc', hid, hne⟩
    · exact absurd (h.symm.trans hr) Bool.false_ne_true
    · exact absurd (h.symm.trans hs) Bool.false_ne_true
    · exact absurd (h.symm.trans (hca.confidence c hc)) Bool.false_ne_true
    · exact hne (hca.identity c hc c' hc' hid)
  · intro h
    by_contra hnone
    simp only [not_or, not_exists, not_and, Bool.not_eq_false] at hnone
    obtain ⟨hr, hs, hco, hi⟩ := hnone
    refine h ⟨hr, hs, hco, fun c hc c' hc' hid => ?_⟩
    exact Classical.not_not.mp (hi c hc c' hc' hid)

end Outcomes

/-- **Every report is extractive and has one outcome.**  It is a failure exactly when the floor
is outside the unit interval, a native source or a confidence is invalid, or two candidates
with one identity differ; and whatever it cites is a slice of a candidate. -/
theorem ask_report_extractive (hF : ComparesFinite F) (rules : AskRules) (scorer : SpanScorer F)
    (request : AskRequest F) (candidates : List (AskCandidate F)) (semanticDegraded : Bool) :
    ∃ report, evaluateAskScored rules scorer request candidates semanticDegraded = some report ∧
      (∃! outcome, report.Shows rules scorer request candidates outcome) ∧
      (report.Shows rules scorer request candidates .failure ↔
        isUnit request.minConfidence = false ∨ validateSources request candidates = false ∨
        (∃ c ∈ candidates, isUnit c.confidence = false) ∨
        ∃ c ∈ candidates, ∃ c' ∈ candidates, c.memoryId = c'.memoryId ∧ c ≠ c') ∧
      (∀ citation ∈ report.allCitations, Extractive candidates citation.memoryId
        citation.byteStart citation.byteEnd citation.text) ∧
      ∀ evidence ∈ report.nearestEvidence.getD [], Extractive candidates evidence.memoryId
        evidence.byteStart evidence.byteEnd evidence.text := by
  have hi := invalid_input_iff request candidates
  rcases evaluateAskScored_cases hF rules scorer request candidates semanticDegraded with
    ⟨hb, hr⟩ | ⟨hg, report, hr, hse⟩
  · have hs : (extractivenessFailureReport request candidates.length).Shows rules scorer
        request candidates .failure := ⟨rfl, rfl, rfl, rfl, rfl⟩
    refine ⟨_, hr, ⟨.failure, hs, fun o ho => AskReport.outcome_unique ho hs⟩, ?_, ?_, ?_⟩
    · exact iff_of_true hs (hi.mpr hb)
    · exact fun citation hc => absurd hc List.not_mem_nil
    · exact fun evidence he => absurd he List.not_mem_nil
  · obtain ⟨outcome, hne, hs⟩ := hse.outcome
    refine ⟨report, hr, ⟨outcome, hs, fun o ho => AskReport.outcome_unique ho hs⟩, ?_,
      hse.extractive.citations, hse.extractive.nearest⟩
    refine iff_of_false (fun hf => hne ?_) fun h => hi.mp h hg
    exact AskReport.outcome_unique hs hf

theorem comparesFinite_rat : ComparesFinite ℚ where
  le_of_not_lt x y _ _ h := by
    have hlt : ¬ x < y := of_decide_eq_false h
    exact decide_eq_true (not_lt.mp hlt)
  halves n hn := by
    have hp : (n : ℚ) ≠ 0 := Nat.cast_ne_zero.mpr hn.ne'
    change decide ((1 / 2 : ℚ) ≤ (n : ℚ) / (n : ℚ)) = true
    rw [div_self hp]
    exact decide_eq_true (by norm_num)

/-- A question about two notes that disagree. -/
theorem ask_report_extractive_format : ComparesFinite ℚ ∧
    ∃ report, evaluateAskScored asciiRules (fun _ _ confidence _ => confidence) formatQuestion
        [formatCandidate "a" "Run cargo fmt before a release.",
          formatCandidate "b" "Never run cargo fmt before a release."] true = some report ∧
      ∃! outcome, report.Shows asciiRules (fun _ _ confidence _ => confidence) formatQuestion
        [formatCandidate "a" "Run cargo fmt before a release.",
          formatCandidate "b" "Never run cargo fmt before a release."] outcome := by
  refine ⟨comparesFinite_rat, ?_⟩
  obtain ⟨report, hr, ho, -⟩ := ask_report_extractive comparesFinite_rat asciiRules
    (fun _ _ confidence _ => confidence) formatQuestion
    [formatCandidate "a" "Run cargo fmt before a release.",
      formatCandidate "b" "Never run cargo fmt before a release."] true
  exact ⟨report, hr, ho⟩

end Ask
