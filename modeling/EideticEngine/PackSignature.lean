/-
# Candidate signatures and order (`src/pack/mod.rs`)

What the selectors compare: the total order on candidates, the redundancy
signature of a candidate, and the two similarity measures of the program.  The
measures enter assembly through `PackEnv`; `PackEnv.ofTokenizer` plugs in the
program's own.
-/
import EideticEngine.PackLod
import EideticEngine.StableSort

namespace Pack

variable {F : Type}

/-! ## Order and certificates -/

/-- `compare_candidates`: better relevance, then better utility, then section,
then memory identifier. -/
def compareCandidates [F32 F] (left right : PackCandidate F) : Ordering :=
  (F32.totalCmp right.relevance left.relevance).then
    ((F32.totalCmp right.utility left.utility).then
      ((left.packSection.cmp right.packSection).then (left.memoryId.cmp right.memoryId)))

/-- `certificate_features`. -/
def certificateFeatures (candidate : PackCandidate F) : List String :=
  ["section:" ++ candidate.packSection.asStr]
    ++ (candidate.diversityKey.map (fun key => "diversity:" ++ key)).toList
    ++ ["memory:" ++ candidate.memoryId.toText]

/-- `mark_anti_pattern_first_candidate`. -/
def markAntiPatternFirstCandidate (candidate : PackCandidate F) : PackCandidate F :=
  if ("What NOT to do:".toList).isPrefixOf candidate.why.toList then candidate
  else
    { candidate with
      why := "What NOT to do: selected from the reserved anti-pattern/failure/risk slice "
        ++ "before action. "
        ++ candidate.why }

/-- `PackAssemblyOptions::effective_relevance_floor`. -/
def PackAssemblyOptions.effectiveRelevanceFloor [F32 F] (options : PackAssemblyOptions F) : F :=
  options.relevanceFloor.getD (F32.lit (5 / 100))

/-- `is_anti_pattern_first_candidate`. -/
def isAntiPatternFirstCandidate [F32 F] (candidate : PackCandidate F) (relevanceFloor : F) :
    Bool :=
  candidate.packSection == .failures && F32.le relevanceFloor candidate.relevance

/-- Two candidates that differ in their explanation at most. -/
structure SameRendering (a b : PackCandidate F) : Prop where
  memoryId : a.memoryId = b.memoryId
  packSection : a.packSection = b.packSection
  content : a.content = b.content
  estimatedTokens : a.estimatedTokens = b.estimatedTokens

theorem SameRendering.refl (a : PackCandidate F) : SameRendering a a :=
  ⟨rfl, rfl, rfl, rfl⟩

/-- Marking a candidate changes its explanation only. -/
theorem sameRendering_markAntiPatternFirstCandidate (candidate : PackCandidate F) :
    SameRendering (markAntiPatternFirstCandidate candidate) candidate := by
  unfold markAntiPatternFirstCandidate
  split
  · exact SameRendering.refl candidate
  · exact ⟨rfl, rfl, rfl, rfl⟩

/-! ## Signatures -/

/-- `normalize_redundancy_content`. -/
def normalizeRedundancyContent (content : String) : String :=
  RustText.joinSpace (RustText.splitWhitespace content)

/-- `char::is_ascii_alphanumeric`. -/
def isAsciiAlphanumeric (c : Char) : Bool :=
  ('0' ≤ c && c ≤ '9') || ('A' ≤ c && c ≤ 'Z') || ('a' ≤ c && c ≤ 'z')

/-- `char::to_ascii_lowercase`. -/
def toAsciiLowercase (c : Char) : Char :=
  if 'A' ≤ c ∧ c ≤ 'Z' then Char.ofNat (c.toNat + 32) else c

/-- `normalized_terms`: the lower-cased words without outer punctuation, sorted
and without repetition. -/
def normalizedTerms (content : String) : List String :=
  let terms := (RustText.splitWhitespace content).map fun term =>
    String.ofList ((((term.toList.dropWhile (fun c => !isAsciiAlphanumeric c)).rdropWhile
      (fun c => !isAsciiAlphanumeric c))).map toAsciiLowercase)
  ((terms.filter (· ≠ "")).insertionSort (· ≤ ·)).destutter (· ≠ ·)

/-- `CandidateSignature::from`. -/
def CandidateSignature.ofCandidate (candidate : PackCandidate F) : CandidateSignature :=
  let normalizedContent := normalizeRedundancyContent candidate.content
  { memoryId := candidate.memoryId
    diversityKey := candidate.diversityKey
    normalizedContent := normalizedContent
    contentTerms := normalizedTerms normalizedContent }

/-- `redact_pack_candidate`. -/
def redactPackCandidate (env : PackEnv F) (candidate : PackCandidate F) :
    PackCandidate F × List PackItemRedaction :=
  let (content, redactions) := env.redactPackItemContent candidate.content
  let estimatedTokens :=
    if redactions = [] then candidate.estimatedTokens
    else max (env.estimateTokensDefault content) 1
  ({ candidate with content := content, estimatedTokens := estimatedTokens }, redactions)

/-- The head of `MmrCandidate::from_candidate` and of
`FacilityCandidateProfile::from_candidate`: redact when output redaction is on. -/
def prepareCandidate (env : PackEnv F) (candidate : PackCandidate F)
    (outputRedactionEnabled : Bool) : PackCandidate F × List PackItemRedaction :=
  if outputRedactionEnabled then redactPackCandidate env candidate else (candidate, [])

/-- Redaction keeps the identity of a candidate. -/
@[simp] theorem prepareCandidate_memoryId (env : PackEnv F) (candidate : PackCandidate F)
    (en : Bool) :
    (prepareCandidate env candidate en).1.memoryId = candidate.memoryId := by
  unfold prepareCandidate redactPackCandidate
  split <;> rfl

/-! ## The program's similarity measures -/

/-- The two-pointer scan of `sorted_term_intersection_count`, with the length of
both lists as fuel. -/
def sortedTermIntersection : ℕ → List String → List String → ℕ
  | fuel + 1, l :: ls, r :: rs =>
    match compare l r with
    | .lt => sortedTermIntersection fuel ls (r :: rs)
    | .eq => sortedTermIntersection fuel ls rs + 1
    | .gt => sortedTermIntersection fuel (l :: ls) rs
  | _, _, _ => 0

/-- `sorted_term_intersection_count`. -/
def sortedTermIntersectionCount (left right : List String) : ℕ :=
  sortedTermIntersection (left.length + right.length) left right

/-- `content_overlap_similarity_terms`. -/
def contentOverlapSimilarityTerms [F32 F] (left right : List String) : F :=
  if left = [] ∨ right = [] then F32.lit 0
  else
    let intersection := sortedTermIntersectionCount left right
    let union := left.length + right.length - intersection
    if union = 0 then F32.lit 0 else F32.div (F32.castNat intersection) (F32.castNat union)

/-- Two diversity keys that are present and equal. -/
def sharesDiversityKey (candidate selected : CandidateSignature) : Bool :=
  candidate.diversityKey.isSome && selected.diversityKey == candidate.diversityKey

/-- `candidate_signature_similarity`. -/
def candidateSignatureSimilarity [F32 F] (candidate selected : CandidateSignature) : F :=
  if candidate.memoryId = selected.memoryId then F32.lit 1
  else if candidate.normalizedContent = selected.normalizedContent then F32.lit 1
  else
    let contentSimilarity : F :=
      contentOverlapSimilarityTerms candidate.contentTerms selected.contentTerms
    if sharesDiversityKey candidate selected then
      F32.clamp contentSimilarity (F32.lit (1 / 2)) (F32.lit (95 / 100))
    else contentSimilarity

/-- `facility_signature_similarity`. -/
def facilitySignatureSimilarity [F32 F] (candidate selected : CandidateSignature) : F :=
  if candidate.memoryId = selected.memoryId then F32.lit 1
  else if candidate.normalizedContent = selected.normalizedContent then F32.lit 1
  else
    let similarity : F :=
      if sharesDiversityKey candidate selected then
        F32.max (F32.lit 0) (F32.lit (85 / 100))
      else F32.lit 0
    F32.max similarity
      (contentOverlapSimilarityTerms candidate.contentTerms selected.contentTerms)

/-- The program's environment for a given tokenizer and redactor. -/
def PackEnv.ofTokenizer [F32 F] (estimateTokensDefault : String → ℕ)
    (tokenizerAvailable : Bool)
    (redactPackItemContent : String → String × List PackItemRedaction) : PackEnv F where
  estimateTokensDefault := estimateTokensDefault
  tokenizerAvailable := tokenizerAvailable
  redactPackItemContent := redactPackItemContent
  candidateSignatureSimilarity := Pack.candidateSignatureSimilarity
  facilitySignatureSimilarity := Pack.facilitySignatureSimilarity

end Pack
