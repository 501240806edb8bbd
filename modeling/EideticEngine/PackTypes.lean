/-
# The data of a context pack (`src/pack/mod.rs`)

Candidates, selected items, omissions, the selection audit and the draft that
assembly returns, with the assembly options and the validation errors.  Fields
that assembly only copies from a candidate into its item and that nothing here
reads (score breakdown, lifecycle, freshness, origin, attempt family) are not
part of the model.
-/
import EideticEngine.F32
import EideticEngine.MachineInt
import EideticEngine.TypedId

namespace Pack

/-! ## Sections and profiles -/

/-- `PackSection`; the derived order is the order of declaration. -/
inductive PackSection where
  | proceduralRules
  | decisions
  | failures
  | evidence
  | artifacts
  deriving DecidableEq, Repr

namespace PackSection

/-- The discriminant, `section as usize`. -/
def index : PackSection → ℕ
  | proceduralRules => 0
  | decisions => 1
  | failures => 2
  | evidence => 3
  | artifacts => 4

/-- `PackSection::as_str`. -/
def asStr : PackSection → String
  | proceduralRules => "procedural_rules"
  | decisions => "decisions"
  | failures => "failures"
  | evidence => "evidence"
  | artifacts => "artifacts"

/-- The derived `Ord`. -/
def cmp (a b : PackSection) : Ordering := compare a.index b.index

end PackSection

/-- `ContextPackProfile`. -/
inductive ContextPackProfile where
  | compact
  | balanced
  | grounding
  | orientation
  | thorough
  | submodular
  deriving DecidableEq, Repr

/-! ## Errors, budget and options -/

/-- The variants of `PackValidationError` that assembly can return. -/
inductive PackValidationError where
  | emptyQuery
  | zeroTokenBudget
  | invalidRelevanceFloor
  | candidateRankOverflow
  deriving DecidableEq, Repr

/-- `TokenBudget`: a non-zero `u32`. -/
structure TokenBudget where
  maxTokens : ℕ
  pos : 0 < maxTokens
  le_u32Max : maxTokens ≤ u32Max
  deriving DecidableEq

/-- `TokenBudget::new` on a `u32`. -/
def TokenBudget.new (maxTokens : ℕ) (h : maxTokens ≤ u32Max) :
    Except PackValidationError TokenBudget :=
  if h0 : maxTokens = 0 then .error .zeroTokenBudget
  else .ok ⟨maxTokens, Nat.pos_of_ne_zero h0, h⟩

/-- `ArenaMode`. -/
inductive ArenaMode where
  | disabled
  | requestScoped
  | workspaceReuse
  deriving DecidableEq, Repr

/-- `PackLodBudgetShares`, in basis points. -/
structure PackLodBudgetShares where
  fullBasisPoints : ℕ
  truncatedPreviewBasisPoints : ℕ
  linkOnlyBasisPoints : ℕ
  deriving DecidableEq, Repr

/-- `PackLodBudgetShares::default_70_20_10`. -/
def PackLodBudgetShares.default702010 : PackLodBudgetShares :=
  ⟨7000, 2000, 1000⟩

/-- `PackAssemblyOptions`, without the redaction level that assembly never reads. -/
structure PackAssemblyOptions (F : Type) where
  includeCoverageFill : Bool := true
  includeAntiPatternFirst : Bool := true
  relevanceFloor : Option F := none
  outputRedactionEnabled : Bool := true
  lodBudgetShares : Option PackLodBudgetShares := some .default702010
  arenaMode : ArenaMode := .disabled

/-! ## Candidates -/

/-- `TrustClass`. -/
inductive TrustClass where
  | humanExplicit
  | peerHumanAttested
  | agentValidated
  | agentAssertion
  | cassEvidence
  | legacyImport
  deriving DecidableEq, Repr

/-- `PackTrustSignal`. -/
structure PackTrustSignal where
  trustClass : TrustClass
  subclass : Option String
  deriving DecidableEq, Repr

/-- `PackProvenance`. -/
structure PackProvenance where
  uri : String
  note : String
  deriving DecidableEq, Repr

/-- `PackCandidate`. -/
structure PackCandidate (F : Type) where
  memoryId : MemoryId
  packSection : PackSection
  content : String
  estimatedTokens : ℕ
  relevance : F
  utility : F
  provenance : List PackProvenance
  why : String
  diversityKey : Option String
  trust : PackTrustSignal

/-- `PackItemRedaction`. -/
structure PackItemRedaction where
  reason : String
  placeholder : String
  deriving DecidableEq, Repr

/-- `CandidateSignature`. -/
structure CandidateSignature where
  memoryId : MemoryId
  diversityKey : Option String
  normalizedContent : String
  contentTerms : List String
  deriving DecidableEq

/-- What assembly takes from outside: the tokenizer, the redactor and the two
similarity measures.  All of them are arbitrary functions here. -/
structure PackEnv (F : Type) where
  /-- `estimate_tokens_default`. -/
  estimateTokensDefault : String → ℕ
  /-- `cl100k_base_encoder().is_some()`. -/
  tokenizerAvailable : Bool
  /-- `redact_pack_item_content`. -/
  redactPackItemContent : String → String × List PackItemRedaction
  /-- `candidate_signature_similarity`. -/
  candidateSignatureSimilarity : CandidateSignature → CandidateSignature → F
  /-- `facility_signature_similarity`. -/
  facilitySignatureSimilarity : CandidateSignature → CandidateSignature → F

/-! ## Selected items and omissions -/

/-- `PackSelectionPhase`. -/
inductive PackSelectionPhase where
  | antiPatternFirst
  | strictMmr
  | coverageFill
  | facilityLocation
  deriving DecidableEq, Repr

/-- `PackDraftItem`. -/
structure PackDraftItem (F : Type) where
  rank : ℕ
  memoryId : MemoryId
  packSection : PackSection
  content : String
  estimatedTokens : ℕ
  relevance : F
  utility : F
  provenance : List PackProvenance
  why : String
  diversityKey : Option String
  trust : PackTrustSignal
  redactions : List PackItemRedaction
  selectedIn : PackSelectionPhase

/-- `PackDraftItem::from_selected_candidate`. -/
def PackDraftItem.fromSelectedCandidate {F : Type} (rank : ℕ) (candidate : PackCandidate F)
    (redactions : List PackItemRedaction) (selectedIn : PackSelectionPhase) :
    PackDraftItem F where
  rank := rank
  memoryId := candidate.memoryId
  packSection := candidate.packSection
  content := candidate.content
  estimatedTokens := candidate.estimatedTokens
  relevance := candidate.relevance
  utility := candidate.utility
  provenance := candidate.provenance
  why := candidate.why
  diversityKey := candidate.diversityKey
  trust := candidate.trust
  redactions := redactions
  selectedIn := selectedIn

/-- `PackOmissionReason`. -/
inductive PackOmissionReason where
  | tokenBudgetExceeded
  | redundantCandidate
  | belowRelevanceFloor
  | excludedByPolicy
  | excludedByFilter
  | contradictionSuppressed
  deriving DecidableEq, Repr

/-- `PackRejectionStage`. -/
inductive PackRejectionStage where
  | candidateFilter
  | selection
  deriving DecidableEq, Repr

/-- `PackOmission`. -/
structure PackOmission (F : Type) where
  memoryId : MemoryId
  estimatedTokens : ℕ
  relevance : F
  utility : F
  reason : PackOmissionReason
  rejectedAt : PackRejectionStage
  feasible : Bool
  couldFitWithBudget : Option ℕ

/-- `PackOmission::from_candidate_at`. -/
def PackOmission.fromCandidateAt {F : Type} (candidate : PackCandidate F)
    (reason : PackOmissionReason) (rejectedAt : PackRejectionStage)
    (couldFitWithBudget : Option ℕ) : PackOmission F where
  memoryId := candidate.memoryId
  estimatedTokens := candidate.estimatedTokens
  relevance := candidate.relevance
  utility := candidate.utility
  reason := reason
  rejectedAt := rejectedAt
  feasible := false
  couldFitWithBudget := couldFitWithBudget

/-- `PackOmission::from_candidate`. -/
def PackOmission.fromCandidate {F : Type} (candidate : PackCandidate F)
    (reason : PackOmissionReason) (couldFitWithBudget : Option ℕ) : PackOmission F :=
  .fromCandidateAt candidate reason .selection couldFitWithBudget

/-! ## The draft and its audit -/

/-- `PackSelectionObjective`. -/
inductive PackSelectionObjective where
  | mmrRedundancy
  | facilityLocation
  deriving DecidableEq, Repr

/-- `PackSelectionStep`. -/
structure PackSelectionStep (F : Type) where
  rank : ℕ
  memoryId : MemoryId
  marginalGain : F
  objectiveValue : F
  tokenCost : ℕ
  feasible : Bool
  coveredFeatures : List String

/-- `PackSelectedItem`. -/
structure PackSelectedItem where
  rank : ℕ
  memoryId : MemoryId
  tokenCost : ℕ
  feasible : Bool
  deriving DecidableEq

/-- `PackSelectionAudit`. -/
structure PackSelectionAudit (F : Type) where
  profile : ContextPackProfile
  objective : PackSelectionObjective
  algorithmId : String
  algorithmDescription : String
  candidateCount : ℕ
  selectedCount : ℕ
  omittedCount : ℕ
  budgetLimit : ℕ
  budgetUsed : ℕ
  totalObjectiveValue : F
  monotone : Bool
  submodular : Bool
  selectedItems : List PackSelectedItem
  steps : List (PackSelectionStep F)

/-- `PackRuleItem`. -/
structure PackRuleItem (F : Type) where
  rank : ℕ
  ruleId : String
  entityRevision : String
  packSection : PackSection
  content : String
  estimatedTokens : ℕ
  relevance : F
  utility : F
  provenance : List PackProvenance
  why : String
  trust : PackTrustSignal

/-- `PackEvidenceItem`. -/
structure PackEvidenceItem (F : Type) where
  rank : ℕ
  evidenceId : String
  entityRevision : String
  sessionId : String
  startLine : ℕ
  endLine : ℕ
  packSection : PackSection
  content : String
  estimatedTokens : ℕ
  relevance : F
  utility : F
  provenance : List PackProvenance
  why : String
  trust : PackTrustSignal

/-- `PackDraft`. -/
structure PackDraft (F : Type) where
  query : String
  budget : TokenBudget
  usedTokens : ℕ
  items : List (PackDraftItem F)
  evidenceItems : List (PackEvidenceItem F)
  ruleItems : List (PackRuleItem F)
  omitted : List (PackOmission F)
  selectionAudit : PackSelectionAudit F
  hash : Option String

/-- `PackDraft::selected_item_count`. -/
def PackDraft.selectedItemCount {F : Type} (draft : PackDraft F) : ℕ :=
  satAdd64 (satAdd64 draft.items.length draft.ruleItems.length) draft.evidenceItems.length

/-- `selected_items_from_draft_items`. -/
def selectedItemsFromDraftItems {F : Type} (items : List (PackDraftItem F)) :
    List PackSelectedItem :=
  items.map fun item => ⟨item.rank, item.memoryId, item.estimatedTokens, true⟩

/-- What an audit step says about its selected item. -/
def PackSelectionStep.selectedItem {F : Type} (step : PackSelectionStep F) :
    PackSelectedItem :=
  ⟨step.rank, step.memoryId, step.tokenCost, step.feasible⟩

/-- `trim_required`. -/
def trimRequired (value : String) (error : PackValidationError) :
    Except PackValidationError String :=
  let trimmed := RustText.trim value
  if trimmed = "" then .error error else .ok trimmed

end Pack
