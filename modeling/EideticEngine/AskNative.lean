/-
# Sources of an answer

The requests and candidates of `src/core/ask.rs`, and the identity and lineage of their
sources in `src/core/ask_native.rs`.  A candidate that names a rule or an evidence span must
come with the record of that entity; passages that derive from one document, session, message
or memory are one vote.
-/
import EideticEngine.AskText
import EideticEngine.LeastForest

namespace Ask

open RustText (asBytes strCmp splitOnceChar stripTextPrefix)
open Provenance (ProvenanceUri)
open Std (ExtTreeMap)

/-! ## Requests and candidates -/

abbrev RuleId := TypedId "rule"

abbrev EvidenceId := TypedId "ev"

/-- The entity that a citation stands for. -/
inductive PackEntityRef where
  | memory (id : MemoryId)
  | rule (id : RuleId)
  | evidenceSpan (id : EvidenceId)
  deriving DecidableEq

def PackEntityRef.idString : PackEntityRef → String
  | memory id => id.toText
  | rule id => id.toText
  | evidenceSpan id => id.toText

structure AskNativeSource where
  entity : PackEntityRef
  entityRevision : String
  sourceMemoryIds : List String
  deriving DecidableEq

structure TeamProvenance where
  memberDisplayName : String
  projectName : Option String
  originTrustClass : String
  producedAt : String
  originTimeAssurance : String
  deriving DecidableEq

structure AskCandidate (F : Type) where
  memoryId : String
  content : String
  confidence : F
  trustClass : String
  provenanceUri : Option String
  level : String
  kind : String
  teamProvenance : Option TeamProvenance

/-- A stored contradiction between two memories. -/
structure AskContradiction (F : Type) where
  id : String
  srcMemoryId : String
  dstMemoryId : String
  confidence : F
  source : String

/-- `require_confidence` is read by the command line only. -/
structure AskRequest (F : Type) where
  question : String
  minConfidence : F
  maxEvidence : ℕ
  contradictions : List (AskContradiction F)
  nativeSources : ExtTreeMap String AskNativeSource strCmp

/-- How a passage is scored: the question's terms, the text, the confidence and the trust
class of its memory. -/
abbrev SpanScorer (F : Type) := List String → String → F → String → F

variable {F : Type}

/-! ## Identity -/

/-- A revision is a BLAKE3 hash in lower-case digits. -/
def validRevision (revision : String) : Bool :=
  (stripTextPrefix "blake3:" revision).any fun hash =>
    hash.utf8ByteSize = 64 && (asBytes hash).all fun b =>
      ('0'.toUInt8 ≤ b && b ≤ '9'.toUInt8) || ('a'.toUInt8 ≤ b && b ≤ 'f'.toUInt8)

/-- Whether a candidate is the entity that its record says. -/
def validSource (request : AskRequest F) (candidate : AskCandidate F) : Bool :=
  match request.nativeSources[candidate.memoryId]? with
  | none =>
    !(TypedId.fromStr "rule" candidate.memoryId).isOk
      && !(TypedId.fromStr "ev" candidate.memoryId).isOk
  | some source =>
    (match source.entity with
      | .memory _ => false
      | _ => true)
    && source.entity.idString = candidate.memoryId
    && validRevision source.entityRevision
    && source.sourceMemoryIds.all fun id => (TypedId.fromStr "mem" id).isOk

def validateSources (request : AskRequest F) (candidates : List (AskCandidate F)) : Bool :=
  candidates.all (validSource request)

/-! ## Lineage -/

/-- The key that the passages of one source share. -/
def sourceKey : ProvenanceUri → Option String
  | .cassSession session _ => some ("cass-session:" ++ session)
  | .file path _ => some ("file-source:" ++ path)
  | .web url =>
    some ("web-document:" ++ ((splitOnceChar '#' url).map Prod.fst).getD url)
  | .eeMemory parent => some parent.toText
  | .agentMail thread (some message) =>
    some ("agent-mail-message:" ++ toString thread.utf8ByteSize ++ ":" ++ thread ++ message)
  | .agentMail _ none => none
  | .external _ _ => none

/-- Join each visible rule with the memories that it derives from. -/
def joinDerivations (sources : ExtTreeMap String AskNativeSource strCmp) (ids : List String)
    (parents : LeastForest strCmp) : LeastForest strCmp :=
  (sources.toList.filter fun (id, _) => id ∈ ids).foldl
    (fun parents (id, source) => source.sourceMemoryIds.foldl (fun parents parent =>
      parents.join id parent) parents) parents

/-- Join each record with the key of its provenance. -/
def joinProvenance (rules : AskRules) (records : List (String × Option String))
    (parents : LeastForest strCmp) : LeastForest strCmp :=
  records.foldl (fun parents (id, provenanceUri) =>
    match provenanceUri with
    | none => parents
    | some uri =>
      match Provenance.fromStr rules.uuids uri with
      | .error _ => parents
      | .ok uri =>
        match sourceKey uri with
        | none => parents
        | some key => parents.join id key) parents

/-- The group of each record, named by its least key. -/
def sourceSupportGroups (rules : AskRules) (records : List (String × Option String))
    (sources : ExtTreeMap String AskNativeSource strCmp) : ExtTreeMap String String strCmp :=
  let ids := (StableSort.sortBy strCmp (records.map Prod.fst)).destutter (· ≠ ·)
  let parents := joinProvenance rules records (joinDerivations sources ids LeastForest.empty)
  if sources.isEmpty && parents.parents.isEmpty then ∅
  else
    (ids.foldl (fun (parents, groups) id =>
      let (top, parents) := parents.root id
      (parents, groups.insert id top)) (parents, (∅ : ExtTreeMap String String strCmp))).2

def candidateSupportGroups (rules : AskRules) (candidates : List (AskCandidate F))
    (sources : ExtTreeMap String AskNativeSource strCmp) : ExtTreeMap String String strCmp :=
  sourceSupportGroups rules
    (candidates.map fun candidate => (candidate.memoryId, candidate.provenanceUri)) sources

/-- The group that a passage counts for. -/
def supportKey (id : String) (groups : ExtTreeMap String String strCmp) : String :=
  groups[id]?.getD id

/-! ## Corroboration -/

section Corroboration

variable [AskF32 F]

/-- The most that corroboration multiplies a score by. -/
def corroborationCap : F := F32.lit (13 / 10)

/-- The multiplier for so many independent sources, before the cap. -/
def supportMultiplier (count : ℕ) : F :=
  F32.add (F32.lit 1) (F32.mul (F32.lit (1 / 10)) (AskF32.ln (F32.castNat count)))

end Corroboration

end Ask
