/-
# Room for independent support

When the candidates exceed the budget of `src/core/ask_candidates.rs`, two passes rearrange
the ranked slots: `src/core/ask_candidate_diversity.rs` prefers the best candidate of each
lineage, and `src/core/ask_candidate_saturation.rs` gives the slots of redundant copies to
other bodies.  Both write their choice back over the slots, which must be as many as before.

A result `none` stands for a panic: a copy of another length, a subtraction below zero or an
index outside its vector.
-/
import EideticEngine.AskCoverage
import EideticEngine.AskNative

namespace Ask

open RustText (trim strCmp)
open StableSort (sortBy)
open Std (ExtTreeMap)

/-! ## Ranked candidates -/

structure RankedCandidate (F : Type) where
  candidate : AskCandidate F
  score : F

variable {F : Type} [AskF32 F]

namespace RankedCandidate

def memoryId (entry : RankedCandidate F) : String := entry.candidate.memoryId

/-- Smaller is better. -/
def cmp (left right : RankedCandidate F) : Ordering :=
  (F32.totalCmp right.score left.score).then (strCmp left.memoryId right.memoryId)

/-- Put an entry at its place in a sorted list. -/
def place (entry : RankedCandidate F) (entries : List (RankedCandidate F)) :
    List (RankedCandidate F) :=
  entries.orderedInsert (fun a b => cmp a b ≠ .gt) entry

/-- `BTreeSet::insert`. -/
def insertInto (entry : RankedCandidate F) (best : List (RankedCandidate F)) :
    List (RankedCandidate F) :=
  if best.any fun other => cmp entry other = .eq then best else place entry best

/-- `BTreeSet::remove`. -/
def removeFrom (entry : RankedCandidate F) (best : List (RankedCandidate F)) :
    List (RankedCandidate F) :=
  best.filter fun other => cmp entry other ≠ .eq

end RankedCandidate

/-- `slice::copy_from_slice`. -/
def copyFromSlice {α : Type} (target source : List α) : Option (List α) :=
  if target.length = source.length then some source else none

/-- A subtraction that panics below zero. -/
def checkedSub (a b : ℕ) : Option ℕ := if b ≤ a then some (a - b) else none

section Passes

variable (rules : AskRules) (scorer : SpanScorer F) (questionTerms : List String)

/-- The score of a passage of a candidate. -/
def passageScore (candidate : AskCandidate F) (text : String) : F :=
  scorer questionTerms text candidate.confidence candidate.trustClass

def bestSpanScore (candidate : AskCandidate F) : F :=
  (passages rules.isUppercase candidate.content).foldl
    (fun best passage => F32.max best (passageScore scorer questionTerms candidate passage.2))
    (F32.lit 0)

def rankCandidate (candidate : AskCandidate F) : RankedCandidate F :=
  ⟨candidate, bestSpanScore rules scorer questionTerms candidate⟩

/-! ## The best of each kind -/

/-- The best candidate of each kind and the best of these, in order. -/
structure Frontier (F : Type) where
  representatives : ExtTreeMap String (RankedCandidate F) strCmp
  best : List (RankedCandidate F)

/-- Admit an entry under its key, and drop the worst one when there are too many. -/
def Frontier.admitEntry (keyOf : AskCandidate F → String) (limit : ℕ) (frontier : Frontier F)
    (entry : RankedCandidate F) : Frontier F :=
  let representatives := frontier.representatives.insert (keyOf entry.candidate) entry
  let best := entry.insertInto frontier.best
  if limit < best.length then
    match best.getLast? with
    | some worst => ⟨representatives.erase (keyOf worst.candidate), best.dropLast⟩
    | none => ⟨representatives, best⟩
  else ⟨representatives, best⟩

/-- Offer an entry: it replaces a worse one of its kind. -/
def Frontier.offer (keyOf : AskCandidate F → String) (limit : ℕ) (frontier : Frontier F)
    (entry : RankedCandidate F) : Frontier F :=
  match frontier.representatives[keyOf entry.candidate]? with
  | some previous =>
    if entry.cmp previous ≠ .lt then frontier
    else { frontier with best := previous.removeFrom frontier.best }.admitEntry keyOf limit entry
  | none => frontier.admitEntry keyOf limit entry

/-! ## Bundles of corroborating copies -/

/-- Copies that support one answer together; there is a first one. -/
structure Bundle (F : Type) where
  first : RankedCandidate F
  others : List (RankedCandidate F)

def Bundle.entries (bundle : Bundle F) : List (RankedCandidate F) := bundle.first :: bundle.others

def Bundle.cmp (left right : Bundle F) : Ordering := left.first.cmp right.first

/-- The inputs to the score of every passage. -/
structure SourceSignature where
  content : String
  confidenceBits : ℕ
  trustClass : String
  deriving DecidableEq

def sourceSignature (candidate : AskCandidate F) : SourceSignature :=
  ⟨candidate.content, AskF32.toBits candidate.confidence, candidate.trustClass⟩

def SourceSignature.cmp (left right : SourceSignature) : Ordering :=
  (strCmp left.content right.content).then
    ((compare left.confidenceBits right.confidenceBits).then
      (strCmp left.trustClass right.trustClass))

instance : Std.TransCmp SourceSignature.cmp :=
  have : Std.TransCmp fun l r : SourceSignature => strCmp l.content r.content :=
    ComparisonSort.transCmp_on SourceSignature.content
  have : Std.TransCmp fun l r : SourceSignature => compare l.confidenceBits r.confidenceBits :=
    ComparisonSort.transCmp_on SourceSignature.confidenceBits
  have : Std.TransCmp fun l r : SourceSignature => strCmp l.trustClass r.trustClass :=
    ComparisonSort.transCmp_on SourceSignature.trustClass
  inferInstanceAs (Std.TransCmp
    (compareLex (fun l r : SourceSignature => strCmp l.content r.content)
      (compareLex (fun l r => compare l.confidenceBits r.confidenceBits)
        fun l r => strCmp l.trustClass r.trustClass)))

/-- Take the first candidate of each lineage until there are enough. -/
def takeOrigins (groups : ExtTreeMap String String strCmp) (needed : ℕ) (score : F) :
    List (AskCandidate F) → List String → List (RankedCandidate F) → List (RankedCandidate F)
  | [], _, bundle => bundle
  | candidate :: rest, origins, bundle =>
    let key := supportKey candidate.memoryId groups
    if key ∈ origins then takeOrigins groups needed score rest origins bundle
    else
      let bundle := bundle ++ [⟨candidate, score⟩]
      if bundle.length = needed then bundle
      else takeOrigins groups needed score rest (key :: origins) bundle

/-- The best score of a passage that can corroborate: one with a term. -/
def supportScore (candidate : AskCandidate F) : F :=
  (passages rules.isUppercase candidate.content).foldl (fun best passage =>
    if tokenizeForAsk rules passage.2 = [] then best
    else
      let score := passageScore scorer questionTerms candidate passage.2
      if F32.isFinite score && F32.lt (F32.lit 0) score then F32.max best score else best)
    (F32.lit 0)

/-- The bundle of the candidates with one signature, if they can reach the floor together. -/
def signatureBundle (request : AskRequest F) (groups : ExtTreeMap String String strCmp)
    (maxSupport : ℕ) (signature : List (AskCandidate F)) : Option (Bundle F) :=
  match signature with
  | [] => none
  | first :: _ =>
    let score := bestSpanScore rules scorer questionTerms first
    if !F32.isFinite score || F32.le score (F32.lit 0) || F32.le request.minConfidence score then
      none
    else
      match (List.range' 2 (maxSupport - 1)).find? fun count =>
          F32.le request.minConfidence
            (F32.mul (supportScore rules scorer questionTerms first)
              (F32.min (supportMultiplier count) corroborationCap)) with
      | none => none
      | some needed =>
        let bundle := takeOrigins groups needed score signature [] []
        if bundle.length ≠ needed then none
        else
          match bundle with
          | [] => none
          | first :: others => some ⟨first, others⟩

/-- The best bundle of the candidates with one body. -/
def bodyBundle (request : AskRequest F) (groups : ExtTreeMap String String strCmp)
    (maxSupport : ℕ) (body : List (AskCandidate F)) : Option (Bundle F) :=
  (body.splitBy fun left right => sourceSignature left = sourceSignature right).foldl
    (fun best signature =>
      match signatureBundle rules scorer questionTerms request groups maxSupport signature with
      | none => best
      | some bundle =>
        if best.all fun previous => bundle.first.cmp previous.first = .lt then some bundle
        else best) none

/-- Keep a bundle among the best of its cost. -/
def keepBundle (limit : ℕ) (byCost : List (List (Bundle F))) (bundle : Bundle F) :
    Option (List (List (Bundle F))) :=
  let cost := bundle.entries.length
  match byCost[cost]? with
  | none => none
  | some frontier =>
    some (byCost.set cost ((sortBy Bundle.cmp (frontier ++ [bundle])).take (limit / cost)))

/-- Keep the best bundle of the candidates with one body. -/
def keepBody (request : AskRequest F) (groups : ExtTreeMap String String strCmp)
    (maxSupport limit : ℕ) (byCost : List (List (Bundle F))) (body : List (AskCandidate F)) :
    Option (List (List (Bundle F))) :=
  match bodyBundle rules scorer questionTerms request groups maxSupport body with
  | none => some byCost
  | some bundle => keepBundle limit byCost bundle

/-- Take a bundle whole if it fits. -/
def takeBundle (limit : ℕ) (selected : List (RankedCandidate F)) (bundle : Bundle F) :
    Option (List (RankedCandidate F)) := do
  let room ← checkedSub limit selected.length
  return if bundle.entries.length ≤ room then selected ++ bundle.entries else selected

def corroboratedAnswers (request : AskRequest F)
    (unique : ExtTreeMap String (AskCandidate F) strCmp) (admittedBodies : List String)
    (groups : ExtTreeMap String String strCmp) (limit supportLimit : ℕ) :
    Option (List (RankedCandidate F)) :=
  let maxSupport := min supportLimit limit
  if maxSupport < 2 then some []
  else do
    let candidates := unique.values.filter fun candidate =>
      trim candidate.content ≠ "" ∧ candidate.content ∉ admittedBodies
    let candidates := sortBy (fun left right =>
      ((sourceSignature left).cmp (sourceSignature right)).then
        (strCmp left.memoryId right.memoryId)) candidates
    let byCost ← (candidates.splitBy fun left right => left.content = right.content).foldlM
      (keepBody rules scorer questionTerms request groups maxSupport limit)
      (List.replicate (maxSupport + 1) [])
    (sortBy Bundle.cmp byCost.flatten).foldlM (takeBundle limit) []

/-! ## Distinct answers -/

/-- The entries that add support to a signature, and the redundant ones. -/
structure SlotSplit (F : Type) where
  support : ExtTreeMap SourceSignature (List String) SourceSignature.cmp
  retained : List (RankedCandidate F)
  redundant : List (RankedCandidate F)

/-- Look at one slot: an entry is redundant when its signature has support enough or counts its
lineage already. -/
def splitSlot (groups : ExtTreeMap String String strCmp) (supportLimit : ℕ) (split : SlotSplit F)
    (entry : RankedCandidate F) : SlotSplit F :=
  let signature := sourceSignature entry.candidate
  let origins := split.support[signature]?.getD []
  let key := supportKey entry.memoryId groups
  if supportLimit ≤ origins.length then
    { split with
      support := split.support.insert signature origins
      redundant := split.redundant ++ [entry] }
  else if key ∈ origins then
    { split with
      support := split.support.insert signature origins
      redundant := split.redundant ++ [entry] }
  else
    { split with
      support := split.support.insert signature (key :: origins)
      retained := split.retained ++ [entry] }

/-- How many independent copies reach the cap. -/
def supportLimit (F : Type) [AskF32 F] (slots : ℕ) : ℕ :=
  ((List.range' 1 (slots - 1)).find? fun count =>
    F32.le (corroborationCap : F) (supportMultiplier count)).getD slots

/-- Offer every candidate that is not blank and passes a test on its rank. -/
def bestByKey (keyOf : AskCandidate F → String) (limit : ℕ)
    (eligible : RankedCandidate F → Bool) (candidates : List (AskCandidate F)) : Frontier F :=
  candidates.foldl (fun frontier candidate =>
    let entry := rankCandidate rules scorer questionTerms candidate
    if trim candidate.content ≠ "" ∧ eligible entry then frontier.offer keyOf limit entry
    else frontier) ⟨∅, []⟩

/-- Whether a candidate with a new body reaches the floor alone. -/
def standsAlone (request : AskRequest F) (admittedBodies : List String)
    (entry : RankedCandidate F) : Bool :=
  entry.candidate.content ∉ admittedBodies && F32.isFinite entry.score
    && !F32.le entry.score (F32.lit 0) && !F32.lt entry.score request.minConfidence

/-- Give the slots of redundant copies to bodies that are not among the ranked. -/
def preserveDistinctAnswers (request : AskRequest F)
    (unique : ExtTreeMap String (AskCandidate F) strCmp)
    (groups : ExtTreeMap String String strCmp) (ranked : List (RankedCandidate F)) :
    Option (List (RankedCandidate F)) :=
  if ranked.length < 2 then some ranked
  else
    let limit := supportLimit F ranked.length
    let split := ranked.foldl (splitSlot groups limit) ⟨∅, [], []⟩
    if split.redundant = [] then some ranked
    else do
      let admittedBodies := ranked.map fun entry => entry.candidate.content
      let best := (bestByKey rules scorer questionTerms (fun candidate => candidate.content)
        split.redundant.length (standsAlone request admittedBodies) unique.values).best
      let retained := split.retained ++ best
      let available ← checkedSub ranked.length retained.length
      let corroborated ← corroboratedAnswers rules scorer questionTerms request unique
        (admittedBodies ++ best.map fun entry => entry.candidate.content) groups available limit
      let retained := retained ++ corroborated
      let spare ← checkedSub ranked.length retained.length
      copyFromSlice ranked (sortBy RankedCandidate.cmp (retained ++ split.redundant.take spare))

/-! ## Independent lineages -/

/-- Fill the selection from the ranking, without a memory twice. -/
def fillSlot (slots : ℕ) (selection : List (RankedCandidate F) × List String)
    (entry : RankedCandidate F) : List (RankedCandidate F) × List String :=
  if selection.1.length = slots then selection
  else if entry.memoryId ∈ selection.2 then selection
  else (selection.1 ++ [entry], entry.memoryId :: selection.2)

/-- Prefer the best candidate of each lineage. -/
def preserveIndependentSupport (request : AskRequest F)
    (unique : ExtTreeMap String (AskCandidate F) strCmp) (ranked : List (RankedCandidate F)) :
    Option (List (RankedCandidate F)) :=
  if ranked.length < 2 ∨ unique.size ≤ ranked.length then some ranked
  else
    let groups := candidateSupportGroups rules unique.values request.nativeSources
    if groups.isEmpty then
      preserveDistinctAnswers rules scorer questionTerms request unique groups ranked
    else do
      let minimum := F32.div request.minConfidence corroborationCap
      let best := (bestByKey rules scorer questionTerms
        (fun candidate => supportKey candidate.memoryId groups) ranked.length
        (fun entry => !F32.lt entry.score minimum) unique.values).best
      let selected :=
        (ranked.foldl (fillSlot ranked.length) (best, best.map RankedCandidate.memoryId)).1
      let ranked ← copyFromSlice ranked (sortBy RankedCandidate.cmp selected)
      preserveDistinctAnswers rules scorer questionTerms request unique groups ranked

end Passes

end Ask
