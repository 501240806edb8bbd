/-
# The plans of the query plan cache (`src/search/plan_cache.rs`)

Compiled plans are cached by the hash of the request, the version of the index manifest and the
hash of the search configuration.  An entry carries a hash over its plan tree: here are the keys,
the plans and the bytes that are fed to the hasher.
-/
import Mathlib
import EideticEngine.LittleEndian
import EideticEngine.MachineInt
import EideticEngine.RustText

namespace QueryPlans

open RustText

/-! ## Keys and plans -/

/-- `PlanCacheKey`. -/
structure PlanCacheKey where
  eqlHash : ℕ
  indexManifestVersion : ℕ
  searchConfigHash : ℕ
  deriving DecidableEq, Repr

/-- `EqlTagsMode`. -/
inductive EqlTagsMode where
  | any
  | all
  deriving DecidableEq, Repr

/-- `EqlTagsMode::as_str`. -/
def EqlTagsMode.asStr : EqlTagsMode → String
  | .any => "any"
  | .all => "all"

/-- `EqlSpeedMode`. -/
inductive EqlSpeedMode where
  | instant
  | default
  | quality
  deriving DecidableEq, Repr

/-- `EqlSpeedMode::as_str`. -/
def EqlSpeedMode.asStr : EqlSpeedMode → String
  | .instant => "instant"
  | .default => "default"
  | .quality => "quality"

/-- `EqlTimeFilter`. -/
structure EqlTimeFilter where
  since : Option String
  until_ : Option String
  deriving DecidableEq, Repr

/-- `EqlConfidenceFilter`; a float is its bit pattern. -/
structure EqlConfidenceFilter where
  min : Option ℕ
  max : Option ℕ
  deriving DecidableEq, Repr

/-- `EqlGraphFilter`. -/
structure EqlGraphFilter where
  center : Option String
  hops : Option ℕ
  relations : List String
  deriving DecidableEq, Repr

/-- `EqlQuery`. -/
structure EqlQuery where
  q : String
  workspace : Option String
  levels : List String
  kinds : List String
  tags : List String
  tagsMode : EqlTagsMode
  scope : List String
  time : Option EqlTimeFilter
  confidence : Option EqlConfidenceFilter
  graph : Option EqlGraphFilter
  limit : ℕ
  speed : EqlSpeedMode
  rerank : Bool
  returnSubgraph : Bool
  explain : Bool
  deriving DecidableEq, Repr

/-- `CompiledPlan`. -/
structure CompiledPlan where
  parsedQuery : EqlQuery
  boundIndex : Option String
  joinStrategy : Option String
  deriving DecidableEq, Repr

/-! ## The hash of a plan tree -/

/-- `hash_str`. -/
def hashStr (value : String) : List UInt8 :=
  leBytes 8 (asBytes value).length ++ asBytes value

/-- An optional value behind a flag. -/
def hashOptional {α : Type*} (hashValue : α → List UInt8) : Option α → List UInt8
  | some value => 1 :: hashValue value
  | none => [0]

/-- `hash_optional_str`. -/
def hashOptionalStr : Option String → List UInt8 := hashOptional hashStr

/-- `hash_str_list`. -/
def hashStrList (values : List String) : List UInt8 :=
  leBytes 8 values.length ++ values.flatMap hashStr

/-- `hash_optional_time_filter`. -/
def hashOptionalTimeFilter : Option EqlTimeFilter → List UInt8 :=
  hashOptional fun value => hashOptionalStr value.since ++ hashOptionalStr value.until_

/-- `hash_optional_f64`. -/
def hashOptionalF64 : Option ℕ → List UInt8 := hashOptional (leBytes 8)

/-- `hash_optional_confidence_filter`. -/
def hashOptionalConfidenceFilter : Option EqlConfidenceFilter → List UInt8 :=
  hashOptional fun value => hashOptionalF64 value.min ++ hashOptionalF64 value.max

/-- `hash_optional_graph_filter`. -/
def hashOptionalGraphFilter : Option EqlGraphFilter → List UInt8 :=
  hashOptional fun value =>
    hashOptionalStr value.center ++ hashOptional (leBytes 4) value.hops
      ++ hashStrList value.relations

/-- A flag as a byte. -/
def flagByte (flag : Bool) : List UInt8 := [if flag then 1 else 0]

/-- The bytes that `compute_plan_tree_hash` feeds to the hasher. -/
def planTreeBytes (key : PlanCacheKey) (plan : CompiledPlan) : List UInt8 :=
  let query := plan.parsedQuery
  asBytes "ee.search.plan_cache.tree.v1"
    ++ leBytes 8 key.eqlHash ++ leBytes 8 key.indexManifestVersion ++ leBytes 8 key.searchConfigHash
    ++ hashStr query.q ++ hashOptionalStr query.workspace ++ hashStrList query.levels
    ++ hashStrList query.kinds ++ hashStrList query.tags ++ asBytes query.tagsMode.asStr
    ++ hashStrList query.scope ++ hashOptionalTimeFilter query.time
    ++ hashOptionalConfidenceFilter query.confidence ++ hashOptionalGraphFilter query.graph
    ++ leBytes 4 query.limit ++ asBytes query.speed.asStr ++ flagByte query.rerank
    ++ flagByte query.returnSubgraph ++ flagByte query.explain
    ++ hashOptionalStr plan.boundIndex ++ hashOptionalStr plan.joinStrategy

end QueryPlans
