/-
# The graph of repair actions (`src/mesh/repair_action_graph.rs`)

Repair actions name the actions that must come first.  The builder checks the names, and then
takes away, layer by layer, the actions whose prerequisites are all placed: it counts for each
action the prerequisites that are not placed yet, with repetitions, and counts down when one is.
-/
import EideticEngine.ComparisonSort
import EideticEngine.KahnLayers
import EideticEngine.TextOrder

namespace RepairActionGraph

open RustText (strCmp)

/-! ## Actions -/

inductive ActionKind where
  | shellCommand
  | eeSubcommand
  | externalTool
  | manualStep
  deriving DecidableEq

inductive Priority where
  | critical
  | high
  | medium
  | low
  deriving DecidableEq

def Priority.sortKey : Priority → ℕ
  | critical => 0
  | high => 1
  | medium => 2
  | low => 3

inductive ExecutionContext where
  | userShell
  | eeSubcommand
  | externalTool
  deriving DecidableEq

structure ExpectedOutcome where
  resolvesChecks : List String
  preconditionsForNextActions : List String
  deriving DecidableEq

structure RepairAction where
  id : String
  kind : ActionKind
  command : String
  humanReadable : String
  prerequisites : List String
  expectedOutcome : ExpectedOutcome
  priority : Priority
  estimatedDurationSeconds : ℕ
  reversible : Bool
  reversalCommand : Option String
  requiresUserConfirmation : Bool
  executionContext : ExecutionContext
  deriving DecidableEq

inductive RepairActionGraphError where
  | duplicateActionId (id : String)
  | unknownPrerequisite («from» missing : String)
  | dependencyCycle (contains : String)
  deriving DecidableEq

structure Graph where
  schema : String
  actions : List RepairAction
  topologicallyOrderedExecution : List String
  parallelizableGroups : List (List String)
  estimatedTotalDurationSeconds : ℕ
  deriving DecidableEq

def repairActionGraphSchemaV1 : String := "ee.repair_action_graph.v1"

/-! ## Layers -/

/-- A map by id is the list of its actions in the order of the ids. -/
abbrev ById := List RepairAction

def ById.ids (byId : ById) : List String := byId.map RepairAction.id

def ById.get (byId : ById) (id : String) : Option RepairAction := byId.find? (·.id = id)

/-- The actions that name an id, once for each time that they do. -/
def ById.adjacency (byId : ById) (id : String) : List String :=
  byId.flatMap fun action => (action.prerequisites.filter (· = id)).map fun _ => action.id

/-- One prerequisite of a child fewer. -/
def countDown (inDegree : String → ℕ) (child : String) : String → ℕ :=
  if 0 < inDegree child then Function.update inDegree child (inDegree child - 1) else inDegree

/-- Place an action and count down its children. -/
def place (byId : ById) (state : Finset String × (String → ℕ)) (id : String) :
    Finset String × (String → ℕ) :=
  (insert id state.1, (byId.adjacency id).foldl countDown state.2)

/-- The place of an action within its layer. -/
def ById.rank (byId : ById) (id : String) : ℕ :=
  ((byId.get id).map fun action => action.priority.sortKey).getD 255

def ById.layerCmp (byId : ById) (a b : String) : Ordering :=
  (compare (byId.rank a) (byId.rank b)).then (strCmp a b)

/-- The loop of `kahn_layers`; a round places at least one action, so `fuel` is their number. -/
def kahnRounds (byId : ById) : ℕ → Finset String × (String → ℕ) → List (List String) →
    Option (Except RepairActionGraphError (List (List String)))
  | 0, _, _ => none
  | fuel + 1, (placed, inDegree), layers =>
    if placed.card < byId.length then
      let currentLayer := byId.ids.filter fun id => inDegree id = 0 ∧ id ∉ placed
      if currentLayer = [] then
        let cycleRoot := byId.ids.find? fun id => 0 < inDegree id ∧ id ∉ placed
        some (.error (.dependencyCycle (cycleRoot.getD "<unknown>")))
      else
        let currentLayer := currentLayer.insertionSort fun a b => byId.layerCmp a b ≠ .gt
        kahnRounds byId fuel (currentLayer.foldl (place byId) (placed, inDegree))
          (layers ++ [currentLayer])
    else some (.ok layers)

/-- The number of prerequisites of an id, with repetitions. -/
def ById.inDegree (byId : ById) (id : String) : ℕ :=
  ((byId.get id).map fun action => action.prerequisites.length).getD 0

def kahnLayers (byId : ById) : Option (Except RepairActionGraphError (List (List String))) :=
  kahnRounds byId (byId.length + 1) (∅, byId.inDegree) []

/-! ## The builder -/

/-- Put an action in its place; an id that is there already is not replaced. -/
def insertById (byId : ById) (action : RepairAction) : Option ById :=
  if action.id ∈ byId.ids then none
  else some (byId.orderedInsert (fun a b => strCmp a.id b.id ≠ .gt) action)

/-- The map by id, or the first id that comes twice. -/
def collectById : ById → List RepairAction → Except RepairActionGraphError ById
  | byId, [] => .ok byId
  | byId, action :: actions =>
    match insertById byId action with
    | none => .error (.duplicateActionId action.id)
    | some byId => collectById byId actions

/-- The first prerequisite that is not the id of an action. -/
def ById.unknown (byId : ById) : Option (String × String) :=
  (byId.flatMap fun action => action.prerequisites.map fun prereq => (action.id, prereq)).find?
    fun edge => edge.2 ∉ byId.ids

/-- The links to the actions that come next, unless the caller has given them. -/
def ById.withLinks (byId : ById) (action : RepairAction) : RepairAction :=
  if action.expectedOutcome.preconditionsForNextActions = [] then
    { action with expectedOutcome := { action.expectedOutcome with
        preconditionsForNextActions :=
          ((byId.adjacency action.id).insertionSort fun a b => strCmp a b ≠ .gt).destutter
            (· ≠ ·) } }
  else action

/-- The envelope of the layers. -/
def ById.graph (byId : ById) (topoGroups : List (List String)) : Graph :=
  let actionsOut := (byId.map byId.withLinks).insertionSort fun a b => strCmp a.id b.id ≠ .gt
  { schema := repairActionGraphSchemaV1
    actions := actionsOut
    topologicallyOrderedExecution := topoGroups.flatten
    parallelizableGroups := topoGroups
    estimatedTotalDurationSeconds := (actionsOut.map RepairAction.estimatedDurationSeconds).sum }

def buildRepairActionGraph (actions : List RepairAction) :
    Option (Except RepairActionGraphError Graph) :=
  match collectById [] actions with
  | .error error => some (.error error)
  | .ok byId =>
    match byId.unknown with
    | some («from», missing) => some (.error (.unknownPrerequisite «from» missing))
    | none => (kahnLayers byId).map fun layers => layers.map byId.graph

end RepairActionGraph
