import JointPlan.ColumnType
import JointPlan.Inputs
import JointPlan.Party

/-!
# Faults

Everything that can go wrong while a plan is built, edited or compiled, one
constructor per cause. `Fault.message` is the only place where a fault is put
into words, and `Fault.category` groups the causes for callers that only need to
know what kind of defect it is.
-/

namespace JointPlan

/-- Why a plan operation was refused. -/
inductive Fault where
  -- Workflow shape
  | unknownRelation (name : String)
  | definedTwice (name : String)
  | lonelyConcat (name : String)
  | noRecipients (name : String)
  | noSink
  | sinkNotCollect (name kind : String)
  | manySinks (names : List String)
  | cycle (name : String)
  -- Graph structure
  | unknownNode (id : NodeId)
  | createWithInputs (name : String)
  | inputsMismatch (kind name : String) (inputs : Inputs)
  | noInputs (kind name : String)
  | missingInput (kind : String) (position available : Nat)
  | notUnary (action kind name : String)
  | alreadyWired (kind name : String)
  | noEdge (parent child : NodeId)
  | noSingleParent (name : String)
  | tooManyChildren (name : String) (count : Nat)
  | notFedBy (name : String) (parent : NodeId)
  | arityChange (kind newKind name : String)
  | closingWithoutInput (id : NodeId)
  | emptyConcat
  | nothingToCombine
  -- Schemas
  | noLoci
  | emptyLocus
  | unevenLoci (loci : List PartySet)
  | columnOutOfRange (position : Nat) (relation : String) (width : Nat)
  | noColumns (kind : String)
  | unionTypes (left : String) (leftType : ColumnType) (right : String) (rightType : ColumnType)
  | noOperands (column : String)
  | newColumnWithoutOperands (column : String)
  | newColumnWithoutColumns (column : String)
  | joinKeyCount (left right : String) (leftCount rightCount : Nat)
  | joinKeyTypes (left leftKey : String) (leftType : ColumnType)
      (right rightKey : String) (rightType : ColumnType)
  | concatWidths (first : String) (firstWidth : Nat) (other : String) (otherWidth : Nat)
  | columnNotFound (relation column : String)
  | typeMismatch (left right : ColumnType)
  -- Internal invariants
  | inputVanished (position : Nat) (id : NodeId)
  | tooFewColumns (relation : String) (width expected : Nat)
  -- Numbers of nodes
  | exhausted
deriving DecidableEq

namespace Fault

inductive Category where
  | invalidWorkflow
  | cycleDetected
  | structural
  | schema
  | columnNotFound
  | typeMismatch
  | invariant
  | overflow
deriving DecidableEq

def category : Fault → Category
  | unknownRelation .. | definedTwice .. | lonelyConcat .. | noRecipients .. | noSink
  | sinkNotCollect .. | manySinks .. => .invalidWorkflow
  | cycle .. => .cycleDetected
  | unknownNode .. | createWithInputs .. | inputsMismatch .. | noInputs .. | missingInput ..
  | notUnary .. | alreadyWired .. | noEdge .. | noSingleParent .. | tooManyChildren ..
  | notFedBy .. | arityChange .. | closingWithoutInput .. | emptyConcat
  | nothingToCombine => .structural
  | noLoci | emptyLocus | unevenLoci .. | columnOutOfRange .. | noColumns .. | unionTypes ..
  | noOperands .. | newColumnWithoutOperands .. | newColumnWithoutColumns .. | joinKeyCount ..
  | joinKeyTypes .. | concatWidths .. => .schema
  | columnNotFound .. => .columnNotFound
  | typeMismatch .. => .typeMismatch
  | inputVanished .. | tooFewColumns .. => .invariant
  | exhausted => .overflow

/-- What precedes the detail in the message of a fault. -/
def Category.heading : Category → String
  | .invalidWorkflow => "Invalid workflow: "
  | .structural => "Structural defect: "
  | .schema => "Schema error: "
  | .invariant => "Internal invariant failed: "
  | .cycleDetected | .columnNotFound | .typeMismatch | .overflow => ""

def detail : Fault → String
  | unknownRelation name => s!"unknown relation '{name}'"
  | definedTwice name => s!"relation '{name}' is defined twice"
  | lonelyConcat name => s!"concat '{name}' needs at least two inputs"
  | noRecipients name => s!"collect '{name}' has no recipients"
  | noSink => "workflow has no sink"
  | sinkNotCollect name kind => s!"sink '{name}' is a {kind}, expected Collect"
  | manySinks names => s!"workflow has {names.length} sinks: " ++ String.intercalate ", " names
  | cycle name => s!"Cycle detected at relation '{name}'"
  | unknownNode id => s!"unknown node {id.render}"
  | createWithInputs name => s!"'{name}': Create nodes are added with add_create"
  | inputsMismatch kind name inputs => s!"{kind} '{name}' cannot take inputs {inputs.render}"
  | noInputs kind name => s!"{kind} '{name}' has no inputs"
  | missingInput kind position available =>
    s!"{kind} expects an input relation at position {position}, got {available}"
  | notUnary action kind name => s!"{action}: {kind} '{name}' is not unary"
  | alreadyWired kind name => s!"{kind} '{name}' is already wired into the graph"
  | noEdge parent child => s!"no edge {parent.render} -> {child.render} to splice into"
  | noSingleParent name => s!"cannot remove '{name}': expected exactly one parent"
  | tooManyChildren name count => s!"cannot push '{name}' down: it has {count} children"
  | notFedBy name parent => s!"cannot push '{name}' down: its parent is not {parent.render}"
  | arityChange kind newKind name => s!"cannot replace {kind} with {newKind} on '{name}'"
  | closingWithoutInput id => s!"close {id.render} has no input"
  | emptyConcat => "concat without inputs"
  | nothingToCombine => "cannot combine storage of zero inputs"
  | noLoci => "stored_with must name at least one party set"
  | emptyLocus => "stored_with contains an empty party set"
  | unevenLoci loci =>
    "stored_with sets must have equal cardinality, got " ++ PartySet.renderAll loci
  | columnOutOfRange position relation width =>
    s!"column index {position} out of range for relation '{relation}' ({width} columns)"
  | noColumns kind => s!"{kind} over a relation without columns"
  | unionTypes left leftType right rightType =>
    s!"column union of {left} ({leftType.render}) and {right} ({rightType.render})"
  | noOperands column => s!"'{column}' has no operands"
  | newColumnWithoutOperands column => s!"new column '{column}' needs at least one operand"
  | newColumnWithoutColumns column => s!"new column '{column}' needs at least one column operand"
  | joinKeyCount left right leftCount rightCount =>
    s!"join of '{left}' and '{right}' pairs {leftCount} key columns with {rightCount}"
  | joinKeyTypes left leftKey leftType right rightKey rightType =>
    s!"join key {left}.{leftKey} is {leftType.render} but {right}.{rightKey} is {rightType.render}"
  | concatWidths first firstWidth other otherWidth =>
    s!"concat of '{first}' ({firstWidth} columns) and '{other}' ({otherWidth} columns)"
  | columnNotFound relation column => s!"Column '{column}' not found in relation '{relation}'"
  | typeMismatch left right => s!"Cannot combine column types {left.render} and {right.render}"
  | inputVanished position id => s!"input {position} of {id.render} vanished during push"
  | tooFewColumns relation width expected =>
    s!"relation '{relation}' has {width} columns, expected at least {expected}"
  | exhausted => "attempt to add with overflow"

def message (fault : Fault) : String := fault.category.heading ++ fault.detail

end Fault

end JointPlan
