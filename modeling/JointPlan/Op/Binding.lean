import JointPlan.Op

/-!
# Binding column parameters

An operator keeps copies of the columns it works on. When its inputs change, the
copies are bound anew: each takes over the column that now stands at its
position. Parameters are bound in their order; at the first one that cannot be
bound the fault is recorded, and it and all later ones stay as they were.
-/

namespace JointPlan

/-- A computation that goes on after a fault but binds nothing more. -/
abbrev Binding := StateM (Option Fault)

namespace Binding

/-- The result of `step`, or `old` after a fault. -/
def attempt {α : Type} (old : α) (step : Except Fault α) : Binding α := fun fault? =>
  match fault?, step with
  | none, .ok new => (new, none)
  | none, .error fault => (old, some fault)
  | some fault, _ => (old, some fault)

end Binding

namespace Op

/-- The input relation at a position, for an operator of the given kind. -/
def input (ins : List Relation) (position : Nat) (kind : String) : Except Fault Relation :=
  match ins[position]? with
  | some rel => .ok rel
  | none => .error (.missingInput kind position ins.length)

/-- Refuses when there is no input at the position. -/
def requireInput (ins : List Relation) (kind : String) (position : Nat) : Binding Unit :=
  .attempt () ((input ins position kind).map fun _ => ())

/-- The column of an input that stands where `c` stood. -/
def bindColumn (ins : List Relation) (kind : String) (position : Nat) (c : Column) :
    Binding Column :=
  .attempt c (do (← input ins position kind).columnAt c.index)

def bindColumns (ins : List Relation) (kind : String) (position : Nat) (cs : List Column) :
    Binding (List Column) := do
  requireInput ins kind position
  cs.mapM (bindColumn ins kind position)

def bindOperand (ins : List Relation) (kind : String) : Operand → Binding Operand
  | .column c => return .column (← bindColumn ins kind 0 c)
  | .scalar s => return .scalar s

/-- The operator with its column parameters bound to the columns of `ins`. -/
def rebind (ins : List Relation) (op : Op) : Binding Op :=
  let column := bindColumn ins op.kind
  let columns := bindColumns ins op.kind
  match op with
  | .create | .limit .. | .numRows .. | .collect .. | .opening | .closing .. | .store | .read
  | .persist | .send | .index .. | .shuffle | .squareRoot .. | .concat => return op
  | .project cs => return .project (← columns 0 cs)
  | .distinct cs => return .distinct (← columns 0 cs)
  | .arithmetic fn target operands appends => do
    requireInput ins op.kind 0
    let target ← if appends then pure target else column 0 target
    return .arithmetic fn target (← operands.mapM (bindOperand ins op.kind)) appends
  | .filterByColumn c against test =>
    return .filterByColumn (← column 0 c) (← column 0 against) test
  | .filterByScalar c scalar test => return .filterByScalar (← column 0 c) scalar test
  | .sortBy c increasing => return .sortBy (← column 0 c) increasing
  | .count groups name => return .count (← columns 0 groups) name
  | .sum groups c name => return .sum (← columns 0 groups) (← column 0 c) name
  | .mean groups c name weight =>
    return .mean (← columns 0 groups) (← column 0 c) name (← weight.mapM (column 0))
  | .stdDev groups c name => return .stdDev (← columns 0 groups) (← column 0 c) name
  | .sumCount groups c sumName countName =>
    return .sumCount (← columns 0 groups) (← column 0 c) sumName countName
  | .sumSquaresCount groups c sumName squaresName countName =>
    return .sumSquaresCount (← columns 0 groups) (← column 0 c) sumName squaresName countName
  | .variance groups total squares size name =>
    return .variance (← columns 0 groups) (← column 0 total) (← column 0 squares)
      (← column 0 size) name
  | .columnSums groups cs => return .columnSums (← columns 0 groups) (← columns 0 cs)
  | .join leftKeys rightKeys => return .join (← columns 0 leftKeys) (← columns 1 rightKeys)
  | .memberFilter c member isIn => return .memberFilter (← column 0 c) (← column 1 member) isIn
  | .columnUnion left right name =>
    return .columnUnion (← column 0 left) (← column 1 right) name

end Op

end JointPlan
