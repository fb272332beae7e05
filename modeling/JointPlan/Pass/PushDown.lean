import JointPlan.Plan.Mpc
import JointPlan.Plan.Refresh
import JointPlan.Plan.Surgery
import JointPlan.Plan.Sweep

/-!
# Pushing work below a concatenation

Work that follows a concatenation entering MPC is moved in front of it, where
each input is processed in the clear. Row-wise operators commute with the
concatenation and are swapped with it. Aggregates are split: a partial aggregate
per input, and a recombination after the concatenation, whose relation is named
with the ending `_obl`.
-/

namespace JointPlan

namespace PushDown

open Edit

/-- The only parent of a node, if it is a concatenation that enters MPC. -/
def boundaryConcat? (id : NodeId) : Edit (Option NodeId) := do
  let n ← node id
  match n.inputs with
  | .unary parent =>
    if n.parents.size ≠ 1 then return none
    if (← node parent).op ≠ .concat then return none
    return if ← ask fun p => p.isUpperBoundary parent then some parent else none
  | _ => return none

/-- The columns of a relation from `start` on, `count` of them. -/
def columnSlice (rel : Relation) (start count : Nat) : Except Fault (List Column) :=
  if start + count ≤ rel.columns.length then .ok ((rel.columns.drop start).take count)
  else .error (.tooFewColumns rel.name rel.columns.length (start + count))

/-- Add `op` as the only child of `after`, in front of its children so far. -/
def append (after : NodeId) (op : Op) (name : String) : Edit NodeId := do
  let id ← addOrphan op ((← node after).rel.rename name)
  insertAfterAll after id
  return id

/-- Swap a row-wise operator with the concatenation that feeds it. -/
def swap (id : NodeId) : Edit Unit := do
  match ← boundaryConcat? id with
  | none => return
  | some concat =>
    if (← node id).children.size = 1 then discard (pushDown concat id)

/-- The global half of an aggregate that sums the partial results. -/
def globalSum (rel : Relation) (width : Nat) (name : String) : Except Fault Op := do
  return .sum (← columnSlice rel 0 width) (← rel.columnAt width) name

/-- Split an aggregate into its partial half, which stays at the node, and what
is appended below it. Answers whether the operator is one that can be split. -/
def splitOp (id : NodeId) (n : Node) : Edit Bool := do
  let name := n.rel.name
  let last := s!"{name}_obl"
  match n.op with
  | .sum groups _ out => do
    discard (append id (← ask fun _ => globalSum n.rel groups.length out) last)
    return true
  | .count groups out => do
    discard (append id (← ask fun _ => globalSum n.rel groups.length out) last)
    return true
  | .numRows out => do
    discard (append id (← ask fun _ => globalSum n.rel 0 out) last)
    return true
  | .distinct _ => do
    discard (append id (.distinct n.rel.columns) last)
    return true
  | .mean groups column out none => do
    let g := groups.length
    replaceOp id (.sumCount groups column s!"{out}_sum" s!"{out}_count")
    let part := (← node id).rel
    let global ← ask fun _ => do
      return .mean (← columnSlice part 0 g) (← part.columnAt g) out (some (← part.columnAt (g + 1)))
    discard (append id global last)
    return true
  | .stdDev groups column out => do
    let g := groups.length
    replaceOp id (.sumSquaresCount groups column s!"{out}_sum" s!"{out}_squares" s!"{out}_count")
    let part := (← node id).rel
    let sums ← append id
      (← ask fun _ => do return .columnSums (← columnSlice part 0 g) (← columnSlice part g 3))
      s!"{name}_colsum"
    let summed := (← node sums).rel
    let spread ← append sums
      (← ask fun _ => do
        return .variance (← columnSlice summed 0 g) (← summed.columnAt g) (← summed.columnAt (g + 1))
          (← summed.columnAt (g + 2)) s!"{out}_var")
      s!"{name}_var"
    discard (append spread (.squareRoot out) last)
    return true
  | _ => return false

/-- Split an aggregate around the concatenation that feeds it. -/
def split (id : NodeId) : Edit Unit := do
  match ← boundaryConcat? id with
  | none => return
  | some concat =>
    let n ← node id
    if n.children.size = 1 then
      if ← splitOp id n then discard (pushDown concat id)

/-- Give every reader of a concatenation that enters MPC a copy of its own. -/
def fork (id : NodeId) : Edit Unit := do
  if 1 < (← node id).children.size then
    if ← ask fun p => p.isUpperBoundary id then discard (forkNode id)

def visit (id : NodeId) : Op → Edit Unit
  | .project .. | .arithmetic .. | .filterByColumn .. | .filterByScalar .. => swap id
  | .sum .. | .distinct .. | .count .. | .mean .. | .stdDev .. | .numRows .. => split id
  | .concat => fork id
  | _ => return

end PushDown

namespace Pass

def pushDown : Pass where
  name := "push_down"
  direction := .forward
  visit := PushDown.visit
  finish := Edit.refreshAll

end Pass

end JointPlan
