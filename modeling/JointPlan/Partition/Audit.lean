import JointPlan.Partition.Cut
import JointPlan.Plan.Validity

/-!
# Auditing compiled plans and partitions

Checks of what compilation and partitioning promise. Each one answers with the
first violation it finds, if there is one.
-/

namespace JointPlan

/-- A promise that is not kept. -/
inductive Violation where
  | noSingleSink (fault : Fault)
  | unreadable (step : String) (fault : Fault)
  | bareCrossing (name kind childName childKind : String)
  | unstoredCrossing (childName kind : String)
  | openingUnstored (name childKind : String)
  | repeatedNode (id : NodeId) (part : Nat)
  | uncovered (covered expected : Nat)
deriving DecidableEq

namespace Violation

def message : Violation → String
  | .noSingleSink fault => s!"single-sink invariant violated: {fault.message}"
  | .unreadable step fault => s!"{step}: {fault.message}"
  | .bareCrossing name kind childName childKind =>
    s!"edge {name} ({kind}) -> {childName} ({childKind}) crosses the MPC boundary without Close/Read"
  | .unstoredCrossing childName kind =>
    s!"boundary crossing into {childName} is not preceded by a Store (found {kind})"
  | .openingUnstored name childKind => s!"Open {name} feeds {childKind} instead of a Store"
  | .repeatedNode id part => s!"node {id.render} appears again in part {part}"
  | .uncovered covered expected =>
    s!"assertion `left == right` failed: partition covers {covered} nodes, DAG has {expected}"

end Violation

namespace Plan

/-- One reachable node has no children, and it delivers the result. -/
def auditSink (p : Plan) : Except Violation Unit := p.validate.mapError .noSingleSink

/-- An edge that changes the need for MPC leads from a store to a closing or a
read, and an opening feeds nothing but stores. -/
def auditEdge (p : Plan) (n : Node) (mpc : Bool) (child : NodeId) : Except Violation Unit := do
  let c ← (p.node child).mapError (.unreadable "child")
  let childMpc ← (p.requiresMpc child).mapError (.unreadable "requires_mpc")
  if mpc ≠ childMpc then
    match c.op with
    | .closing _ | .read => pure ()
    | _ => throw (.bareCrossing n.rel.name n.op.kind c.rel.name c.op.kind)
    if n.op ≠ .store then throw (.unstoredCrossing c.rel.name n.op.kind)
  if n.op = .opening ∧ c.op ≠ .store then throw (.openingUnstored n.rel.name c.op.kind)

/-- All edges that leave the node. -/
def auditNode (p : Plan) (id : NodeId) : Except Violation Unit := do
  let n ← (p.node id).mapError (.unreadable "node")
  let mpc ← (p.requiresMpc id).mapError (.unreadable "requires_mpc")
  n.children.toList.forM (p.auditEdge n mpc)

/-- All edges of the plan, in topological order. -/
def auditBoundaries (p : Plan) : Except Violation Unit := do
  (← p.topSort.mapError (.unreadable "top_sort")).forM p.auditNode

end Plan

namespace Partition

/-- The nodes of the parts, none of which may occur twice. -/
def coveredNodes (seen : NodeSet) : List (NodeId × Nat) → Except Violation NodeSet
  | [] => .ok seen
  | (id, part) :: rest =>
    if id ∈ seen then .error (.repeatedNode id part) else coveredNodes (seen.insert id) rest

/-- The parts hold every reachable node of the plan they were cut from, once. -/
def auditCoverage (pt : Partition) (p : Plan) : Except Violation Unit := do
  let numbered := pt.parts.zipIdx.flatMap fun (part, position) => part.nodes.map (·, position)
  let seen ← coveredNodes ∅ numbered
  if seen ≠ p.reachable then throw (.uncovered seen.size p.reachable.size)

end Partition

end JointPlan
