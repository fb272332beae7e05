import JointPlan.Plan.Traversal

/-!
# Where a plan needs MPC

A node needs MPC when no single party may compute it from its inputs. The
operators at the border are fixed: `opening` and `closing` are joint steps,
`read` and `collect` are local ones, and `store` belongs to the side of the node
it stores.
-/

namespace JointPlan

namespace Plan

/-- Whether a node needs MPC, where `above` answers for the node that a store
stores. -/
def requiresMpcGiven (p : Plan) (above : NodeId → Except Fault Bool) (id : NodeId) :
    Except Fault Bool := do
  let n ← p.node id
  match n.op with
  | .create => return Relation.requireMpc [n.rel]
  | .opening | .closing .. => return true
  | .read | .collect .. => return false
  | .store =>
    match n.inputs with
    | .unary parent => above parent
    | _ => return false
  | _ => return Relation.requireMpc (← p.inputRelations id)

/-- Whether a node needs MPC, looking through at most `depth` stores above it. -/
def requiresMpcWithin (p : Plan) : Nat → NodeId → Except Fault Bool
  | 0 => p.requiresMpcGiven fun _ => return false
  | depth + 1 => p.requiresMpcGiven (p.requiresMpcWithin depth)

/-- Whether a node needs MPC. A chain of stores is no longer than the plan. -/
def requiresMpc (p : Plan) (id : NodeId) : Except Fault Bool := p.requiresMpcWithin p.size id

/-- Whether none of the nodes needs MPC. They are asked in their order, up to
the first that does. -/
def noneRequiresMpc (p : Plan) : List NodeId → Except Fault Bool
  | [] => .ok true
  | id :: rest => do if ← p.requiresMpc id then return false else p.noneRequiresMpc rest

/-- The node enters MPC: it needs it and none of its parents does. -/
def isUpperBoundary (p : Plan) (id : NodeId) : Except Fault Bool := do
  if ← p.requiresMpc id then p.noneRequiresMpc (← p.node id).parents.toList else return false

/-- The node leaves MPC: it needs it and none of its children does. -/
def isLowerBoundary (p : Plan) (id : NodeId) : Except Fault Bool := do
  if ← p.requiresMpc id then p.noneRequiresMpc (← p.node id).children.toList else return false

end Plan

end JointPlan
