import JointPlan.Plan.Traversal

/-!
# Sweeping over a plan

A pass visits the nodes of a plan in an order that is fixed before it starts.
Nodes that it adds are not visited, and nodes that it has removed by the time
their turn comes are left out.
-/

namespace JointPlan

inductive Direction where
  /-- Parents before children. -/
  | forward
  /-- The exact reverse. -/
  | backward
deriving DecidableEq

namespace Edit

variable {σ : Type}

/-- Visit every node with its operator, carrying a value along. -/
def sweep (direction : Direction) (visit : σ → NodeId → Op → Edit σ) (init : σ) : Edit σ := do
  let order ← ask Plan.topSort
  let order := match direction with
    | .forward => order
    | .backward => order.reverse
  order.foldlM (fun acc id => do
    match (← get).nodes.get? id with
    | none => return acc
    | some n => visit acc id n.op) init

end Edit

/-- A pass over a plan: what it does at a node, and what it does at the end. -/
structure Pass where
  name : String
  direction : Direction
  visit : NodeId → Op → Edit Unit
  finish : Edit Unit

namespace Pass

def run (pass : Pass) : Edit Unit := do
  Edit.sweep pass.direction (fun _ id op => pass.visit id op) ()
  pass.finish

end Pass

end JointPlan
