import JointPlan.Plan.Mpc
import JointPlan.Plan.Sweep

/-!
# Pulling labels up

Where a plan leaves MPC through an operator that can be undone, revealing its
output reveals its input too. So the output of the operator and that of its
parent may both be open to every party that stores the output.
-/

namespace JointPlan

namespace PushUp

open Edit

def loosenColumns (members : PartySet) (n : Node) : Node :=
  { n with rel := { n.rel with columns := n.rel.columns.map (·.loosen members) } }

def visit (id : NodeId) : Edit Unit := do
  let n ← node id
  match n.inputs with
  | .unary parent =>
    if ← ask fun p => p.isReversible id then
      if ← ask fun p => p.isLowerBoundary id then
        if !(← ask fun p => p.isRoot parent) then
          let members := n.rel.storage.members
          modifyNode id (loosenColumns members)
          modifyNode parent (loosenColumns members)
  | _ => return

end PushUp

namespace Pass

def pushUp : Pass where
  name := "push_up"
  direction := .backward
  visit id op := if op.arity = .unary then PushUp.visit id else return
  finish := return

end Pass

end JointPlan
