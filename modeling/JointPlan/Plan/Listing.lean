import JointPlan.Plan.Mpc
import JointPlan.Text.Pad

/-!
# Plan listings

A plan is shown with one line per node in topological order: its number, its
operator, its relation, where that is stored, and whether it runs under MPC.
-/

namespace JointPlan

namespace Plan

def explainLine (p : Plan) (id : NodeId) : Except Fault String := do
  let n ← p.node id
  let side := if ← p.requiresMpc id then "mpc" else "local"
  return Text.padLeft 4 (toString id) ++ "  " ++ Text.padRight 28 n.op.kind ++ " " ++
    Text.padRight 24 n.rel.name ++ " " ++ Text.padRight 16 n.rel.storage.render ++ " " ++ side ++ "\n"

def explain (p : Plan) : Except Fault String := do
  return String.join (← (← p.topSort).mapM p.explainLine)

end Plan

end JointPlan
