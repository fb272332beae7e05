import JointPlan.Plan.Traversal

/-!
# Deriving a whole plan anew

All nodes but the roots are derived in topological order, so that each one sees
the current relations of its inputs.
-/

namespace JointPlan

namespace Edit

/-- Apply `step` to every node with inputs, in topological order. -/
def forEachDerived (step : NodeId → Edit Unit) : Edit Unit := do
  let order ← ask Plan.topSort
  order.forM fun id => do
    if (← node id).op ≠ .create then step id

def refreshAll : Edit Unit := forEachDerived refresh

/-- Derive parameters and storage only. -/
def propagateStorage : Edit Unit := forEachDerived refreshStorage

end Edit

end JointPlan
