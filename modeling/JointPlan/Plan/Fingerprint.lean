import JointPlan.Digest.Blake3
import JointPlan.Json.Codec
import JointPlan.Json.Printer
import JointPlan.Plan.Traversal

/-!
# Fingerprints

The fingerprint of a plan is the digest of the JSON text of its reachable nodes
in topological order, labels and edges included.
-/

namespace JointPlan

namespace Json

def digest (j : Json) : String := Blake3.hexOfText j.render

end Json

namespace Plan

def fingerprint (p : Plan) : Except Fault String := do
  return (Json.ofList Node.toJson (← p.topNodes)).digest

end Plan

end JointPlan
