import JointPlan.Plan.Traversal

/-!
# Valid plans

A plan that can be run has no cycle and ends in one place: a single node without
children, which delivers the result.
-/

namespace JointPlan

namespace Plan

/-- The reachable nodes without children, by number. -/
def sinks (p : Plan) : List Node :=
  (p.reachable.toList.filterMap p.nodes.get?).filter Node.isLeaf

def validate (p : Plan) : Except Fault Unit := do
  discard p.topSort
  match p.sinks with
  | [] => throw .noSink
  | [sink] =>
    match sink.op with
    | .collect _ => return
    | op => throw (.sinkNotCollect sink.rel.name op.kind)
  | many => throw (.manySinks (many.map fun n => n.rel.name))

def isValid (p : Plan) : Bool :=
  match p.validate with
  | .ok _ => true
  | .error _ => false

end Plan

end JointPlan
