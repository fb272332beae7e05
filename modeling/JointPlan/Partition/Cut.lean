import JointPlan.Partition.Basic

/-!
# Cutting a plan into parts

Roots are taken by name. All roots that are stored in the same place start one
part; from each of them the part grows along the single child of its nodes as
long as the need for MPC stays the same. The edge where it changes is cut, and a
child left without parents becomes a root of a later part. The number of parts
is limited.
-/

namespace JointPlan

/-- The state of one round: the plan, the part so far, and roots for later. -/
structure Round where
  plan : Plan
  members : NodeSet
  candidates : NodeSet

namespace Round

/-- A lookup in the plan. -/
def lift {α : Type} (result : Except Fault α) : Except PartitionFault α :=
  result.mapError PartitionFault.plan

/-- Cut an edge of the plan. -/
def disconnect (r : Round) (parent child : NodeId) : Except PartitionFault Round :=
  match Edit.disconnect parent child r.plan with
  | .ok _ plan => .ok { r with plan }
  | .error fault _ => .error (.plan fault)

/-- Cut the edge where the need for MPC changes. -/
def cut (r : Round) (parent child : NodeId) : Except PartitionFault Round := do
  let r ← r.disconnect parent child
  if (← lift (r.plan.node child)).isRoot then
    return { r with candidates := r.candidates.insert child }
  else return r

/-- Grow the part along the chain of single children below `id`, which is in it.
A chain ends at a node of this part, of an earlier part (`assigned`), or where
the need for MPC changes. -/
def grow (assigned : NodeSet) (r : Round) (id : NodeId) : Except PartitionFault Round :=
  match r.plan.node id with
  | .error fault => .error (.plan fault)
  | .ok n =>
    match n.children.toList with
    | [] => .ok r
    | [child] =>
      if _ : child ∈ r.members then .ok r
      else if child ∈ assigned then r.disconnect id child
      else
        match r.plan.requiresMpc child, r.plan.requiresMpc id with
        | .error fault, _ => .error (.plan fault)
        | _, .error fault => .error (.plan fault)
        | .ok below, .ok above =>
          if below ≠ above then r.cut id child
          else
            match _ : r.plan.nodes.get? child with
            | none => .error (.plan (.unknownNode child))
            | some _ => grow assigned { r with members := r.members.insert child } child
    | _ => .error (.multipleChildren n.rel.name)
termination_by r.plan.nodes.unseen r.members
decreasing_by exact IdMap.unseen_insert_lt ‹_› ‹_›

/-- Grow the part from one of its roots. -/
def walk (assigned : NodeSet) (r : Round) (root : NodeId) : Except PartitionFault Round :=
  grow assigned { r with members := r.members.insert root } root

end Round

namespace Plan

open Round (lift)

/-- The backend that all roots of a part agree on. -/
def backendOf (p : Plan) (roots : List NodeId) : Except PartitionFault Backend := do
  let flags ← lift (roots.mapM fun id => do return ((← p.node id).rel.name, ← p.requiresMpc id))
  match flags with
  | [] => return .local
  | (_, first) :: _ =>
    if flags.all fun (_, flag) => flag = first then return .ofRequiresMpc first
    else throw (.mixedBackends flags)

/-- One part, started by the first of `root :: rest` and all others that are
stored in the same place. Also the roots that are left over, and the round in
its final state. -/
def cutPart (p : Plan) (assigned candidates : NodeSet) (root : NodeId) (rest : List NodeId) :
    Except PartitionFault (Part × List NodeId × Round) := do
  let storage := (← lift (p.node root)).rel.storage
  let stored ← lift (rest.mapM fun id => do return (id, (← p.node id).rel.storage))
  let (same, others) := stored.partition fun (_, st) => st = storage
  let roots := root :: same.map Prod.fst
  let round ← roots.foldlM (Round.walk assigned) ⟨p, ∅, candidates⟩
  let backend ← round.plan.backendOf roots
  let reached ← lift (round.plan.topSortFrom roots)
  return ({ roots, nodes := reached.filter (· ∈ round.members), backend },
    others.map Prod.fst, round)

/-- The roots to go on with and the candidates that are left: the candidates become the
roots when these are used up. -/
def nextRoots (p : Plan) (candidates : NodeSet) (roots : List NodeId) :
    Except PartitionFault (List NodeId × NodeSet) :=
  if roots.isEmpty then do return (← lift (p.sortedByName candidates.toList), ∅)
  else .ok (roots, candidates)

/-- Cut parts from `roots` and from the candidates until nothing is left; at most
`rounds` of them. -/
def cutParts (limit : Nat) : Nat → Plan → NodeSet → NodeSet → List NodeId →
    Except PartitionFault Partition
  | 0, p, _, candidates, roots => do
    match ← p.nextRoots candidates roots with
    | ([], _) => return ⟨p, []⟩
    | (_ :: _, _) => throw (.iterationLimit limit)
  | rounds + 1, p, assigned, candidates, roots => do
    match ← p.nextRoots candidates roots with
    | ([], _) => return ⟨p, []⟩
    | (root :: rest, candidates) =>
      let (part, roots, round) ← p.cutPart assigned candidates root rest
      let tail ← cutParts limit rounds round.plan (assigned.insertAll part.nodes) round.candidates roots
      return { tail with parts := part :: tail.parts }

/-- Cut a plan into at most `limit` parts. -/
def partition (p : Plan) (limit : Nat) : Except PartitionFault Partition := do
  let roots ← lift (p.sortedByName p.roots.toList)
  cutParts limit limit p ∅ ∅ roots

end Plan

end JointPlan
