import JointPlan.Config
import JointPlan.Plan.Mpc
import JointPlan.Plan.Surgery

/-!
# Parts of a plan

A compiled plan is cut into parts, each of which runs as a whole either jointly
under MPC or locally. `Partition` keeps the parts in the order in which they
were cut, together with the plan without the edges between them.
-/

namespace JointPlan

inductive Backend where
  | mpc
  | local
deriving DecidableEq

namespace Backend

def ofRequiresMpc (flag : Bool) : Backend := if flag then .mpc else .local

def render : Backend → String
  | .mpc => "mpc"
  | .local => "local"

/-- The configured name. -/
def name (b : Backend) (cfg : Config) : String :=
  match b with
  | .mpc => cfg.mpcBackend
  | .local => cfg.localBackend

end Backend

/-- Nodes that run together, in topological order. -/
structure Part where
  roots : List NodeId
  nodes : List NodeId
  backend : Backend
deriving DecidableEq

structure Partition where
  /-- The plan without the edges between parts. -/
  plan : Plan
  parts : List Part
deriving DecidableEq

/-- Why a plan could not be cut. -/
inductive PartitionFault where
  | iterationLimit (limit : Nat)
  | multipleChildren (name : String)
  | mixedBackends (flags : List (String × Bool))
  | plan (fault : Fault)
deriving DecidableEq

namespace PartitionFault

def message : PartitionFault → String
  | .iterationLimit limit => s!"Partitioning did not finish within {limit} iterations"
  | .multipleChildren name =>
    s!"Relation '{name}' feeds more than one child; only single-child chains can be partitioned"
  | .mixedBackends flags =>
    "Sub-DAG roots disagree on MPC: " ++ String.intercalate ", "
      (flags.map fun (name, flag) => s!"{name}={(Backend.ofRequiresMpc flag).render}")
  | .plan fault => fault.message

end PartitionFault

namespace Part

def contains (part : Part) (id : NodeId) : Bool := part.nodes.contains id

/-- The nodes of the part in the given plan. -/
def resolve (part : Part) (p : Plan) : Except Fault (List Node) := part.nodes.mapM p.node

def kinds (part : Part) (p : Plan) : Except Fault (List String) :=
  (·.map fun n => n.op.kind) <$> part.resolve p

/-- Whether the party stores the output of one of the nodes, looked up in order. -/
def storesAny (p : Plan) (party : PartyId) : List NodeId → Except Fault Bool
  | [] => .ok false
  | id :: rest => do
    if party ∈ (← p.node id).rel.storage.members then return true else storesAny p party rest

/-- Whether the party takes part: it stores the output of one of the roots. -/
def involves (part : Part) (p : Plan) (party : PartyId) : Except Fault Bool :=
  storesAny p party part.roots

end Part

namespace Partition

def backends (pt : Partition) : List Backend := pt.parts.map Part.backend

/-- Positions of the parts that a party takes part in. -/
def involving (pt : Partition) (party : PartyId) : Except Fault (List Nat) := do
  let flags ← pt.parts.zipIdx.mapM fun (part, position) => do
    return if ← part.involves pt.plan party then some position else none
  return flags.filterMap id

end Partition

end JointPlan
