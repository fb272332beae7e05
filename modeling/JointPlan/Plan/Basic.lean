import JointPlan.IdMap
import JointPlan.Node
import JointPlan.Number.Word

/-!
# Plans

A plan is an arena of nodes with a set of roots and the number that the next
node will get. Nothing in the type makes the edges of a plan fit together: a
plan can be read from a file, and the operations have to cope with identifiers
that lead nowhere.

`Edit` is the language of changes to a plan. A change that fails keeps what it
had done before it failed.
-/

namespace JointPlan

structure Plan where
  nodes : IdMap Node
  roots : NodeSet
  nextId : NodeId
deriving DecidableEq

namespace Plan

def empty : Plan := ⟨∅, ∅, 0⟩

instance : EmptyCollection Plan := ⟨empty⟩

instance : Inhabited Plan := ⟨empty⟩

def contains (p : Plan) (id : NodeId) : Bool := p.nodes.contains id

def size (p : Plan) : Nat := p.nodes.size

def node (p : Plan) (id : NodeId) : Except Fault Node :=
  match p.nodes.get? id with
  | some n => .ok n
  | none => .error (.unknownNode id)

/-- The relations that feed a node, in the order of its inputs. -/
def inputRelations (p : Plan) (id : NodeId) : Except Fault (List Relation) := do
  (← p.node id).inputs.ids.mapM fun input => Node.rel <$> p.node input

def isRoot (p : Plan) (id : NodeId) : Except Fault Bool := Node.isRoot <$> p.node id

def isLeaf (p : Plan) (id : NodeId) : Except Fault Bool := Node.isLeaf <$> p.node id

def isReversible (p : Plan) (id : NodeId) : Except Fault Bool := do
  return (← p.node id).op.isReversible (← p.inputRelations id)

end Plan

/-- A change of a plan that may fail half way. -/
abbrev Edit := EStateM Fault Plan

namespace Edit

variable {α : Type}

/-- Look something up in the plan as it stands. -/
def ask (f : Plan → Except Fault α) : Edit α := fun p =>
  match f p with
  | .ok a => .ok a p
  | .error fault => .error fault p

def node (id : NodeId) : Edit Node := ask fun p => p.node id

/-- Change one node; what the change had done when it failed is kept. -/
def onNode (id : NodeId) (change : NodeEdit α) : Edit α := do
  let n ← node id
  match change n with
  | .ok a n => modify (fun p => { p with nodes := p.nodes.insert id n }); return a
  | .error fault n => modify (fun p => { p with nodes := p.nodes.insert id n }); throw fault

def modifyNode (id : NodeId) (f : Node → Node) : Edit Unit := onNode id (modify f)

/-- A number that no node has had yet. The number after it has to be a word as well. -/
def freshId : Edit NodeId := do
  let p ← get
  if p.nextId + 1 < Word.limit then
    set { p with nextId := p.nextId + 1 }
    return p.nextId
  else
    throw .exhausted

/-- Add a node under a fresh number. -/
def addNode (op : Op) (rel : Relation) (inputs : Inputs) (parents : NodeSet) : Edit NodeId := do
  let id ← freshId
  modify fun p =>
    { p with nodes := p.nodes.insert id { id, op, rel, inputs, parents, children := ∅ } }
  return id

/-- Add a node without edges. It has to be spliced in before it is reachable. -/
def addOrphan (op : Op) (rel : Relation) : Edit NodeId := addNode op rel .none ∅

/-- Add a root that holds a relation as it is. -/
def addCreate (rel : Relation) : Edit NodeId := do
  let id ← addOrphan .create rel
  modify fun p => { p with roots := p.roots.insert id }
  return id

/-- Derive a node anew from its inputs: parameters, storage and columns. -/
def refresh (id : NodeId) : Edit Unit := do
  let ins ← ask fun p => p.inputRelations id
  onNode id do
    Node.rebind ins
    Node.restore ins
    Node.recolumn ins

/-- Derive the parameters and the storage of a node anew and leave its columns. -/
def refreshStorage (id : NodeId) : Edit Unit := do
  let ins ← ask fun p => p.inputRelations id
  onNode id do
    Node.rebind ins
    Node.restore ins

/-- Add a node that is fed by `inputs` and derive its relation. -/
def insertNode (op : Op) (name : String) (inputs : Inputs) : Edit NodeId := do
  if op = .create then throw (.createWithInputs name)
  if !inputs.fits op.arity then throw (.inputsMismatch op.kind name inputs)
  match inputs.ids with
  | [] => throw (.noInputs op.kind name)
  | first :: rest =>
    let ids := first :: rest
    ids.forM fun id => discard (node id)
    let storage := (← node first).rel.storage
    let id ← addNode op (.owning name [] storage) inputs (.ofList ids)
    ids.forM fun parent => modifyNode parent fun n => { n with children := n.children.insert id }
    refresh id
    return id

end Edit

end JointPlan
