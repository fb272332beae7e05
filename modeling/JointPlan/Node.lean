import JointPlan.Op.Schema

/-!
# Plan nodes

A node runs one operator and owns the relation it yields. `parents` and
`children` are the edges of the plan; `inputs` keeps the order and repetition of
the parents.

When its inputs change, a node is derived anew in three steps: `rebind`
binds the column parameters, `restore` recomputes the storage, `recolumn` the
columns. A step that fails leaves what was done before it.
-/

namespace JointPlan

structure Node where
  id : NodeId
  op : Op
  rel : Relation
  inputs : Inputs
  parents : NodeSet
  children : NodeSet
deriving DecidableEq

/-- A change of one node that may fail half way. -/
abbrev NodeEdit := EStateM Fault Node

namespace Node

def isRoot (n : Node) : Bool := n.parents.isEmpty

def isLeaf (n : Node) : Bool := n.children.isEmpty

/-- Bind the column parameters to the columns of the inputs. -/
def rebind (ins : List Relation) : NodeEdit Unit := do
  let (op, fault?) := (← get).op.rebind ins none
  modify fun n => { n with op }
  match fault? with
  | none => return
  | some fault => throw fault

/-- Recompute where the output lives. -/
def restore (ins : List Relation) : NodeEdit Unit := do
  match (← get).op.outputStorage? ins with
  | .error fault => throw fault
  | .ok none => return
  | .ok (some storage) => modify fun n => { n with rel := { n.rel with storage } }

/-- Recompute the output columns. The storage has to be current. -/
def recolumn (ins : List Relation) : NodeEdit Unit := do
  let n ← get
  match n.op.outputColumns? ins n.rel.storage.members with
  | .error fault => throw fault
  | .ok none => return
  | .ok (some columns) =>
    modify fun n => { n with rel := Relation.renumber { n.rel with columns } }

end Node

end JointPlan
