import JointPlan.Plan.Traversal

/-!
# Plan surgery

Splicing nodes in, taking them out, copying them and moving them past each
other. Every operation keeps the two ends of an edge, the ordered inputs and the
derived relations in step.
-/

namespace JointPlan

namespace Node

def addChild (id : NodeId) (n : Node) : Node := { n with children := n.children.insert id }

def dropChild (id : NodeId) (n : Node) : Node := { n with children := n.children.erase id }

/-- Take `new` for a parent in place of `old`. -/
def swapParent (old new : NodeId) (n : Node) : Node :=
  { n with parents := (n.parents.erase old).insert new, inputs := n.inputs.replace old new }

end Node

namespace Edit

-- ---------------------------------------------------------------------------
-- Checks
-- ---------------------------------------------------------------------------

def expectUnary (id : NodeId) (action : String) : Edit Unit := do
  let n ← node id
  if n.op.arity ≠ .unary then throw (.notUnary action n.op.kind n.rel.name)

def expectOrphan (id : NodeId) : Edit Unit := do
  let n ← node id
  if !n.isRoot || !n.isLeaf || id ∈ (← get).roots then
    throw (.alreadyWired n.op.kind n.rel.name)

-- ---------------------------------------------------------------------------
-- Splicing
-- ---------------------------------------------------------------------------

/-- Splice the orphan `new` into the edge from `parent` to `child`. -/
def insertBetween (parent child new : NodeId) : Edit Unit := do
  expectUnary new "insert_between"
  expectOrphan new
  if child ∉ (← node parent).children then throw (.noEdge parent child)
  if parent ∉ (← node child).parents then throw (.noEdge parent child)
  modifyNode parent fun n => (n.dropChild child).addChild new
  modifyNode child (Node.swapParent parent new)
  modifyNode new fun n =>
    { n with parents := n.parents.insert parent, children := n.children.insert child,
             inputs := .unary parent }
  refresh new
  refreshStorage child

/-- Splice the orphan `new` between `parent` and all of its children. -/
def insertAfterAll (parent new : NodeId) : Edit Unit := do
  expectUnary new "insert_after_all"
  expectOrphan new
  let children := (← node parent).children
  modifyNode parent fun n => { n with children := .singleton new }
  children.toList.forM fun child => modifyNode child (Node.swapParent parent new)
  modifyNode new fun n => { n with parents := n.parents.insert parent, inputs := .unary parent, children }
  refresh new
  children.toList.forM refreshStorage

/-- Take out a node with one parent and lead its children to that parent. -/
def removeNode (id : NodeId) : Edit Unit := do
  expectUnary id "remove_node"
  let n ← node id
  match n.parents.size, n.inputs with
  | 1, .unary parent =>
    modifyNode parent fun p => { p with children := p.children.erase id ∪ n.children }
    n.children.toList.forM fun child => modifyNode child (Node.swapParent id parent)
    modify fun p => { p with nodes := p.nodes.erase id, roots := p.roots.erase id }
    n.children.toList.forM refreshStorage
  | _, _ => throw (.noSingleParent n.rel.name)

-- ---------------------------------------------------------------------------
-- Copying
-- ---------------------------------------------------------------------------

/-- A copy of `n` for `child` alone, named after its position among the children. -/
def forkFor (id : NodeId) (n : Node) (position : Nat) (child : NodeId) : Edit NodeId := do
  let copy ← addOrphan n.op (n.rel.rename s!"{n.rel.name}_{position}")
  modifyNode copy fun c =>
    { c with inputs := n.inputs, parents := n.parents, children := c.children.insert child }
  n.parents.toList.forM fun parent => modifyNode parent (Node.addChild copy)
  if n.isRoot then modify fun p => { p with roots := p.roots.insert copy }
  modifyNode id (Node.dropChild child)
  modifyNode child (Node.swapParent id copy)
  refreshStorage child
  return copy

/-- Give every child but the first a copy of the node. -/
def forkNode (id : NodeId) : Edit (List NodeId) := do
  let n ← node id
  let children ← ask fun p => p.sortedChildren id
  (children.zipIdx.drop 1).mapM fun (child, position) => forkFor id n position child

-- ---------------------------------------------------------------------------
-- Moving an operator above its parent
-- ---------------------------------------------------------------------------

/-- Refuses a node that is not unary, has several children, or is not fed by
`top` alone. -/
def checkPushDown (top bottom : NodeId) : Edit Unit := do
  expectUnary bottom "push_op_node_down"
  let n ← node bottom
  if 1 < n.children.size then throw (.tooManyChildren n.rel.name n.children.size)
  if n.inputs ≠ .unary top then throw (.notFedBy n.rel.name top)

/-- Put a copy of the node `n` between `top` and its input at a position. -/
def pushCopy (top : NodeId) (n : Node) (position : Nat) (input : NodeId) : Edit NodeId := do
  let copy ← addOrphan n.op (n.rel.rename s!"{n.rel.name}_{position}")
  modifyNode copy fun c =>
    { c with parents := c.parents.insert input, children := c.children.insert top,
             inputs := .unary input }
  modifyNode input fun p => (p.dropChild top).addChild copy
  modifyNode top fun t => { t with parents := (t.parents.erase input).insert copy }
  match (← node top).inputs.replaceAt? position copy with
  | none => throw (.inputVanished position top)
  | some inputs => modifyNode top fun t => { t with inputs }
  refresh copy
  return copy

/-- Move the unary node `bottom` above its parent `top`, one copy per input of
`top`. The same parent may feed `top` more than once, so the copies go by
position. -/
def pushDown (top bottom : NodeId) : Edit (List NodeId) := do
  checkPushDown top bottom
  let n ← node bottom
  modifyNode top fun t => { t with children := t.children.erase bottom ∪ n.children }
  n.children.toList.forM fun child => modifyNode child (Node.swapParent bottom top)
  modify fun p => { p with nodes := p.nodes.erase bottom }
  let copies ← (← node top).inputs.ids.zipIdx.mapM fun (input, position) =>
    pushCopy top n position input
  refresh top
  n.children.toList.forM refreshStorage
  return copies

-- ---------------------------------------------------------------------------
-- Cutting and replacing
-- ---------------------------------------------------------------------------

/-- Cut the edge from `parent` to `child`. The child keeps its inputs for its
schema; a child left without parents becomes a root. -/
def disconnect (parent child : NodeId) : Edit Unit := do
  modifyNode parent (Node.dropChild child)
  modifyNode child fun c => { c with parents := c.parents.erase parent }
  if (← node child).isRoot then modify fun p => { p with roots := p.roots.insert child }

/-- Give a node another operator of the same arity. -/
def replaceOp (id : NodeId) (op : Op) : Edit Unit := do
  let n ← node id
  if n.op.arity ≠ op.arity then throw (.arityChange n.op.kind op.kind n.rel.name)
  modifyNode id fun n => { n with op }
  refresh id

end Edit

end JointPlan
