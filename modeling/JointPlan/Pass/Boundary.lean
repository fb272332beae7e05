import JointPlan.Plan.Mpc
import JointPlan.Plan.Refresh
import JointPlan.Plan.Surgery
import JointPlan.Plan.Sweep

/-!
# Boundary operators

Four passes that make every crossing between MPC and the clear explicit: a
`closing` where a relation enters MPC, an `opening` where one leaves it, and the
`store` and `read` that make each crossing a handoff between two processes. A
pass changes nothing where the operators are already in place.
-/

namespace JointPlan

namespace Boundary

open Edit

/-- An orphan over a copy of the output of `source`, named with an ending. -/
def orphanAfter (source : NodeId) (op : Op) (ending : String) : Edit NodeId := do
  let rel := (← node source).rel
  addOrphan op (rel.rename s!"{rel.name}_{ending}")

-- ---------------------------------------------------------------------------
-- Entering MPC
-- ---------------------------------------------------------------------------

/-- Whether the output of `parent` can go as it is into a node that computes on
a sharing at `shared`. -/
def arrivesShared (shared : Storage) (parent : NodeId) : Edit Bool := do
  let n ← node parent
  match n.op with
  | .closing storage =>
    if storage = shared then return true
    else if n.rel.storage = shared then ask fun p => p.requiresMpc parent
    else return false
  | _ => if n.rel.storage = shared then ask fun p => p.requiresMpc parent else return false

/-- The list without repetitions, each element where it first stood. -/
def firsts (ids : List NodeId) : List NodeId :=
  ids.foldl (fun acc id => if id ∈ acc then acc else acc ++ [id]) []

/-- Share every input of a joint computation among all parties that store its
output. -/
def closeInputs (id : NodeId) : Edit Unit := do
  refreshStorage id
  if ← ask fun p => p.requiresMpc id then
    let n ← node id
    let shared := n.rel.storage.shared
    (firsts n.inputs.ids).forM fun parent => do
      if !(← arrivesShared shared parent) then
        let closing ← orphanAfter parent (.closing shared) "close"
        insertBetween parent id closing

/-- Storage below a new `closing` is out of date until the sweep comes to it. -/
def visitClose (id : NodeId) (op : Op) : Edit Unit :=
  match op.arity with
  | .nullary => return
  | .unary => refreshStorage id
  | .binary | .nary => closeInputs id

-- ---------------------------------------------------------------------------
-- Leaving MPC
-- ---------------------------------------------------------------------------

/-- Reveal the output of a node where the plan leaves MPC. -/
def openOutput (id : NodeId) : Edit Unit := do
  if !(← ask fun p => p.isLeaf id) then
    if ← ask fun p => p.isLowerBoundary id then
      let opening ← orphanAfter id .opening "open"
      insertAfterAll id opening

-- ---------------------------------------------------------------------------
-- Handoffs
-- ---------------------------------------------------------------------------

/-- Read what `parent` yields before it goes to its child at a position. -/
def insertRead (parent child : NodeId) (position : Nat) : Edit Unit := do
  let ending := if position = 0 then "read" else s!"read_{position}"
  let read ← orphanAfter parent .read ending
  insertBetween parent child read

/-- Read in front of every child of `parent` that does not read yet. -/
def readChildren (parent : NodeId) : Edit Unit := do
  let children ← ask fun p => p.sortedChildren parent
  children.zipIdx.forM fun (child, position) => do
    if (← node child).op ≠ .read then insertRead parent child position

/-- Read in front of everything that an opening feeds, behind a store that is
already there. -/
def readAfterOpening (id : NodeId) : Edit Unit := do
  let children ← ask fun p => p.sortedChildren id
  children.zipIdx.forM fun (child, position) => do
    match (← node child).op with
    | .read => return
    | .store => readChildren child
    | _ => insertRead id child position

/-- Whether the node has one child, a store. -/
def feedsOneStore (id : NodeId) : Edit Bool := do
  if (← node id).children.size ≠ 1 then return false
  match ← ask fun p => p.sortedChildren id with
  | [only] => return (← node only).op = .store
  | _ => return false

/-- Store what an opening reveals. -/
def storeAfterOpening (id : NodeId) : Edit Unit := do
  if !(← node id).isLeaf then
    if !(← feedsOneStore id) then
      let store ← orphanAfter id .store "store"
      insertAfterAll id store

/-- Store what is about to be shared. -/
def storeBeforeClosing (id : NodeId) : Edit Unit := do
  match (← node id).inputs with
  | .unary parent =>
    if (← node parent).op ≠ .store then
      let store ← orphanAfter parent .store "store"
      insertBetween parent id store
  | _ => throw (.closingWithoutInput id)

end Boundary

namespace Pass

def insertClose : Pass where
  name := "insert_close_ops"
  direction := .forward
  visit := Boundary.visitClose
  finish := Edit.propagateStorage

def insertOpen : Pass where
  name := "insert_open_ops"
  direction := .forward
  visit id op := if op.isBoundary then return else Boundary.openOutput id
  finish := return

def insertRead : Pass where
  name := "insert_read_ops"
  direction := .forward
  visit id op := match op with
    | .opening => Boundary.readAfterOpening id
    | _ => return
  finish := return

def insertStore : Pass where
  name := "insert_store_ops"
  direction := .forward
  visit id op := match op with
    | .opening => Boundary.storeAfterOpening id
    | .closing _ => Boundary.storeBeforeClosing id
    | _ => return
  finish := return

/-- The boundary passes in the order in which they have to run. -/
def boundaries : List Pass := [insertClose, insertOpen, insertRead, insertStore]

end Pass

end JointPlan
