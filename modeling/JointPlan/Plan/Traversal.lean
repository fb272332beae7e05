import JointPlan.Plan.Basic

/-!
# Walking a plan

Reachability, depth-first order and topological order. Where a traversal has a
choice it goes by the name of a node's relation and then by its number, so its
result does not depend on how the plan was built. All traversals end because the
number of nodes they have not yet seen goes down.
-/

namespace JointPlan

namespace Plan

-- ---------------------------------------------------------------------------
-- Order by name
-- ---------------------------------------------------------------------------

/-- The order by name, then number. -/
def precedes (a b : String × NodeId) : Bool := a.1 < b.1 || (a.1 == b.1 && a.2 ≤ b.2)

def insertByName (a : String × NodeId) : List (String × NodeId) → List (String × NodeId)
  | [] => [a]
  | b :: l => bif precedes a b then a :: b :: l else b :: insertByName a l

def sortByName (l : List (String × NodeId)) : List (String × NodeId) := l.foldr insertByName []

/-- Those of `ids` that are in the plan, by name. -/
def sorted (p : Plan) (ids : List NodeId) : List NodeId :=
  (sortByName (ids.filterMap fun id => (p.nodes.get? id).map fun n => (n.rel.name, id))).map
    Prod.snd

/-- The same, but an identifier outside the plan is a fault. -/
def sortedByName (p : Plan) (ids : List NodeId) : Except Fault (List NodeId) := do
  let named ← ids.mapM fun id => (fun n => (n.rel.name, id)) <$> p.node id
  return (sortByName named).map Prod.snd

/-- The children of a node by name; a child outside the plan is a fault. -/
def sortedChildren (p : Plan) (id : NodeId) : Except Fault (List NodeId) := do
  let named ← (← p.node id).children.toList.mapM fun c =>
    (fun n => (n.rel.name, n.id)) <$> p.node c
  return (sortByName named).map Prod.snd

-- ---------------------------------------------------------------------------
-- Reachability
-- ---------------------------------------------------------------------------

/-- The set `seen` with all that can be reached from `ids` along children.
Identifiers outside the plan are reached too, and lead no further. -/
def reach (p : Plan) (ids : List NodeId) (seen : NodeSet) : NodeSet :=
  match ids with
  | [] => seen
  | id :: rest =>
    if _ : id ∈ seen then p.reach rest seen
    else
      match _ : p.nodes.get? id with
      | none => (p.reach rest seen).insert id
      | some n => p.reach (n.children.toList ++ rest) (seen.insert id)
termination_by (p.nodes.unseen seen, ids.length)
decreasing_by
  · exact Prod.Lex.right _ (Nat.lt_succ_self _)
  · exact Prod.Lex.right _ (Nat.lt_succ_self _)
  · exact Prod.Lex.left _ _ (IdMap.unseen_insert_lt ‹_› ‹_›)

def reachableFrom (p : Plan) (roots : List NodeId) : NodeSet := p.reach roots ∅

def reachable (p : Plan) : NodeSet := p.reachableFrom p.roots.toList

-- ---------------------------------------------------------------------------
-- Depth-first order
-- ---------------------------------------------------------------------------

/-- The nodes met depth first from `stack` that are not in `seen`. -/
def dfs (p : Plan) (stack : List NodeId) (seen : NodeSet) : List NodeId :=
  match stack with
  | [] => []
  | id :: rest =>
    if _ : id ∈ seen then p.dfs rest seen
    else
      match _ : p.nodes.get? id with
      | none => p.dfs rest seen
      | some n => id :: p.dfs (p.sorted n.children.toList ++ rest) (seen.insert id)
termination_by (p.nodes.unseen seen, stack.length)
decreasing_by
  · exact Prod.Lex.right _ (Nat.lt_succ_self _)
  · exact Prod.Lex.right _ (Nat.lt_succ_self _)
  · exact Prod.Lex.left _ _ (IdMap.unseen_insert_lt ‹_› ‹_›)

/-- Every reachable node once, depth first from each root. -/
def depthFirst (p : Plan) : List NodeId := p.dfs (p.sorted p.roots.toList) ∅

/-- The nodes of `depthFirst` themselves. -/
def depthFirstNodes (p : Plan) : List Node := p.depthFirst.filterMap p.nodes.get?

-- ---------------------------------------------------------------------------
-- Topological order
-- ---------------------------------------------------------------------------

/-- Put what can be reached from `ids` in front of `done`, each node in front of
its children. `path` holds the nodes that lead to `ids`: meeting one of them
again closes a cycle. -/
def topSortInto (p : Plan) (path : NodeSet) (ids done : List NodeId) : Except Fault (List NodeId) :=
  match ids with
  | [] => .ok done
  | id :: rest =>
    if id ∈ done then p.topSortInto path rest done
    else
      match _ : p.nodes.get? id with
      | none => p.topSortInto path rest done
      | some n =>
        if _ : id ∈ path then .error (.cycle n.rel.name)
        else
          match p.topSortInto (path.insert id) (p.sorted n.children.toList) done with
          | .error fault => .error fault
          | .ok done => p.topSortInto path rest (id :: done)
termination_by (p.nodes.unseen path, ids.length)
decreasing_by
  · exact Prod.Lex.right _ (Nat.lt_succ_self _)
  · exact Prod.Lex.right _ (Nat.lt_succ_self _)
  · exact Prod.Lex.left _ _ (IdMap.unseen_insert_lt ‹_› ‹_›)
  · exact Prod.Lex.right _ (Nat.lt_succ_self _)

/-- What can be reached from `roots`, each node before its children. -/
def topSortFrom (p : Plan) (roots : List NodeId) : Except Fault (List NodeId) :=
  p.topSortInto ∅ (p.sorted (p.reachableFrom roots).toList).reverse []

def topSort (p : Plan) : Except Fault (List NodeId) := p.topSortFrom p.roots.toList

/-- The nodes in topological order. -/
def topNodes (p : Plan) : Except Fault (List Node) := do (← p.topSort).mapM p.node

def kinds (p : Plan) : Except Fault (List String) :=
  (·.map fun n => n.op.kind) <$> p.topNodes

def relationNames (p : Plan) : Except Fault (List String) :=
  (·.map fun n => n.rel.name) <$> p.topNodes

end Plan

end JointPlan
