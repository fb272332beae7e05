import JointPlan.Plan.Validity

/-!
# Writing a workflow

A workflow is a plan under construction together with a table of the relations
defined so far. Operators are written with the names of columns; the names are
looked up in the input relation, and the plan derives each output when its node
is added. Every relation is defined once, and the workflow ends in one node that
delivers the result.
-/

namespace JointPlan

structure Workflow where
  plan : Plan
  names : List (String × NodeId)
deriving DecidableEq

/-- An operand of an arithmetic step: a column by name, or a constant. -/
inductive Term where
  | column (name : String)
  | scalar (value : Scalar)
deriving DecidableEq

/-- A step in writing a workflow. -/
abbrev Build := EStateM Fault Workflow

namespace Workflow

def empty : Workflow := ⟨∅, []⟩

instance : Inhabited Workflow := ⟨empty⟩

/-- The node that yields the relation of that name. -/
def lookup (w : Workflow) (name : String) : Except Fault NodeId :=
  match w.names.lookup name with
  | some id => .ok id
  | none => .error (.unknownRelation name)

def relation (w : Workflow) (id : NodeId) : Except Fault Relation := Node.rel <$> w.plan.node id

def column (w : Workflow) (id : NodeId) (name : String) : Except Fault Column := do
  (← w.relation id).column name

/-- The finished plan. -/
def build (w : Workflow) : Except Fault Plan := do
  w.plan.validate
  return w.plan

end Workflow

namespace Build

variable {α : Type}

-- ---------------------------------------------------------------------------
-- Names
-- ---------------------------------------------------------------------------

def ask (f : Workflow → Except Fault α) : Build α := fun w =>
  match f w with
  | .ok a => .ok a w
  | .error fault => .error fault w

/-- Change the plan of the workflow. -/
def edit (change : Edit α) : Build α := fun w =>
  match change w.plan with
  | .ok a plan => .ok a { w with plan }
  | .error fault plan => .error fault { w with plan }

/-- Refuses a name that is taken. -/
def claim (name : String) : Build Unit := do
  if ((← get).names.lookup name).isSome then throw (.definedTwice name)

/-- Add a node under a name that is not taken yet. -/
def define (name : String) (add : Edit NodeId) : Build NodeId := do
  claim name
  let id ← edit add
  modify fun w => { w with names := (name, id) :: w.names }
  return id

def add (op : Op) (out : String) (inputs : Inputs) : Build NodeId :=
  define out (Edit.insertNode op out inputs)

def column (id : NodeId) (name : String) : Build Column := ask fun w => w.column id name

def columns (id : NodeId) (names : List String) : Build (List Column) := names.mapM (column id)

def operand (id : NodeId) : Term → Build Operand
  | .column name => return .column (← column id name)
  | .scalar value => return .scalar value

-- ---------------------------------------------------------------------------
-- Operators
-- ---------------------------------------------------------------------------

def create (name : String) (columns : List Column) (storage : Storage) : Build NodeId :=
  define name (Edit.addCreate (.owning name columns storage))

def project (input : NodeId) (out : String) (names : List String) : Build NodeId := do
  add (.project (← columns input names)) out (.unary input)

def distinct (input : NodeId) (out : String) (names : List String) : Build NodeId := do
  add (.distinct (← columns input names)) out (.unary input)

/-- Set the column `target` to the product or quotient of the terms; it is a new
column if the input has none of that name. -/
def arithmetic (fn : Arithmetic) (input : NodeId) (out target : String) (terms : List Term) :
    Build NodeId := do
  let operands ← terms.mapM (operand input)
  let rel ← ask fun w => w.relation input
  match rel.columns.find? (·.name = target), operands with
  | some c, _ => add (.arithmetic fn c operands false) out (.unary input)
  | none, [] => throw (.noOperands target)
  | none, first :: _ =>
    add (.arithmetic fn (.fresh target first.type) operands true) out (.unary input)

def limit (input : NodeId) (out : String) (count : Nat) : Build NodeId :=
  add (.limit count) out (.unary input)

def filterByColumn (input : NodeId) (out name : String) (test : Comparator) (against : String) :
    Build NodeId := do
  add (.filterByColumn (← column input name) (← column input against) test) out (.unary input)

def filterByScalar (input : NodeId) (out name : String) (test : Comparator) (scalar : Scalar) :
    Build NodeId := do
  add (.filterByScalar (← column input name) scalar test) out (.unary input)

def sortBy (input : NodeId) (out name : String) (increasing : Bool) : Build NodeId := do
  add (.sortBy (← column input name) increasing) out (.unary input)

def numRows (input : NodeId) (out countName : String) : Build NodeId :=
  add (.numRows countName) out (.unary input)

def count (input : NodeId) (out : String) (groups : List String) (countName : String) :
    Build NodeId := do
  add (.count (← columns input groups) countName) out (.unary input)

def sum (input : NodeId) (out : String) (groups : List String) (name outName : String) :
    Build NodeId := do
  add (.sum (← columns input groups) (← column input name) outName) out (.unary input)

def mean (input : NodeId) (out : String) (groups : List String) (name outName : String) :
    Build NodeId := do
  add (.mean (← columns input groups) (← column input name) outName none) out (.unary input)

def stdDev (input : NodeId) (out : String) (groups : List String) (name outName : String) :
    Build NodeId := do
  add (.stdDev (← columns input groups) (← column input name) outName) out (.unary input)

def index (input : NodeId) (out name : String) : Build NodeId :=
  add (.index name) out (.unary input)

def shuffle (input : NodeId) (out : String) : Build NodeId := add .shuffle out (.unary input)

def persist (input : NodeId) (out : String) : Build NodeId := add .persist out (.unary input)

def send (input : NodeId) (out : String) : Build NodeId := add .send out (.unary input)

def join (left right : NodeId) (out : String) (leftNames rightNames : List String) :
    Build NodeId := do
  add (.join (← columns left leftNames) (← columns right rightNames)) out (.binary left right)

def concat (inputs : List NodeId) (out : String) : Build NodeId := do
  if inputs.length < 2 then throw (.lonelyConcat out)
  add .concat out (.nary inputs)

/-- Deliver a relation to `recipients`. -/
def collect (input : NodeId) (out : String) (recipients : PartySet) : Build NodeId := do
  if recipients.isEmpty then throw (.noRecipients out)
  add (.collect recipients) out (.unary input)

end Build

end JointPlan
