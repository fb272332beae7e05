import JointPlan.IdSet

/-!
# Operator inputs

The ordered references of a plan node to the nodes that feed it. The order is
what tells the left side of a join from its right side and fixes the order of a
concatenation; the same node may feed another one at several positions.
-/

namespace JointPlan

abbrev NodeId := Nat

abbrev NodeSet := IdSet

namespace NodeId

def render (id : NodeId) : String := "NodeId(" ++ toString id ++ ")"

end NodeId

inductive Arity where
  | nullary
  | unary
  | binary
  | nary
deriving DecidableEq

inductive Inputs where
  | none
  | unary (input : NodeId)
  | binary (left right : NodeId)
  | nary (inputs : List NodeId)
deriving DecidableEq

namespace Inputs

instance : Inhabited Inputs := ⟨.none⟩

def ids : Inputs → List NodeId
  | .none => []
  | .unary input => [input]
  | .binary left right => [left, right]
  | .nary inputs => inputs

def map (f : NodeId → NodeId) : Inputs → Inputs
  | .none => .none
  | .unary input => .unary (f input)
  | .binary left right => .binary (f left) (f right)
  | .nary inputs => .nary (inputs.map f)

/-- Put `new` at every position that held `old`. -/
def replace (inputs : Inputs) (old new : NodeId) : Inputs :=
  inputs.map fun id => if id = old then new else id

/-- Put `new` at one position; `none` when there is no such position. -/
def replaceAt? (inputs : Inputs) (pos : Nat) (new : NodeId) : Option Inputs :=
  match inputs, pos with
  | .unary _, 0 => some (.unary new)
  | .binary _ right, 0 => some (.binary new right)
  | .binary left _, 1 => some (.binary left new)
  | .nary ids, pos => if pos < ids.length then some (.nary (ids.set pos new)) else Option.none
  | _, _ => Option.none

def fits : Inputs → Arity → Bool
  | .none, .nullary => true
  | .unary _, .unary => true
  | .binary _ _, .binary => true
  | .nary _, .nary => true
  | _, _ => false

def render : Inputs → String
  | .none => "None"
  | .unary input => "Unary(" ++ input.render ++ ")"
  | .binary left right =>
    "Binary \x7b left: " ++ left.render ++ ", right: " ++ right.render ++ " \x7d"
  | .nary inputs => "Nary([" ++ String.intercalate ", " (inputs.map NodeId.render) ++ "])"

@[simp] theorem ids_map (f : NodeId → NodeId) (inputs : Inputs) :
    (inputs.map f).ids = inputs.ids.map f := by
  cases inputs <;> rfl

end Inputs

end JointPlan
