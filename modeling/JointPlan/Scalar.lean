import JointPlan.Column
import JointPlan.Number.Layout

/-!
# Constants and operands

What an arithmetic or filter operator works with: a constant, or a column of the
relation it reads.
-/

namespace JointPlan

inductive Scalar where
  | int (value : Int)
  | float (value : Double)
deriving DecidableEq

namespace Scalar

instance : Inhabited Scalar := ⟨.int 0⟩

def type : Scalar → ColumnType
  | .int _ => .integer
  | .float _ => .float

def isZero : Scalar → Bool
  | .int value => value = 0
  | .float value => value.isZero

/-- A constant is written positionally whatever its size, and a whole number
without a point. -/
def layout : Layout where
  positional _ := true
  wholePoint := false
  tie := .up

def render : Scalar → String
  | .int value => toString value
  | .float value =>
    if value.isNaN then "NaN"
    else if value.isFinite then layout.render value
    else if value.isNegative then "-inf" else "inf"

end Scalar

inductive Operand where
  | column (column : Column)
  | scalar (scalar : Scalar)
deriving DecidableEq

namespace Operand

instance : Inhabited Operand := ⟨.scalar default⟩

def type : Operand → ColumnType
  | .column c => c.type
  | .scalar s => s.type

def column? : Operand → Option Column
  | .column c => some c
  | .scalar _ => none

end Operand

inductive Comparator where
  | eq
  | notEq
  | lt
  | le
  | gt
  | ge
deriving DecidableEq

namespace Comparator

instance : Inhabited Comparator := ⟨.eq⟩

def name : Comparator → String
  | .eq => "eq"
  | .notEq => "not_eq"
  | .lt => "lt"
  | .le => "le"
  | .gt => "gt"
  | .ge => "ge"

def ofName? : String → Option Comparator
  | "eq" => some .eq
  | "not_eq" => some .notEq
  | "lt" => some .lt
  | "le" => some .le
  | "gt" => some .gt
  | "ge" => some .ge
  | _ => none

@[simp] theorem ofName?_name (c : Comparator) : ofName? c.name = some c := by
  cases c <;> rfl

end Comparator

end JointPlan
