/-!
# Column types
-/

namespace JointPlan

inductive ColumnType where
  | integer
  | float
  | string
deriving DecidableEq

namespace ColumnType

instance : Inhabited ColumnType := ⟨.integer⟩

def render : ColumnType → String
  | .integer => "INTEGER"
  | .float => "FLOAT"
  | .string => "STRING"

def ofName? : String → Option ColumnType
  | "INTEGER" => some .integer
  | "FLOAT" => some .float
  | "STRING" => some .string
  | _ => none

@[simp] theorem ofName?_render (t : ColumnType) : ofName? t.render = some t := by
  cases t <;> rfl

end ColumnType

end JointPlan
