import JointPlan.Number.Layout
import JointPlan.Number.Word

/-!
# JSON values

Whole numbers and doubles are kept apart, as the two read and print differently.
The fields of an object keep the order in which they are written.
-/

namespace JointPlan

inductive Json where
  | null
  | bool (value : Bool)
  | int (value : Int)
  | float (value : Double)
  | str (value : String)
  | arr (items : List Json)
  | obj (fields : List (String × Json))

namespace Json

instance : Inhabited Json := ⟨.null⟩

-- ---------------------------------------------------------------------------
-- Construction
-- ---------------------------------------------------------------------------

def ofNat (n : Nat) : Json := .int n

def ofOption {α : Type} (encode : α → Json) : Option α → Json
  | none => .null
  | some a => encode a

def ofList {α : Type} (encode : α → Json) (l : List α) : Json := .arr (l.map encode)

-- ---------------------------------------------------------------------------
-- Access
-- ---------------------------------------------------------------------------

/-- The value of a field of an object. -/
def field? (j : Json) (key : String) : Option Json :=
  match j with
  | .obj fields => fields.lookup key
  | _ => none

/-- Identifiers, counts and positions are words of 64 bits. -/
def nat? : Json → Option Nat
  | .int n => if 0 ≤ n ∧ n < Word.limit then some n.toNat else none
  | _ => none

def str? : Json → Option String
  | .str s => some s
  | _ => none

def bool? : Json → Option Bool
  | .bool b => some b
  | _ => none

def items? : Json → Option (List Json)
  | .arr items => some items
  | _ => none

def listOf? {α : Type} (decode : Json → Option α) (j : Json) : Option (List α) := do
  (← j.items?).mapM decode

/-- A value that may be null. -/
def nullable? {α : Type} (decode : Json → Option α) : Json → Option (Option α)
  | .null => some none
  | j => some <$> decode j

/-- A required field. -/
def get? {α : Type} (j : Json) (key : String) (decode : Json → Option α) : Option α := do
  decode (← j.field? key)

/-- A structure as an object. It may be written as a list of its fields in order,
of which the last may be missing. -/
def record? (names : List String) : Json → Option Json
  | .obj fields => some (.obj fields)
  | .arr items => if items.length ≤ names.length then some (.obj (names.zip items)) else none
  | _ => none

/-- A field of an object that may be missing or null. -/
def getOptional? {α : Type} (j : Json) (key : String) (decode : Json → Option α) :
    Option (Option α) :=
  match j with
  | .obj fields =>
    match fields.lookup key with
    | none => some none
    | some value => nullable? decode value
  | _ => none

end Json

end JointPlan
