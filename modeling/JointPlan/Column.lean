import JointPlan.Fault

/-!
# Columns

A column belongs to a relation by name and position and carries two labels: the
parties that may see its values and the parties that already hold them in the
clear. A column derived from others is labelled with what all of them share.
-/

namespace JointPlan

structure Column where
  /-- Name of the relation the column belongs to. -/
  owner : String
  name : String
  /-- Position in the owning relation. -/
  index : Nat
  type : ColumnType
  /-- Parties entitled to the values. -/
  trust : PartySet
  /-- Parties that hold the values in the clear. -/
  plain : PartySet
deriving DecidableEq

namespace ColumnType

/-- The type of an arithmetic result: integers and floats mix to floats, equal
types stay what they are. -/
def promote (a b : ColumnType) : Except Fault ColumnType :=
  match a, b with
  | .integer, .float | .float, .integer => .ok .float
  | a, b => if a = b then .ok a else .error (.typeMismatch a b)

end ColumnType

namespace Column

/-- A column that belongs to no relation yet and carries no labels. -/
def fresh (name : String) (type : ColumnType) : Column :=
  { owner := "", name, index := 0, type, trust := ∅, plain := ∅ }

instance : Inhabited Column := ⟨fresh "" default⟩

def labeled (c : Column) (trust plain : PartySet) : Column := { c with trust, plain }

/-- Entitle `members` to the values and let them hold them in the clear. -/
def loosen (c : Column) (members : PartySet) : Column :=
  { c with trust := c.trust ∪ members, plain := c.plain ∪ members }

def mergedTrust (cols : List Column) : PartySet := PartySet.interAll (cols.map trust)

def mergedPlain (cols : List Column) : PartySet := PartySet.interAll (cols.map plain)

/-- The column `template` with the labels that all of `sources` share. -/
def derived (template : Column) (sources : List Column) : Column :=
  template.labeled (mergedTrust sources) (mergedPlain sources)

def render (c : Column) : String :=
  s!"{c.owner}.{c.name} {c.type.render} trust={c.trust.render} plain={c.plain.render}"

end Column

end JointPlan
