import JointPlan.Column
import JointPlan.Storage

/-!
# Relations

A relation has a name, an ordered list of columns and a place where it is
stored. `requireMpc` is the rule that decides whether a computation over some
relations can be done by one party alone or has to be done jointly under MPC.
-/

namespace JointPlan

structure Relation where
  name : String
  columns : List Column
  storage : Storage
deriving DecidableEq

namespace Relation

/-- Columns owned by `name` and numbered by position, from `start` on. -/
def number (name : String) (start : Nat) : List Column → List Column
  | [] => []
  | c :: cs => { c with owner := name, index := start } :: number name (start + 1) cs

/-- Take ownership of the columns and number them by position. -/
def renumber (r : Relation) : Relation := { r with columns := number r.name 0 r.columns }

/-- A relation that owns its columns. -/
def owning (name : String) (columns : List Column) (storage : Storage) : Relation :=
  renumber { name, columns, storage }

def rename (r : Relation) (name : String) : Relation := renumber { r with name }

/-- Someone holds each column in the clear. -/
def isLocal (r : Relation) : Bool := r.columns.all fun c => !c.plain.isEmpty

def isShared (r : Relation) : Bool := r.storage.isShared

/-- The first column of that name. -/
def column (r : Relation) (name : String) : Except Fault Column :=
  match r.columns.find? (·.name = name) with
  | some c => .ok c
  | none => .error (.columnNotFound r.name name)

def columnAt (r : Relation) (index : Nat) : Except Fault Column :=
  match r.columns[index]? with
  | some c => .ok c
  | none => .error (.columnOutOfRange index r.name r.columns.length)

def columnNames (r : Relation) : List String := r.columns.map Column.name

/-- Parties that hold every column in the clear. -/
def plainAll (r : Relation) : PartySet := Column.mergedPlain r.columns

/-- Parties entitled to every column. -/
def trustAll (r : Relation) : PartySet := Column.mergedTrust r.columns

def render (r : Relation) : String :=
  s!"{r.name}([" ++ String.intercalate ", " r.columnNames ++ s!"]) {r.storage.render}"

/-- Whether computing over the relations together needs MPC. It does not when a
party holds every column of each of them in the clear, when a party is entitled
to every column of each of them, or when all of them live with one and the same
single party. -/
def requireMpc (rels : List Relation) : Bool :=
  if rels.isEmpty then false
  else if !(PartySet.interAll (rels.map plainAll)).isEmpty then false
  else if !(PartySet.interAll (rels.map trustAll)).isEmpty then false
  else (PartySet.interAll (rels.flatMap fun r => r.storage.loci)).size ≠ 1

end Relation

end JointPlan
