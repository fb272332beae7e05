import JointPlan.Script
import JointPlan.Yaml.Decode

/-!
# Reading scripts

A script is written as a YAML document with the fields `config`, `relations` and
`steps`. Settings and relations are read by the types of their fields. A step is
read as a value first, since its field `op` decides what the other fields are; a
field may be given by its position instead of its name, and a step as a list of
its fields in order. Unknown fields are ignored, and no field may occur twice.
-/

namespace JointPlan

open Yaml

-- ---------------------------------------------------------------------------
-- Settings and relations
-- ---------------------------------------------------------------------------

def Overrides.decode (n : Yaml.Node) : Decode Overrides := do
  let fields ← Decode.fields n
  let setting {α : Type} (key : String) (decode : Yaml.Node → Decode α) : Decode (Option α) := do
    return (← Decode.field? fields key (Decode.optional decode)).join
  return {
    iterationLimit := ← setting "iteration_limit" Decode.word
    optimize := ← setting "optimize" Decode.bool
    mpcBackend := ← setting "mpc_backend" Decode.text
    localBackend := ← setting "local_backend" Decode.text
    party := ← setting "party_id" Decode.word }

def PartySet.decode (n : Yaml.Node) : Decode PartySet := IdSet.ofList <$> Decode.list Decode.word n

/-- A column; nobody is trusted with it unless it says so. -/
def Column.decode (n : Yaml.Node) : Decode Column := do
  let fields ← Decode.fields n
  let name ← Decode.field fields "name" Decode.text
  let type ← Decode.field fields "type" (Decode.choice ColumnType.ofName?)
  let trust ← Decode.field? fields "trust_with" PartySet.decode
  let plain ← Decode.field? fields "plaintext" PartySet.decode
  return (Column.fresh name type).labeled (trust.getD ∅) (plain.getD ∅)

def Source.decode (n : Yaml.Node) : Decode Source := do
  let fields ← Decode.fields n
  return {
    name := ← Decode.field fields "name" Decode.text
    loci := ← Decode.field fields "stored_with" (Decode.list PartySet.decode)
    columns := ← Decode.field fields "columns" (Decode.list Column.decode) }

-- ---------------------------------------------------------------------------
-- Fields of steps
-- ---------------------------------------------------------------------------

namespace Yaml.Value

def str? : Value → Option String
  | .str s => some s
  | _ => none

def bool? : Value → Option Bool
  | .bool b => some b
  | _ => none

def nat? : Value → Option Nat
  | .nat n | .negative n@0 => some n
  | _ => none

def listOf? {α : Type} (decode : Value → Option α) : Value → Option (List α)
  | .list items => items.mapM decode
  | _ => none

/-- A whole number that needs the 64th bit is taken as a double. -/
def scalar? : Value → Option Scalar
  | .nat n => if n < Word.signedLimit then some (.int n) else some (.float (.ofNat false n))
  | .negative n => some (.int (-n))
  | .float d => some (.float d)
  | _ => none

def term? : Value → Option Term
  | .str name => some (.column name)
  | v => .scalar <$> v.scalar?

def comparators : List Comparator := [.eq, .notEq, .lt, .le, .gt, .ge]

/-- A comparator by its name, which may also be the only key of a map without a value. -/
def comparator? : Value → Option Comparator
  | .str name => Comparator.ofName? name
  | .map [(.str name, .null)] | .map [(.str name, .map [])] => Comparator.ofName? name
  | .map [(.nat n, .null)] | .map [(.nat n, .map [])] => comparators[n]?
  | _ => none

end Yaml.Value

/-- The fields of a step by their names. -/
abbrev StepFields := List (String × Value)

namespace StepFields

/-- The known fields among `entries`; `names` are the fields in order. -/
def ofEntries? (names : List String) (entries : List (Value × Value)) : Option StepFields := do
  let found ← entries.mapM fun
    | (.str key, v) => some (if names.contains key then some (key, v) else none)
    | (.nat n, v) => some ((names[n]?).map (·, v))
    | _ => none
  let fields := found.filterMap id
  if (fields.map (·.1)).Nodup then some fields else none

variable {α : Type}

def get? (fields : StepFields) (key : String) (decode : Value → Option α) : Option α :=
  fields.lookup key >>= decode

def getD? (fields : StepFields) (key : String) (decode : Value → Option α) (default : α) :
    Option α :=
  match fields.lookup key with
  | none => some default
  | some v => decode v

def text? (fields : StepFields) (key : String) : Option String := fields.get? key Value.str?

def texts? (fields : StepFields) (key : String) : Option (List String) :=
  fields.get? key (Value.listOf? Value.str?)

def groups? (fields : StepFields) : Option (List String) :=
  fields.getD? "group" (Value.listOf? Value.str?) []

end StepFields

-- ---------------------------------------------------------------------------
-- Steps
-- ---------------------------------------------------------------------------

namespace Step

/-- The fields of the steps with that `op`, in order. -/
def fieldNames? : String → Option (List String)
  | "project" | "distinct" => some ["input", "out", "columns"]
  | "multiply" | "divide" => some ["input", "out", "target", "operands"]
  | "limit" => some ["input", "out", "num"]
  | "filter_by_col" => some ["input", "out", "column", "operator", "against"]
  | "filter_by_scalar" => some ["input", "out", "column", "operator", "scalar"]
  | "sort_by" => some ["input", "out", "column", "increasing"]
  | "num_rows" => some ["input", "out", "count_col"]
  | "aggregate_count" => some ["input", "out", "group", "count_col"]
  | "aggregate_sum" | "aggregate_mean" | "aggregate_std_dev" =>
    some ["input", "out", "group", "column", "out_col"]
  | "index" => some ["input", "out", "column"]
  | "shuffle" | "persist" | "send" => some ["input", "out"]
  | "join" => some ["left", "right", "out", "left_on", "right_on"]
  | "concat" => some ["inputs", "out"]
  | "collect" => some ["input", "out", "recipients"]
  | _ => none

def arithmeticOf? (fn : Arithmetic) (f : StepFields) : Option Step := do
  return .arithmetic fn (← f.text? "input") (← f.text? "out") (← f.text? "target")
    (← f.get? "operands" (Value.listOf? Value.term?))

def aggregateOf? (fn : Aggregate) (f : StepFields) : Option Step := do
  return .aggregate fn (← f.text? "input") (← f.text? "out") (← f.groups?) (← f.text? "column")
    (← f.text? "out_col")

def ofFields? (op : String) (f : StepFields) : Option Step := do
  match op with
  | "project" => return .project (← f.text? "input") (← f.text? "out") (← f.texts? "columns")
  | "distinct" => return .distinct (← f.text? "input") (← f.text? "out") (← f.texts? "columns")
  | "multiply" => arithmeticOf? .multiply f
  | "divide" => arithmeticOf? .divide f
  | "limit" => return .limit (← f.text? "input") (← f.text? "out") (← f.get? "num" Value.nat?)
  | "filter_by_col" =>
    return .filterByColumn (← f.text? "input") (← f.text? "out") (← f.text? "column")
      (← f.get? "operator" Value.comparator?) (← f.text? "against")
  | "filter_by_scalar" =>
    return .filterByScalar (← f.text? "input") (← f.text? "out") (← f.text? "column")
      (← f.get? "operator" Value.comparator?) (← f.get? "scalar" Value.scalar?)
  | "sort_by" =>
    return .sortBy (← f.text? "input") (← f.text? "out") (← f.text? "column")
      (← f.getD? "increasing" Value.bool? true)
  | "num_rows" => return .numRows (← f.text? "input") (← f.text? "out") (← f.text? "count_col")
  | "aggregate_count" =>
    return .count (← f.text? "input") (← f.text? "out") (← f.groups?) (← f.text? "count_col")
  | "aggregate_sum" => aggregateOf? .sum f
  | "aggregate_mean" => aggregateOf? .mean f
  | "aggregate_std_dev" => aggregateOf? .stdDev f
  | "index" => return .index (← f.text? "input") (← f.text? "out") (← f.text? "column")
  | "shuffle" => return .shuffle (← f.text? "input") (← f.text? "out")
  | "persist" => return .persist (← f.text? "input") (← f.text? "out")
  | "send" => return .send (← f.text? "input") (← f.text? "out")
  | "join" =>
    return .join (← f.text? "left") (← f.text? "right") (← f.text? "out") (← f.texts? "left_on")
      (← f.texts? "right_on")
  | "concat" => return .concat (← f.texts? "inputs") (← f.text? "out")
  | "collect" =>
    return .collect (← f.text? "input") (← f.text? "out")
      (← f.get? "recipients" fun v => IdSet.ofList <$> v.listOf? Value.nat?)
  | _ => none

/-- A step from its `op` and its other entries. -/
def ofEntries? (op : String) (entries : List (Value × Value)) : Option Step := do
  ofFields? op (← StepFields.ofEntries? (← fieldNames? op) entries)

/-- How deep the lists and maps in a field of a step may be nested. -/
def fieldDepth : Nat := 125

/-- An entry of a step: the text of its `op`, or a key and a value. -/
def decodeEntry (entry : Yaml.Node × Yaml.Node) : Decode (String ⊕ (Value × Value)) := do
  match ← Decode.value fieldDepth entry.1 with
  | .str "op" => return .inl (← Decode.text entry.2)
  | key => return .inr (key, ← Decode.value fieldDepth entry.2)

def decode (n : Yaml.Node) : Decode Step := do
  match ← Decode.follow n with
  | .map entries tag =>
    Decode.untyped tag
    let found ← entries.mapM decodeEntry
    match found.filterMap Sum.getLeft? with
    | [op] => ofEntries? op (found.filterMap Sum.getRight?)
    | _ => failure
  | .list (op :: items) tag =>
    Decode.untyped tag
    let op ← Decode.text op
    let values ← items.mapM (Decode.value fieldDepth)
    if (← fieldNames? op).length < values.length then failure
    ofEntries? op (values.mapIdx fun i v => (.nat i, v))
  | _ => failure

end Step

namespace Script

/-- Why a text gives no plan. -/
inductive Failure where
  | unreadable
  | build (fault : Fault)
deriving DecidableEq

/-- What is wrong; about a text that cannot be read no more is said. -/
def Failure.message : Failure → String
  | .unreadable => "YAML parse error: "
  | .build fault => "Workflow construction failed: " ++ fault.message

def decode (n : Yaml.Node) : Decode Script := do
  let fields ← Decode.fields n
  let overrides ← Decode.field? fields "config" (Decode.optional Overrides.decode)
  let sources ← Decode.field fields "relations" (Decode.list Source.decode)
  let steps ← Decode.field fields "steps" (Decode.list Step.decode)
  return { overrides := overrides.join.getD {}, sources, steps }

def parse? (text : String) : Option Script := do Decode.run decode (← Yaml.Document.parse? text)

/-- The plan that a text describes and the settings in it. The whole text is read
before the plan is built. -/
def load (text : String) : Except Failure (Plan × Overrides) :=
  match parse? text with
  | none => .error .unreadable
  | some script =>
    match script.build with
    | .ok plan => .ok (plan, script.overrides)
    | .error fault => .error (.build fault)

end Script

end JointPlan
