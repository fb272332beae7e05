import JointPlan.Json.Basic
import JointPlan.Plan.Basic

/-!
# Plans as JSON

The JSON form of a plan and of everything in it. A structure is an object with
its fields in a fixed order; reading one needs every field and ignores others, and
takes a list of the fields as well.
An operator is an object with its kind as the only key, or just its kind if it
has no parameters. Reading a storage checks it, and reading a set of parties or
nodes takes its members in any order.
-/

namespace JointPlan

-- ---------------------------------------------------------------------------
-- Tagged values
-- ---------------------------------------------------------------------------

namespace Json

/-- A value with a tag: the tag alone, or an object with the tag as its key. -/
def tagged? : Json → Option (String × Json)
  | .str tag => some (tag, .null)
  | .obj [(tag, value)] => some (tag, value)
  | _ => none

def tag (tag : String) (fields : List (String × Json)) : Json := .obj [(tag, .obj fields)]

/-- Nothing but null, the value of a tag without parameters. -/
def unit? {α : Type} (a : α) : Json → Option α
  | .null => some a
  | _ => none

end Json

-- ---------------------------------------------------------------------------
-- Sets
-- ---------------------------------------------------------------------------

namespace IdSet

def toJson (s : IdSet) : Json := Json.ofList Json.ofNat s.toList

def ofJson? (j : Json) : Option IdSet := ofList <$> j.listOf? Json.nat?

end IdSet

-- ---------------------------------------------------------------------------
-- Columns and relations
-- ---------------------------------------------------------------------------

namespace ColumnType

def toJson (t : ColumnType) : Json := .str t.render

def ofJson? (j : Json) : Option ColumnType := do
  let (tag, value) ← j.tagged?
  Json.unit? (← ofName? tag) value

end ColumnType

namespace Column

def toJson (c : Column) : Json := .obj [
  ("rel_name", .str c.owner),
  ("name", .str c.name),
  ("idx", .ofNat c.index),
  ("col_type", c.type.toJson),
  ("trust_with", c.trust.toJson),
  ("plaintext", c.plain.toJson)]

def fieldNames : List String := ["rel_name", "name", "idx", "col_type", "trust_with", "plaintext"]

def ofJson? (j : Json) : Option Column := do
  let j ← j.record? fieldNames
  return {
    owner := ← j.get? "rel_name" Json.str?
    name := ← j.get? "name" Json.str?
    index := ← j.get? "idx" Json.nat?
    type := ← j.get? "col_type" ColumnType.ofJson?
    trust := ← j.get? "trust_with" IdSet.ofJson?
    plain := ← j.get? "plaintext" IdSet.ofJson? }

end Column

namespace Storage

def toJson (st : Storage) : Json := Json.ofList IdSet.toJson st.loci

def ofJson? (j : Json) : Option Storage := do (ofLoci (← j.listOf? IdSet.ofJson?)).toOption

end Storage

namespace Relation

def toJson (r : Relation) : Json := .obj [
  ("name", .str r.name),
  ("columns", Json.ofList Column.toJson r.columns),
  ("stored_with", r.storage.toJson)]

def fieldNames : List String := ["name", "columns", "stored_with"]

def ofJson? (j : Json) : Option Relation := do
  let j ← j.record? fieldNames
  return {
    name := ← j.get? "name" Json.str?
    columns := ← j.get? "columns" (Json.listOf? Column.ofJson?)
    storage := ← j.get? "stored_with" Storage.ofJson? }

end Relation

-- ---------------------------------------------------------------------------
-- Operands
-- ---------------------------------------------------------------------------

namespace Scalar

def toJson : Scalar → Json
  | .int value => .int value
  | .float value => .float value

/-- A whole number beyond 64 bits with sign is taken as a double. -/
def ofJson? : Json → Option Scalar
  | .int n =>
    if -(Word.signedLimit : Int) ≤ n ∧ n < Word.signedLimit then some (.int n)
    else some (.float (Double.ofNat (n < 0) n.natAbs))
  | .float d => some (.float d)
  | _ => none

end Scalar

namespace Operand

def toJson : Operand → Json
  | .column c => .obj [("Col", c.toJson)]
  | .scalar s => .obj [("Scalar", s.toJson)]

def ofJson? : Json → Option Operand
  | .obj [("Col", j)] => .column <$> Column.ofJson? j
  | .obj [("Scalar", j)] => .scalar <$> Scalar.ofJson? j
  | _ => none

end Operand

namespace Comparator

def toJson (c : Comparator) : Json := .str c.name

def ofJson? (j : Json) : Option Comparator := do
  let (tag, value) ← j.tagged?
  Json.unit? (← ofName? tag) value

end Comparator

namespace Inputs

def toJson : Inputs → Json
  | .none => .str "None"
  | .unary input => .obj [("Unary", .ofNat input)]
  | .binary left right => Json.tag "Binary" [("left", .ofNat left), ("right", .ofNat right)]
  | .nary inputs => .obj [("Nary", Json.ofList Json.ofNat inputs)]

def ofJson? (j : Json) : Option Inputs := do
  match ← j.tagged? with
  | ("None", value) => Json.unit? .none value
  | ("Unary", value) => return .unary (← value.nat?)
  | ("Binary", value) =>
    return .binary (← value.get? "left" Json.nat?) (← value.get? "right" Json.nat?)
  | ("Nary", value) => return .nary (← value.listOf? Json.nat?)
  | _ => failure

end Inputs

-- ---------------------------------------------------------------------------
-- Operators
-- ---------------------------------------------------------------------------

namespace Op

def toJson (op : Op) : Json :=
  let columns (cs : List Column) : Json := Json.ofList Column.toJson cs
  let tagged := Json.tag op.kind
  match op with
  | .create | .opening | .store | .read | .persist | .send | .shuffle | .concat => .str op.kind
  | .project cs | .distinct cs => tagged [("selected_cols", columns cs)]
  | .arithmetic _ target operands appends => tagged [
      ("target_col", target.toJson),
      ("operands", Json.ofList Operand.toJson operands),
      ("new_col", .bool appends)]
  | .limit n => tagged [("num", .ofNat n)]
  | .filterByColumn c against test => tagged [
      ("filter_col", c.toJson), ("against_col", against.toJson), ("operator", test.toJson)]
  | .filterByScalar c scalar test => tagged [
      ("filter_col", c.toJson), ("scalar", scalar.toJson), ("operator", test.toJson)]
  | .sortBy c increasing => tagged [("sort_by_col", c.toJson), ("increasing", .bool increasing)]
  | .numRows name => tagged [("count_col_name", .str name)]
  | .count groups name => tagged [("group_cols", columns groups), ("count_col_name", .str name)]
  | .sum groups c name | .stdDev groups c name => tagged [
      ("group_cols", columns groups), ("agg_col", c.toJson), ("out_name", .str name)]
  | .mean groups c name weight => tagged [
      ("group_cols", columns groups), ("agg_col", c.toJson), ("out_name", .str name),
      ("count_col", Json.ofOption Column.toJson weight)]
  | .collect recipients => tagged [("recipients", recipients.toJson)]
  | .closing storage => tagged [("stored_with", storage.toJson)]
  | .index name => tagged [("idx_col_name", .str name)]
  | .sumCount groups c sumName countName => tagged [
      ("group_cols", columns groups), ("agg_col", c.toJson), ("sum_name", .str sumName),
      ("count_name", .str countName)]
  | .sumSquaresCount groups c sumName squaresName countName => tagged [
      ("group_cols", columns groups), ("agg_col", c.toJson), ("sum_name", .str sumName),
      ("squares_name", .str squaresName), ("count_name", .str countName)]
  | .squareRoot name => tagged [("out_name", .str name)]
  | .variance groups total squares size name => tagged [
      ("group_cols", columns groups), ("sum_col", total.toJson), ("squares_col", squares.toJson),
      ("count_col", size.toJson), ("out_name", .str name)]
  | .columnSums groups cs => tagged [("group_cols", columns groups), ("sum_cols", columns cs)]
  | .join leftKeys rightKeys => tagged [
      ("left_join_cols", columns leftKeys), ("right_join_cols", columns rightKeys)]
  | .memberFilter c member isIn => tagged [
      ("filter_col", c.toJson), ("in_col", member.toJson), ("is_in", .bool isIn)]
  | .columnUnion left right name => tagged [
      ("left_col", left.toJson), ("right_col", right.toJson), ("out_name", .str name)]

def ofJson? (j : Json) : Option Op := do
  let (kind, v) ← j.tagged?
  let column (key : String) : Option Column := v.get? key Column.ofJson?
  let columns (key : String) : Option (List Column) := v.get? key (Json.listOf? Column.ofJson?)
  let name (key : String) : Option String := v.get? key Json.str?
  let flag (key : String) : Option Bool := v.get? key Json.bool?
  let arithmetic (fn : Arithmetic) : Option Op := do
    return .arithmetic fn (← column "target_col")
      (← v.get? "operands" (Json.listOf? Operand.ofJson?)) (← flag "new_col")
  let test : Option Comparator := v.get? "operator" Comparator.ofJson?
  match kind with
  | "Create" => Json.unit? .create v
  | "Project" => return .project (← columns "selected_cols")
  | "Distinct" => return .distinct (← columns "selected_cols")
  | "Multiply" => arithmetic .multiply
  | "Divide" => arithmetic .divide
  | "Limit" => return .limit (← v.get? "num" Json.nat?)
  | "FilterAgainstCol" =>
    return .filterByColumn (← column "filter_col") (← column "against_col") (← test)
  | "FilterAgainstScalar" =>
    return .filterByScalar (← column "filter_col") (← v.get? "scalar" Scalar.ofJson?) (← test)
  | "SortBy" => return .sortBy (← column "sort_by_col") (← flag "increasing")
  | "NumRows" => return .numRows (← name "count_col_name")
  | "AggregateCount" => return .count (← columns "group_cols") (← name "count_col_name")
  | "AggregateSum" =>
    return .sum (← columns "group_cols") (← column "agg_col") (← name "out_name")
  | "AggregateMean" =>
    return .mean (← columns "group_cols") (← column "agg_col") (← name "out_name")
      (← v.getOptional? "count_col" Column.ofJson?)
  | "AggregateStdDev" =>
    return .stdDev (← columns "group_cols") (← column "agg_col") (← name "out_name")
  | "Collect" => return .collect (← v.get? "recipients" IdSet.ofJson?)
  | "Open" => Json.unit? .opening v
  | "Close" => return .closing (← v.get? "stored_with" Storage.ofJson?)
  | "Store" => Json.unit? .store v
  | "Read" => Json.unit? .read v
  | "Persist" => Json.unit? .persist v
  | "Send" => Json.unit? .send v
  | "Index" => return .index (← name "idx_col_name")
  | "Shuffle" => Json.unit? .shuffle v
  | "AggregateSumCountCol" =>
    return .sumCount (← columns "group_cols") (← column "agg_col") (← name "sum_name")
      (← name "count_name")
  | "AggregateSumSquaresAndCount" =>
    return .sumSquaresCount (← columns "group_cols") (← column "agg_col") (← name "sum_name")
      (← name "squares_name") (← name "count_name")
  | "AggregateStdDevLocalSqrt" => return .squareRoot (← name "out_name")
  | "AggregateVarianceLocalDiff" =>
    return .variance (← columns "group_cols") (← column "sum_col") (← column "squares_col")
      (← column "count_col") (← name "out_name")
  | "ColSum" => return .columnSums (← columns "group_cols") (← columns "sum_cols")
  | "Join" => return .join (← columns "left_join_cols") (← columns "right_join_cols")
  | "MemberFilter" =>
    return .memberFilter (← column "filter_col") (← column "in_col") (← flag "is_in")
  | "ColumnUnion" =>
    return .columnUnion (← column "left_col") (← column "right_col") (← name "out_name")
  | "Concat" => Json.unit? .concat v
  | _ => failure

end Op

-- ---------------------------------------------------------------------------
-- Nodes and plans
-- ---------------------------------------------------------------------------

namespace Node

def toJson (n : Node) : Json := .obj [
  ("id", .ofNat n.id),
  ("op", n.op.toJson),
  ("out_rel", n.rel.toJson),
  ("inputs", n.inputs.toJson),
  ("parents", n.parents.toJson),
  ("children", n.children.toJson)]

def fieldNames : List String := ["id", "op", "out_rel", "inputs", "parents", "children"]

def ofJson? (j : Json) : Option Node := do
  let j ← j.record? fieldNames
  return {
    id := ← j.get? "id" Json.nat?
    op := ← j.get? "op" Op.ofJson?
    rel := ← j.get? "out_rel" Relation.ofJson?
    inputs := ← j.get? "inputs" Inputs.ofJson?
    parents := ← j.get? "parents" IdSet.ofJson?
    children := ← j.get? "children" IdSet.ofJson? }

end Node

namespace NodeId

/-- An identifier as a key: its decimal digits, without leading zeros. -/
def ofKey? (key : String) : Option NodeId := do
  let digits := key.toList
  if digits.isEmpty || !digits.all Char.isDigit then failure
  if digits.head? = some '0' && digits.length ≠ 1 then failure
  let id := digits.foldl (fun n c => 10 * n + (c.toNat - 48)) 0
  if id < Word.limit then return id else failure

end NodeId

namespace Plan

def toJson (p : Plan) : Json := .obj [
  ("nodes", .obj (p.nodes.entries.map fun (id, n) => (toString id, n.toJson))),
  ("roots", p.roots.toJson),
  ("next_id", .ofNat p.nextId)]

def nodesOfJson? : Json → Option (IdMap Node)
  | .obj fields => do
    return .ofList (← fields.mapM fun (key, j) => do return (← NodeId.ofKey? key, ← Node.ofJson? j))
  | _ => none

def fieldNames : List String := ["nodes", "roots", "next_id"]

def ofJson? (j : Json) : Option Plan := do
  let j ← j.record? fieldNames
  return {
    nodes := ← j.get? "nodes" nodesOfJson?
    roots := ← j.get? "roots" IdSet.ofJson?
    nextId := ← j.get? "next_id" Json.nat? }

end Plan

end JointPlan
