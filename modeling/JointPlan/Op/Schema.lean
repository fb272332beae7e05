import JointPlan.Op.Binding

/-!
# What an operator yields

The storage and the columns of an operator's output, computed from its bound
parameters and its input relations. Labels follow the values: a column that is
computed from others is labelled with what all of them share, and a result that
no longer depends on single rows is open to all parties that store it.
-/

namespace JointPlan

namespace Op

-- ---------------------------------------------------------------------------
-- Storage
-- ---------------------------------------------------------------------------

/-- Where the output lives; `none` for an operator without inputs, which keeps
its storage. -/
def outputStorage? (op : Op) (ins : List Relation) : Except Fault (Option Storage) :=
  match op with
  | .create => .ok none
  | .collect recipients => some <$> Storage.ofMembers recipients
  | .opening => (fun r => some r.storage.flattened) <$> input ins 0 op.kind
  | .closing storage => .ok (some storage)
  | _ =>
    match op.arity with
    | .unary => (fun r => some r.storage) <$> input ins 0 op.kind
    | _ => some <$> Storage.combine (ins.map Relation.storage)

-- ---------------------------------------------------------------------------
-- Columns
-- ---------------------------------------------------------------------------

/-- The type of `start` combined with all operands, from left to right. -/
def promoteAll (start : ColumnType) (operands : List Operand) : Except Fault ColumnType :=
  operands.foldlM (fun type o => type.promote o.type) start

/-- The input's columns with the target overwritten or added at the end. -/
def arithmeticColumns (rel : Relation) (target : Column) (operands : List Operand)
    (appends : Bool) : Except Fault (List Column) :=
  let sources := operands.filterMap Operand.column?
  if appends then
    match operands with
    | [] => .error (.newColumnWithoutOperands target.name)
    | first :: rest =>
      if sources.isEmpty then .error (.newColumnWithoutColumns target.name)
      else do
        let type ← promoteAll first.type rest
        return rel.columns ++ [{ target.derived sources with type }]
  else do
    let prior ← rel.columnAt target.index
    let type ← promoteAll prior.type operands
    return rel.columns.set target.index { prior.derived (sources ++ [prior]) with type }

/-- Columns computed per group. Without groups they are open to all storing
parties; with groups they are labelled by the groups and the aggregated columns. -/
def aggregated (groups sources : List Column) (members : PartySet) (out : Column) : Column :=
  if groups.isEmpty then out.labeled members members else out.derived (groups ++ sources)

def aggregateColumns (groups sources outs : List Column) (members : PartySet) : List Column :=
  groups ++ outs.map (aggregated groups sources members)

/-- Keys first, then what is left of the left input, then of the right one. -/
def joinColumns (left right : Relation) (leftKeys rightKeys : List Column) :
    Except Fault (List Column) := do
  if leftKeys.length ≠ rightKeys.length then
    throw (.joinKeyCount left.name right.name leftKeys.length rightKeys.length)
  let keys ← (leftKeys.zip rightKeys).mapM fun (l, r) =>
    if l.type = r.type then .ok (l.derived [l, r])
    else .error (.joinKeyTypes left.name l.name l.type right.name r.name r.type)
  let rest (rel : Relation) (keys : List Column) : List Column :=
    rel.columns.filter fun c => !(keys.map Column.index).contains c.index
  return keys ++ rest left leftKeys ++ rest right rightKeys

/-- Refuses an input that does not line up with the first one. -/
def checkConcat (first : Relation) : List Relation → Except Fault Unit
  | [] => .ok ()
  | rel :: rest => do
    if rel.columns.length ≠ first.columns.length then
      throw (.concatWidths first.name first.columns.length rel.name rel.columns.length)
    match (first.columns.zip rel.columns).find? fun (a, b) => a.type ≠ b.type with
    | some (a, b) => throw (.typeMismatch a.type b.type)
    | none => checkConcat first rest

/-- The columns of the first input, each labelled with what its position shares
in all inputs. -/
def concatColumns (ins : List Relation) : Except Fault (List Column) :=
  match ins with
  | [] => .error .emptyConcat
  | first :: rest => do
    checkConcat first rest
    return first.columns.mapIdx fun i c => c.derived (ins.filterMap fun r => r.columns[i]?)

/-- The columns of the output before they are numbered; `none` for an operator
without inputs, which keeps its columns. `members` are the parties that store
the output. -/
def outputColumns? (op : Op) (ins : List Relation) (members : PartySet) :
    Except Fault (Option (List Column)) :=
  let columnsOf (position : Nat) : Except Fault (List Column) :=
    Relation.columns <$> input ins position op.kind
  match op with
  | .create => .ok none
  | .limit .. | .filterByColumn .. | .filterByScalar .. | .sortBy .. | .collect .. | .closing ..
  | .store | .read | .persist | .send | .shuffle => some <$> columnsOf 0
  | .project cs | .distinct cs => .ok (some cs)
  | .opening => do return some ((← columnsOf 0).map (·.loosen members))
  | .arithmetic _ target operands appends => do
    return some (← arithmeticColumns (← input ins 0 op.kind) target operands appends)
  | .numRows name => .ok (some [(Column.fresh name .integer).labeled members members])
  | .index name => do
    return some ((Column.fresh name .integer).labeled members members :: (← columnsOf 0))
  | .count groups name =>
    .ok (some (aggregateColumns groups [] [.fresh name .integer] members))
  | .sum groups c name =>
    .ok (some (aggregateColumns groups [c] [.fresh name c.type] members))
  | .mean groups c name weight =>
    .ok (some (aggregateColumns groups (c :: weight.toList) [.fresh name .float] members))
  | .stdDev groups c name =>
    .ok (some (aggregateColumns groups [c] [.fresh name .float] members))
  | .sumCount groups c sumName countName =>
    .ok (some (aggregateColumns groups [c]
      [.fresh sumName c.type, .fresh countName .integer] members))
  | .sumSquaresCount groups c sumName squaresName countName =>
    .ok (some (aggregateColumns groups [c]
      [.fresh sumName c.type, .fresh squaresName c.type, .fresh countName .integer] members))
  | .variance groups total squares size name =>
    .ok (some (aggregateColumns groups [total, squares, size] [.fresh name .float] members))
  | .columnSums groups cs => .ok (some (groups ++ cs.map fun c => aggregated groups [c] members c))
  | .squareRoot name => do
    let cs ← columnsOf 0
    match cs.getLast? with
    | none => throw (.noColumns op.kind)
    | some last => return some (cs.dropLast ++ [{ last with name, type := .float }])
  | .join leftKeys rightKeys => do
    return some (← joinColumns (← input ins 0 op.kind) (← input ins 1 op.kind) leftKeys rightKeys)
  | .memberFilter _ member _ => do
    return some ((← columnsOf 0).map fun c => c.derived [c, member])
  | .columnUnion left right name =>
    if left.type = right.type then .ok (some [{ left.derived [left, right] with name }])
    else .error (.unionTypes left.name left.type right.name right.type)
  | .concat => some <$> concatColumns ins

-- ---------------------------------------------------------------------------
-- Reversibility
-- ---------------------------------------------------------------------------

/-- Whether the input can be recovered from the output and the parameters. -/
def isReversible (op : Op) (ins : List Relation) : Bool :=
  match op with
  | .store | .read | .persist | .send | .index .. | .shuffle | .opening | .closing .. | .concat
  | .sortBy .. | .arithmetic .divide .. => true
  | .project cs =>
    match ins with
    | [] => false
    | rel :: _ => (IdSet.ofList (cs.map Column.index)).size = rel.columns.length
  | .arithmetic .multiply _ operands _ =>
    operands.all fun
      | .scalar s => !s.isZero
      | .column _ => true
  | _ => false

end Op

end JointPlan
