import JointPlan.Relation
import JointPlan.Scalar

/-!
# Operators

The relational operators of a plan with their parameters. Column parameters are
copies of the columns of the input relation; they are bound to it by position.

Besides what a workflow is written with there are the operators that only the
compiler introduces: `opening` and `closing` lead out of and into MPC, `store`
and `read` hand a relation from one process to the next, and the partial
aggregates are the two halves of an aggregate that is computed partly in the
clear.
-/

namespace JointPlan

inductive Arithmetic where
  | multiply
  | divide
deriving DecidableEq

inductive Op where
  | create
  | project (columns : List Column)
  | distinct (columns : List Column)
  /-- Set `target` to the product or the quotient of the operands, from left to
  right; `appends` says that `target` is a new column. -/
  | arithmetic (fn : Arithmetic) (target : Column) (operands : List Operand) (appends : Bool)
  | limit (count : Nat)
  | filterByColumn (column against : Column) (test : Comparator)
  | filterByScalar (column : Column) (scalar : Scalar) (test : Comparator)
  | sortBy (column : Column) (increasing : Bool)
  | numRows (name : String)
  | count (groups : List Column) (name : String)
  | sum (groups : List Column) (column : Column) (name : String)
  /-- With `weight`, the mean is recombined from partial sums and counts. -/
  | mean (groups : List Column) (column : Column) (name : String) (weight : Option Column)
  | stdDev (groups : List Column) (column : Column) (name : String)
  | collect (recipients : PartySet)
  | opening
  | closing (storage : Storage)
  | store
  | read
  | persist
  | send
  | index (name : String)
  | shuffle
  | sumCount (groups : List Column) (column : Column) (sumName countName : String)
  | sumSquaresCount (groups : List Column) (column : Column)
      (sumName squaresName countName : String)
  | squareRoot (name : String)
  | variance (groups : List Column) (total squares size : Column) (name : String)
  | columnSums (groups columns : List Column)
  | join (leftKeys rightKeys : List Column)
  | memberFilter (column member : Column) (isIn : Bool)
  | columnUnion (left right : Column) (name : String)
  | concat
deriving DecidableEq

namespace Op

instance : Inhabited Op := ⟨.create⟩

def arity : Op → Arity
  | .create => .nullary
  | .join .. | .memberFilter .. | .columnUnion .. => .binary
  | .concat => .nary
  | _ => .unary

def kind : Op → String
  | .create => "Create"
  | .project .. => "Project"
  | .distinct .. => "Distinct"
  | .arithmetic .multiply .. => "Multiply"
  | .arithmetic .divide .. => "Divide"
  | .limit .. => "Limit"
  | .filterByColumn .. => "FilterAgainstCol"
  | .filterByScalar .. => "FilterAgainstScalar"
  | .sortBy .. => "SortBy"
  | .numRows .. => "NumRows"
  | .count .. => "AggregateCount"
  | .sum .. => "AggregateSum"
  | .mean .. => "AggregateMean"
  | .stdDev .. => "AggregateStdDev"
  | .collect .. => "Collect"
  | .opening => "Open"
  | .closing .. => "Close"
  | .store => "Store"
  | .read => "Read"
  | .persist => "Persist"
  | .send => "Send"
  | .index .. => "Index"
  | .shuffle => "Shuffle"
  | .sumCount .. => "AggregateSumCountCol"
  | .sumSquaresCount .. => "AggregateSumSquaresAndCount"
  | .squareRoot .. => "AggregateStdDevLocalSqrt"
  | .variance .. => "AggregateVarianceLocalDiff"
  | .columnSums .. => "ColSum"
  | .join .. => "Join"
  | .memberFilter .. => "MemberFilter"
  | .columnUnion .. => "ColumnUnion"
  | .concat => "Concat"

/-- The operator's keyword in listings. -/
def keyword : Op → String
  | .create => "create"
  | .project .. => "project"
  | .distinct .. => "distinct"
  | .arithmetic .multiply .. => "multiply"
  | .arithmetic .divide .. => "divide"
  | .limit .. => "limit"
  | .filterByColumn .. => "filter_against_col"
  | .filterByScalar .. => "filter_against_scalar"
  | .sortBy .. => "sort_by"
  | .numRows .. => "num_rows"
  | .count .. => "aggregate_count"
  | .sum .. => "aggregate_sum"
  | .mean .. => "aggregate_mean"
  | .stdDev .. => "aggregate_std_dev"
  | .collect .. => "collect"
  | .opening => "open"
  | .closing .. => "close"
  | .store => "store"
  | .read => "read"
  | .persist => "persist"
  | .send => "send"
  | .index .. => "index"
  | .shuffle => "shuffle"
  | .sumCount .. => "aggregate_sum_count_col"
  | .sumSquaresCount .. => "aggregate_sum_squares_and_count"
  | .squareRoot .. => "aggregate_std_dev_local_sqrt"
  | .variance .. => "aggregate_variance_local_diff"
  | .columnSums .. => "col_sum"
  | .join .. => "join"
  | .memberFilter .. => "member_filter"
  | .columnUnion .. => "column_union"
  | .concat => "concat"

/-- The operators that stand at the border between MPC and the clear. -/
def isBoundary : Op → Bool
  | .opening | .closing .. | .store | .read => true
  | _ => false

end Op

end JointPlan
