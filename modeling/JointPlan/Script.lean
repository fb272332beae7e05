import JointPlan.Config
import JointPlan.Workflow

/-!
# Scripts

A script describes a workflow by names: the relations that the parties hold, then
the steps in order, each of which reads relations defined before it and defines
one. It may also change settings.
-/

namespace JointPlan

/-- A relation that parties hold. -/
structure Source where
  name : String
  loci : List PartySet
  columns : List Column

/-- How the values of a group are combined. -/
inductive Aggregate where
  | sum
  | mean
  | stdDev
deriving DecidableEq

inductive Step where
  | project (input out : String) (columns : List String)
  | distinct (input out : String) (columns : List String)
  | arithmetic (fn : Arithmetic) (input out target : String) (terms : List Term)
  | limit (input out : String) (count : Nat)
  | filterByColumn (input out column : String) (test : Comparator) (against : String)
  | filterByScalar (input out column : String) (test : Comparator) (scalar : Scalar)
  | sortBy (input out column : String) (increasing : Bool)
  | numRows (input out countName : String)
  | count (input out : String) (groups : List String) (countName : String)
  | aggregate (fn : Aggregate) (input out : String) (groups : List String) (column outName : String)
  | index (input out column : String)
  | shuffle (input out : String)
  | persist (input out : String)
  | send (input out : String)
  | join (left right out : String) (leftNames rightNames : List String)
  | concat (inputs : List String) (out : String)
  | collect (input out : String) (recipients : PartySet)

structure Script where
  overrides : Overrides := {}
  sources : List Source
  steps : List Step

-- ---------------------------------------------------------------------------
-- Building
-- ---------------------------------------------------------------------------

def Source.build (s : Source) : Build NodeId := do
  let storage ← Build.ask fun _ => Storage.ofLoci s.loci
  Build.create s.name s.columns storage

namespace Step

/-- The node of a relation defined before. -/
def input (name : String) : Build NodeId := Build.ask fun w => w.lookup name

def build : Step → Build NodeId
  | .project i out columns => do Build.project (← input i) out columns
  | .distinct i out columns => do Build.distinct (← input i) out columns
  | .arithmetic fn i out target terms => do Build.arithmetic fn (← input i) out target terms
  | .limit i out size => do Build.limit (← input i) out size
  | .filterByColumn i out column test against => do
    Build.filterByColumn (← input i) out column test against
  | .filterByScalar i out column test scalar => do
    Build.filterByScalar (← input i) out column test scalar
  | .sortBy i out column increasing => do Build.sortBy (← input i) out column increasing
  | .numRows i out countName => do Build.numRows (← input i) out countName
  | .count i out groups countName => do Build.count (← input i) out groups countName
  | .aggregate .sum i out groups column outName => do
    Build.sum (← input i) out groups column outName
  | .aggregate .mean i out groups column outName => do
    Build.mean (← input i) out groups column outName
  | .aggregate .stdDev i out groups column outName => do
    Build.stdDev (← input i) out groups column outName
  | .index i out column => do Build.index (← input i) out column
  | .shuffle i out => do Build.shuffle (← input i) out
  | .persist i out => do Build.persist (← input i) out
  | .send i out => do Build.send (← input i) out
  | .join left right out leftNames rightNames => do
    Build.join (← input left) (← input right) out leftNames rightNames
  | .concat inputs out => do Build.concat (← inputs.mapM input) out
  | .collect i out recipients => do Build.collect (← input i) out recipients

end Step

namespace Script

/-- The plan of a script, checked. -/
def build (s : Script) : Except Fault Plan :=
  let all : Build Plan := do
    for source in s.sources do
      discard source.build
    for step in s.steps do
      discard step.build
    Build.ask Workflow.build
  match all .empty with
  | .ok plan _ => .ok plan
  | .error fault _ => .error fault

end Script

end JointPlan
