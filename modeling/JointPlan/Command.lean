import JointPlan.Compile
import JointPlan.Partition.Cut
import JointPlan.Plan.Fingerprint
import JointPlan.Plan.Listing
import JointPlan.Script.Reading

/-!
# Commands

What a user can ask about a script: whether it is valid, the compiled plan, and
the parts that the plan is cut into. The settings come from the environment, then
from the script, then from the command.
-/

namespace JointPlan

inductive Command where
  | validate
  | compile (plain : Bool)
  | partition (plain : Bool) (iterationLimit : Option Nat) (party : Option PartyId)
deriving DecidableEq

/-- What a command leaves behind. -/
structure Outcome where
  code : Nat
  stdout : String
  stderr : String
deriving DecidableEq

/-- Writing a report; what is written before a failure stays. -/
abbrev Report := EStateM String String

namespace Report

def line (text : String) : Report Unit := modify (· ++ text ++ "\n")

/-- Go on with a result, or fail with the text of its error. -/
def get {ε α : Type} (message : ε → String) : Except ε α → Report α
  | .ok a => return a
  | .error e => throw (message e)

end Report

namespace Command

/-- The changes that a command makes to the settings; `plain` turns optimization off. -/
def overrides : Command → Overrides
  | .validate => {}
  | .compile plain => { optimize := if plain then some false else none }
  | .partition plain iterationLimit party =>
    { optimize := if plain then some false else none, iterationLimit, party }

def config (environment : String → Option String) (script : Overrides) (c : Command) : Config :=
  c.overrides.apply (script.apply (({} : Config).withEnvironment environment))

def load (text : String) : Report (Plan × Overrides) :=
  Report.get Script.Failure.message (Script.load text)

def compiled (p : Plan) (cfg : Config) : Report Plan :=
  match Edit.compile cfg.optimize p with
  | .ok _ p => return p
  | .error fault _ => throw fault.message

def reportPlan (p : Plan) (cfg : Config) : Report Unit := do
  let p ← compiled p cfg
  Report.line "Compiled Plan"
  Report.line "============="
  Report.line ("Optimized: " ++ toString cfg.optimize)
  Report.line ("Fingerprint: " ++ (← Report.get Fault.message p.fingerprint))
  Report.line ""
  let listing ← Report.get Fault.message p.explain
  modify (· ++ listing)

def reportNode (n : Node) : Report Unit :=
  Report.line ("   " ++ Text.padRight 28 n.op.kind ++ " " ++ Text.padRight 24 n.rel.name ++ " " ++
    n.rel.storage.render)

/-- One part under its number; the party that asks is told where it takes part. -/
def reportPart (cfg : Config) (p : Plan) (number : Nat) (part : Part) : Report Unit := do
  let involved ← match cfg.party with
    | some party => Report.get Fault.message (part.involves p party)
    | none => pure false
  Report.line ""
  Report.line (toString number ++ ". " ++ part.backend.name cfg ++
    if involved then " [this party]" else "")
  for n in ← Report.get Fault.message (part.resolve p) do
    reportNode n

def reportParts (p : Plan) (cfg : Config) : Report Unit := do
  let p ← compiled p cfg
  let cut ← Report.get PartitionFault.message (p.partition cfg.iterationLimit)
  Report.line ("Partitioned Plan (" ++ toString cut.parts.length ++ " sub-plans)")
  Report.line "================"
  for (part, i) in cut.parts.zipIdx do
    reportPart cfg cut.plan (i + 1) part

def report (environment : String → Option String) (text : String) (c : Command) : Report Unit := do
  let (p, script) ← load text
  let cfg := c.config environment script
  match c with
  | .validate => Report.line "✓ Workflow is valid"
  | .compile .. => reportPlan p cfg
  | .partition .. => reportParts p cfg

def failureHeading : Command → String
  | .validate => "Validation failed: "
  | _ => "Error: "

def run (environment : String → Option String) (text : String) (c : Command) : Outcome :=
  match c.report environment text "" with
  | .ok _ stdout => { code := 0, stdout, stderr := "" }
  | .error message stdout => { code := 1, stdout, stderr := c.failureHeading ++ message ++ "\n" }

end Command

end JointPlan
