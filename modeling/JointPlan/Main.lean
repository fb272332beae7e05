import JointPlan.Command

/-!
# Command line

`validate`, `compile` and `partition`, each with the path of a script.
-/

namespace JointPlan

/-- The arguments of a command line. -/
structure Arguments where
  command : String
  path : Option String := none
  plain : Bool := false
  iterationLimit : Option Nat := none
  party : Option PartyId := none

namespace Arguments

def parse? (args : Arguments) : List String → Option Arguments
  | [] => some args
  | "-v" :: rest | "--verbose" :: rest => args.parse? rest
  | "-w" :: path :: rest | "--workflow" :: path :: rest =>
    parse? { args with path := some path } rest
  | "--no-optimize" :: rest => parse? { args with plain := true } rest
  | "--iteration-limit" :: n :: rest => do
    let limit ← Text.word? n
    parse? { args with iterationLimit := some limit } rest
  | "--party" :: n :: rest => do
    let party ← Text.word? n
    parse? { args with party := some party } rest
  | _ => none

def command? (args : Arguments) : Option Command :=
  match args.command, args.plain, args.iterationLimit, args.party with
  | "validate", false, none, none => some .validate
  | "compile", plain, none, none => some (.compile plain)
  | "partition", plain, limit, party => some (.partition plain limit party)
  | _, _, _, _ => none

end Arguments

/-- The variables that settings are read from. -/
def settingVariables : List String :=
  ["MPCFLOW_ITERATION_LIMIT", "MPCFLOW_OPTIMIZE", "MPCFLOW_MPC_BACKEND", "MPCFLOW_LOCAL_BACKEND",
   "MPCFLOW_PARTY_ID"]

def usage : String :=
  "usage: validate|compile|partition --workflow PATH [--no-optimize] [--iteration-limit N] [--party N]"

end JointPlan

open JointPlan in
def main (args : List String) : IO UInt32 := do
  let request := do
    let parsed ← Arguments.parse? { command := args.headD "" } args.tail
    return (← parsed.command?, ← parsed.path)
  match request with
  | none =>
    IO.eprintln usage
    return 2
  | some (command, path) =>
    let text ← IO.FS.readFile path
    let set ← settingVariables.filterMapM fun name => do
      return (← IO.getEnv name).map (name, ·)
    let outcome := command.run (fun name => set.lookup name) text
    IO.print outcome.stdout
    IO.eprint outcome.stderr
    return outcome.code.toUInt32
