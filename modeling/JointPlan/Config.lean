import JointPlan.Json.Basic
import JointPlan.Party
import JointPlan.Text.Blank
import JointPlan.Text.Numeral

/-!
# Configuration

Settings of the compiler. They start from fixed values, which the environment,
then the workflow document and then the command line may change.
-/

namespace JointPlan

structure Config where
  /-- Greatest number of parts a plan is cut into. -/
  iterationLimit : Nat := 100
  optimize : Bool := true
  /-- Name of the backend that runs parts under MPC. -/
  mpcBackend : String := "mpc"
  /-- Name of the backend that runs local parts. -/
  localBackend : String := "local"
  /-- The party that asks. -/
  party : Option PartyId := none
deriving DecidableEq

/-- Settings that are given; the others stay as they are. -/
structure Overrides where
  iterationLimit : Option Nat := none
  optimize : Option Bool := none
  mpcBackend : Option String := none
  localBackend : Option String := none
  party : Option PartyId := none
deriving DecidableEq

namespace Overrides

def apply (o : Overrides) (c : Config) : Config where
  iterationLimit := o.iterationLimit.getD c.iterationLimit
  optimize := o.optimize.getD c.optimize
  mpcBackend := o.mpcBackend.getD c.mpcBackend
  localBackend := o.localBackend.getD c.localBackend
  party := o.party <|> c.party

end Overrides

namespace Config

-- ---------------------------------------------------------------------------
-- Environment
-- ---------------------------------------------------------------------------

/-- A switch: one of four words each way, in any case, blanks around it ignored. -/
def flag? (s : String) : Option Bool :=
  let word := String.ofList ((Text.trimBlank s.toList).map Char.toLower)
  if word ∈ ["1", "true", "yes", "on"] then some true
  else if word ∈ ["0", "false", "no", "off"] then some false
  else none

def nonempty? (s : String) : Option String := if s = "" then none else some s

/-- What the environment says. A variable that cannot be read counts as not set. -/
def environment (lookup : String → Option String) : Overrides where
  iterationLimit := lookup "MPCFLOW_ITERATION_LIMIT" >>= Text.word?
  optimize := lookup "MPCFLOW_OPTIMIZE" >>= flag?
  mpcBackend := lookup "MPCFLOW_MPC_BACKEND" >>= nonempty?
  localBackend := lookup "MPCFLOW_LOCAL_BACKEND" >>= nonempty?
  party := lookup "MPCFLOW_PARTY_ID" >>= Text.word?

def withEnvironment (c : Config) (lookup : String → Option String) : Config :=
  (environment lookup).apply c

-- ---------------------------------------------------------------------------
-- JSON
-- ---------------------------------------------------------------------------

def toJson (c : Config) : Json := .obj [
  ("iteration_limit", .ofNat c.iterationLimit),
  ("optimize", .bool c.optimize),
  ("mpc_backend", .str c.mpcBackend),
  ("local_backend", .str c.localBackend),
  ("party_id", Json.ofOption Json.ofNat c.party)]

def fieldNames : List String :=
  ["iteration_limit", "optimize", "mpc_backend", "local_backend", "party_id"]

/-- A missing field has its first value. Only the party may be null. -/
def ofJson? (j : Json) : Option Config := do
  let j ← j.record? fieldNames
  let or {α : Type} (key : String) (decode : Json → Option α) (default : α) : Option α :=
    match j.field? key with
    | none => some default
    | some value => decode value
  let start : Config := {}
  return {
    iterationLimit := ← or "iteration_limit" Json.nat? start.iterationLimit
    optimize := ← or "optimize" Json.bool? start.optimize
    mpcBackend := ← or "mpc_backend" Json.str? start.mpcBackend
    localBackend := ← or "local_backend" Json.str? start.localBackend
    party := ← j.getOptional? "party_id" Json.nat? }

end Config

namespace Overrides

def toJson (o : Overrides) : Json := .obj [
  ("iteration_limit", Json.ofOption Json.ofNat o.iterationLimit),
  ("optimize", Json.ofOption Json.bool o.optimize),
  ("mpc_backend", Json.ofOption Json.str o.mpcBackend),
  ("local_backend", Json.ofOption Json.str o.localBackend),
  ("party_id", Json.ofOption Json.ofNat o.party)]

def ofJson? (j : Json) : Option Overrides := do
  let j ← j.record? Config.fieldNames
  return {
    iterationLimit := ← j.getOptional? "iteration_limit" Json.nat?
    optimize := ← j.getOptional? "optimize" Json.bool?
    mpcBackend := ← j.getOptional? "mpc_backend" Json.str?
    localBackend := ← j.getOptional? "local_backend" Json.str?
    party := ← j.getOptional? "party_id" Json.nat? }

end Overrides

end JointPlan
