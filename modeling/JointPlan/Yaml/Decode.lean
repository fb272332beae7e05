import JointPlan.Yaml.Value

/-!
# Reading documents

Two ways to read a node. Where the type of a field is known, the text of a scalar
is read as that type, so a text may look like a number. Otherwise the node is
taken as a value first. Aliases are followed as they are met, at most a hundred
times the size of the document in all.
-/

namespace JointPlan.Yaml

/-- Reading a document; the state counts the aliases followed. -/
abbrev Decode := ReaderT Document (StateT Nat Option)

namespace Decode

variable {α : Type}

def run (decode : Node → Decode α) (d : Document) : Option α := Prod.fst <$> decode d.root d 0

/-- The node that a node stands for. -/
def follow : Node → Decode Node
  | .reference number => do
    let d ← read
    let followed ← get
    if 100 * d.size ≤ followed then failure
    set (followed + 1)
    d.target? number
  | n => return n

-- ---------------------------------------------------------------------------
-- Values
-- ---------------------------------------------------------------------------

/-- A list or map with a named local tag has no value. -/
def untyped (tag : Option Tag) : Decode Unit := if (tag.bind Tag.name?).isSome then failure else return

/-- The value of a node with lists and maps at most `depth` deep. -/
def value : (depth : Nat) → Node → Decode Value
  | 0, n => do
    match ← follow n with
    | .scalar text style tag => Value.ofScalar? text style tag
    | _ => failure
  | depth + 1, n => do
    match ← follow n with
    | .scalar text style tag => Value.ofScalar? text style tag
    | .list items tag =>
      untyped tag
      return .list (← items.mapM (value depth))
    | .map entries tag =>
      untyped tag
      return .map (← entries.mapM fun (k, v) => return (← value depth k, ← value depth v))
    | .reference _ => failure

-- ---------------------------------------------------------------------------
-- Expected types
-- ---------------------------------------------------------------------------

/-- The text of a scalar, however it is written. -/
def text (n : Node) : Decode String := do
  match ← follow n with
  | .scalar text _ _ => return text
  | _ => failure

/-- The text of a scalar that stands for a value of a core type. -/
def literal (type : String) (n : Node) : Decode String := do
  match ← follow n with
  | .scalar text .plain _ => return text
  | .scalar text .literal tag => if tag = some (.core type) then return text else failure
  | _ => failure

def bool (n : Node) : Decode Bool := do Spelling.bool? (← literal "bool" n)

/-- A whole number of 64 bits without a sign. -/
def word (n : Node) : Decode Nat := do
  let k ← Spelling.natural? (← literal "int" n).toList
  if k < Word.limit then return k else failure

/-- One of several names. A local tag may be the name, and its node is then null. -/
def choice (ofName? : String → Option α) (n : Node) : Decode α := do
  match ← follow n with
  | .scalar text style tag =>
    match tag.bind Tag.name? with
    | none => ofName? text
    | some name =>
      if style = .plain && (text = "" || Spelling.isNull text) then ofName? name else failure
  | _ => failure

/-- A plain null leaves a field unset. -/
def optional (decode : Node → Decode α) (n : Node) : Decode (Option α) := do
  match ← follow n with
  | .scalar text .plain none =>
    if text = "" || Spelling.isNull text then return none
    else some <$> decode (.scalar text .plain none)
  | .scalar text .plain (some tag) =>
    if tag = .core "null" then
      if Spelling.isNull text then return none else failure
    else some <$> decode (.scalar text .plain (some tag))
  | n => some <$> decode n

/-- A field with nothing in it is an empty list. -/
def list (decode : Node → Decode α) (n : Node) : Decode (List α) := do
  match ← follow n with
  | .list items _ => items.mapM decode
  | .scalar "" .plain _ => return []
  | _ => failure

-- ---------------------------------------------------------------------------
-- Fields
-- ---------------------------------------------------------------------------

/-- The fields of a map by the texts of their keys. -/
def fields (n : Node) : Decode (List (String × Node)) := do
  match ← follow n with
  | .map entries _ => entries.mapM fun (k, v) => return (← text k, v)
  | .scalar "" .plain _ => return []
  | _ => failure

/-- A field that may be missing, but not occur twice. -/
def field? (fields : List (String × Node)) (key : String) (decode : Node → Decode α) :
    Decode (Option α) :=
  match fields.filter (·.1 = key) with
  | [] => return none
  | [(_, n)] => some <$> decode n
  | _ => failure

def field (fields : List (String × Node)) (key : String) (decode : Node → Decode α) :
    Decode α := do
  match ← field? fields key decode with
  | some a => return a
  | none => failure

end Decode

end JointPlan.Yaml
