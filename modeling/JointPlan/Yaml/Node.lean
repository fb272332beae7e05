import JointPlan.Yaml.Token

/-!
# Nodes

The tree that a document describes. An alias stays in the tree as the number of an
anchor, so a document that contains itself is a finite tree too; `Document.target?`
gives the node that it stands for.
-/

namespace JointPlan.Yaml

inductive Node where
  | scalar (text : String) (style : Style) (tag : Option Tag)
  | list (items : List Node) (tag : Option Tag)
  | map (entries : List (Node × Node)) (tag : Option Tag)
  /-- The node of the anchor with that number. -/
  | reference (number : Nat)

instance : Inhabited Node := ⟨.scalar "" .plain none⟩

structure Document where
  root : Node
  /-- The anchored nodes by their numbers. -/
  targets : List (Nat × Node)
  /-- Number of scalars, aliases, and starts and ends of lists and maps. -/
  size : Nat

def Document.target? (d : Document) (number : Nat) : Option Node := d.targets.lookup number

-- ---------------------------------------------------------------------------
-- State
-- ---------------------------------------------------------------------------

structure NodeReader where
  tokens : List Token
  /-- What the handles of tags stand for. -/
  handles : List (String × List UInt8) := []
  /-- The number that the name of an anchor stands for at present. -/
  names : List (String × Nat) := []
  /-- The numbers of the anchors, the latest first. -/
  anchors : List Nat := []
  /-- The anchored nodes that are complete, each with its place among the anchors. -/
  nodes : List (Nat × Node) := []
  size : Nat := 0

abbrev ReadNode := StateT NodeReader Option

namespace ReadNode

def peek : ReadNode (Option Token) := do return (← get).tokens.head?

def pop : ReadNode Unit := modify fun s => { s with tokens := s.tokens.tail }

def count (n : Nat) : ReadNode Unit := modify fun s => { s with size := s.size + n }

/-- An anchor gets the number of names in use; its place among the anchors is returned. -/
def anchor (name : String) : ReadNode Nat := do
  let s ← get
  let number := s.names.length
  set { s with
    names := (name, number) :: s.names.filter (·.1 ≠ name)
    anchors := number :: s.anchors }
  return s.anchors.length

def reference (name : String) : ReadNode Node := do
  count 1
  return .reference (← (← get).names.lookup name)

def emptyScalar (tag : Option Tag) : ReadNode Node := do
  count 1
  return .scalar "" .plain tag

def resolveTag (tag : TagName) : ReadNode Tag := do
  if tag.handle = "" then return ⟨tag.suffix⟩
  return ⟨(← (← get).handles.lookup tag.handle) ++ tag.suffix⟩

/-- The anchor and the tag before a node, in either order. -/
def properties : ReadNode (Option String × Option TagName) := do
  match (← get).tokens with
  | .anchor a :: .tag t :: rest | .tag t :: .anchor a :: rest =>
    modify fun s => { s with tokens := rest }
    return (some a, some t)
  | .anchor a :: rest =>
    modify fun s => { s with tokens := rest }
    return (some a, none)
  | .tag t :: rest =>
    modify fun s => { s with tokens := rest }
    return (none, some t)
  | _ => return (none, none)

/-- Whether nothing stands between here and the next key, value or item of a block. -/
def endsBlockItem : Option Token → Bool
  | some .key | some .value | some .blockEnd => true
  | _ => false

-- ---------------------------------------------------------------------------
-- Nodes
-- ---------------------------------------------------------------------------

mutual

/-- The node that comes next. Blocks count only if `block` is set; `bare` says that
the items of a list may stand at the indentation of the map around it. -/
def node (block bare : Bool) (steps : Nat) : ReadNode Node := do
  match steps with
  | 0 => failure
  | steps + 1 =>
    if let some (.reference name) ← peek then
      pop
      reference name
    else
      let (name, tagName) ← properties
      let tag ← tagName.mapM resolveTag
      let place ← name.mapM anchor
      let found ← content block bare (name.isSome || tag.isSome) tag steps
      if let some place := place then
        modify fun s => { s with nodes := (place, found) :: s.nodes }
      return found

/-- A node without its anchor and tag. It may be left out if `optional` is set. -/
def content (block bare optional : Bool) (tag : Option Tag) (steps : Nat) : ReadNode Node := do
  match steps with
  | 0 => failure
  | steps + 1 =>
    match ← peek with
    | some (.scalar text style) =>
      pop
      count 1
      return .scalar text style tag
    | some .openList =>
      pop
      count 2
      return .list (← flowItems true [] steps) tag
    | some .openMap =>
      pop
      count 2
      return .map (← flowEntries true [] steps) tag
    | some .dash =>
      if bare then
        count 2
        return .list (← bareItems [] steps) tag
      else if optional then emptyScalar tag
      else failure
    | some .blockList =>
      if block then
        pop
        count 2
        return .list (← blockItems [] steps) tag
      else if optional then emptyScalar tag
      else failure
    | some .blockMap =>
      if block then
        pop
        count 2
        return .map (← blockEntries [] steps) tag
      else if optional then emptyScalar tag
      else failure
    | _ => if optional then emptyScalar tag else failure

def blockItems (items : List Node) (steps : Nat) : ReadNode (List Node) := do
  match steps with
  | 0 => failure
  | steps + 1 =>
    match ← peek with
    | some .dash =>
      pop
      let found ← match ← peek with
        | some .dash | some .blockEnd => emptyScalar none
        | _ => node true false steps
      blockItems (found :: items) steps
    | some .blockEnd =>
      pop
      return items.reverse
    | _ => failure

/-- Items without a block of their own. -/
def bareItems (items : List Node) (steps : Nat) : ReadNode (List Node) := do
  match steps with
  | 0 => failure
  | steps + 1 =>
    match ← peek with
    | some .dash =>
      pop
      let found ← match ← peek with
        | some .dash => emptyScalar none
        | next => if endsBlockItem next then emptyScalar none else node true false steps
      bareItems (found :: items) steps
    | _ => return items.reverse

def blockEntries (entries : List (Node × Node)) (steps : Nat) : ReadNode (List (Node × Node)) := do
  match steps with
  | 0 => failure
  | steps + 1 =>
    match ← peek with
    | some .key =>
      pop
      let key ← if endsBlockItem (← peek) then emptyScalar none else node true true steps
      let value ← match ← peek with
        | some .value =>
          pop
          if endsBlockItem (← peek) then emptyScalar none else node true true steps
        | _ => emptyScalar none
      blockEntries ((key, value) :: entries) steps
    | some .blockEnd =>
      pop
      return entries.reverse
    | _ => failure

/-- The items up to the closing bracket, separated by commas. An item may be a
single entry of a map. -/
def flowItems (first : Bool) (items : List Node) (steps : Nat) : ReadNode (List Node) := do
  match steps with
  | 0 => failure
  | steps + 1 =>
    if let some .closeList ← peek then
      pop
      return items.reverse
    if !first then
      match ← peek with
      | some .comma => pop
      | _ => failure
    match ← peek with
    | some .closeList =>
      pop
      return items.reverse
    | some .key =>
      pop
      let entry ← flowPair steps
      flowItems false (.map [entry] none :: items) steps
    | _ =>
      let found ← node false false steps
      flowItems false (found :: items) steps

/-- An entry in a list: a key and a value, each of which may be missing. -/
def flowPair (steps : Nat) : ReadNode (Node × Node) := do
  match steps with
  | 0 => failure
  | steps + 1 =>
    count 2
    let key ← match ← peek with
      | some .value | some .comma | some .closeList =>
        pop
        emptyScalar none
      | _ => node false false steps
    match ← peek with
    | some .value =>
      pop
      match ← peek with
      | some .comma | some .closeList => return (key, ← emptyScalar none)
      | _ => return (key, ← node false false steps)
    | _ => return (key, ← emptyScalar none)

/-- The entries up to the closing brace, separated by commas. -/
def flowEntries (first : Bool) (entries : List (Node × Node)) (steps : Nat) :
    ReadNode (List (Node × Node)) := do
  match steps with
  | 0 => failure
  | steps + 1 =>
    if let some .closeMap ← peek then
      pop
      return entries.reverse
    if !first then
      match ← peek with
      | some .comma => pop
      | _ => failure
    match ← peek with
    | some .closeMap =>
      pop
      return entries.reverse
    | some .key =>
      pop
      let key ← match ← peek with
        | some .value | some .comma | some .closeMap => emptyScalar none
        | _ => node false false steps
      let value ← match ← peek with
        | some .value =>
          pop
          match ← peek with
          | some .comma | some .closeMap => emptyScalar none
          | _ => node false false steps
        | _ => emptyScalar none
      flowEntries false ((key, value) :: entries) steps
    | _ =>
      let key ← node false false steps
      let value ← emptyScalar none
      flowEntries false ((key, value) :: entries) steps

end

-- ---------------------------------------------------------------------------
-- Documents
-- ---------------------------------------------------------------------------

/-- The directives before a document: at most one version, which is 1.1 or 1.2, and
one meaning for each handle. -/
def directives (versioned : Bool) : List Token → ReadNode Unit
  | .directive (.version major minor) :: rest => do
    if versioned || major ≠ 1 || (minor ≠ 1 && minor ≠ 2) then failure
    pop
    directives true rest
  | .directive (.handle handle stem) :: rest => do
    if ((← get).handles.lookup handle).isSome then failure
    modify fun s => { s with handles := s.handles ++ [(handle, stem)] }
    pop
    directives versioned rest
  | _ => return

def usualHandles : List (String × List UInt8) := [("!", Tag.ascii ['!']), ("!!", (Tag.core "").bytes)]

/-- The only document of a stream. -/
def document : ReadNode Node := do
  let s ← get
  directives false s.tokens
  modify fun s => { s with handles := s.handles ++ usualHandles }
  let steps := 3 * s.tokens.length + 3
  let root ← match s.tokens, ← peek with
    | _, some .documentStart =>
      pop
      match ← peek with
      | none | some (.directive _) | some .documentStart | some .documentEnd => emptyScalar none
      | _ => node true false steps
    | [], _ | .directive _ :: _, _ => failure
    | _, _ => node true false steps
  let rest := (← get).tokens.dropWhile fun
    | .documentEnd => true
    | _ => false
  if rest.isEmpty then return root else failure

end ReadNode

namespace Document

/-- The document that a text holds; `none` if the text has an error, or if it holds
no document or several. -/
def parse? (text : String) : Option Document := do
  let (root, s) ← ReadNode.document { tokens := ← Token.scan? text }
  let place (i number : Nat) := (number, s.anchors.length - 1 - i)
  let targets := (s.anchors.mapIdx place).filterMap fun (number, i) =>
    (s.nodes.lookup i).map (number, ·)
  return { root, targets, size := s.size }

end Document

end JointPlan.Yaml
