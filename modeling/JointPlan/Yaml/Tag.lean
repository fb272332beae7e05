import JointPlan.Yaml.Plain

/-!
# Names, tags and directives

The short marks of a document: names of anchors, tags on nodes, and the lines
that start with a percent sign.
-/

namespace JointPlan.Yaml

/-- The text of a tag in bytes: an escape in it may write any byte. -/
structure Tag where
  bytes : List UInt8
deriving DecidableEq

namespace Tag

/-- The bytes of a text of ASCII characters. -/
def ascii (cs : List Char) : List UInt8 := cs.map fun c => c.toNat.toUInt8

/-- The tag of a type that every document has. -/
def core (name : String) : Tag := ⟨ascii ("tag:yaml.org,2002:" ++ name).toList⟩

/-- Whether the tag starts with an exclamation mark, so that the document itself
gives it a meaning. -/
def isLocal (t : Tag) : Bool := t.bytes.head? = some 33

/-- The name in a local tag, unless its bytes are no text. -/
def name? (t : Tag) : Option String :=
  if t.isLocal then String.fromUTF8? ⟨t.bytes.tail.toArray⟩ else none

end Tag

/-- A tag as it is written: a handle, which stands for a longer text, and the rest. -/
structure TagName where
  handle : String
  suffix : List UInt8
deriving DecidableEq

inductive Directive where
  | version (major minor : Nat)
  /-- What a handle stands for. -/
  | handle (handle : String) (stem : List UInt8)

namespace Cursor

-- ---------------------------------------------------------------------------
-- Names
-- ---------------------------------------------------------------------------

def nameChars (c : Cursor) : List Char × Cursor :=
  let name := c.rest.takeWhile isNameChar
  (name, c.skip name.length)

/-- The name of an anchor or alias. -/
def name? (c : Cursor) : Option (String × Cursor) :=
  let (name, c) := c.nameChars
  let closed := endsWord c.rest || c.rest.head?.any "?:,]\x7d%@\x60".toList.contains
  if name.isEmpty || !closed then none else some (String.ofList name, c)

-- ---------------------------------------------------------------------------
-- Tags
-- ---------------------------------------------------------------------------

def uriMarks : List Char := ";/?:@&=+$.!~*'()".toList

/-- A byte as a percent sign and two digits. -/
def escapedByte? (cs : List Char) : Option Nat :=
  match cs with
  | '%' :: a :: b :: _ => hexValue? [a, b]
  | _ => none

/-- How many bytes the character takes that begins with this byte. -/
def byteWidth? (first : Nat) : Option Nat :=
  if first < 0x80 then some 1
  else if first < 0xC0 then none
  else if first < 0xE0 then some 2
  else if first < 0xF0 then some 3
  else if first < 0xF8 then some 4
  else none

def isContinuation (byte : Nat) : Bool := 0x80 ≤ byte && byte < 0xC0

/-- The escaped bytes of one character. Their number and their kinds are right, but
the character that they write may not exist. -/
def escapedChar? (cs : List Char) : Option (List UInt8) := do
  let first ← escapedByte? cs
  let more ← (List.range ((← byteWidth? first) - 1)).mapM fun i =>
    escapedByte? (cs.drop (3 * (i + 1)))
  if more.all isContinuation then return (first :: more).map Nat.toUInt8 else none

/-- The longest text of characters that a tag may hold; `flow` says whether
commas and brackets are among them. The argument `text` is what has been read,
backwards. -/
def uri? (flow : Bool) (steps : Nat) (text : List UInt8) (c : Cursor) :
    Option (List UInt8 × Cursor) :=
  match steps, c.rest with
  | 0, _ => none
  | _, [] => some (text.reverse, c)
  | steps + 1, x :: _ =>
    if x = '%' then
      match escapedChar? c.rest with
      | none => none
      | some bytes => uri? flow steps (bytes.reverse ++ text) (c.skip (3 * bytes.length))
    else if isNameChar x || uriMarks.contains x || (flow && [',', '[', ']'].contains x) then
      uri? flow steps (x.toNat.toUInt8 :: text) c.advance
    else some (text.reverse, c)

/-- A part of a tag ends at a zero byte. -/
def untilZero (bytes : List UInt8) : List UInt8 := bytes.takeWhile (· ≠ 0)

/-- An exclamation mark with a name, and a second mark if there is one. -/
def handle (c : Cursor) : List Char × Cursor :=
  let (name, c) := c.advance.nameChars
  if c.sees '!' then ('!' :: name ++ ['!'], c.advance) else ('!' :: name, c)

/-- The tag that starts at an exclamation mark; `bound` exceeds the number of
characters that are left. -/
def tag? (flow : Bool) (bound : Nat) (c : Cursor) : Option (TagName × Cursor) := do
  let (tag, c) ← verbatim? <|> short?
  if endsWord c.rest || (flow && c.sees ',') then return (tag, c) else none
where
  verbatim? : Option (TagName × Cursor) := do
    let c := c.advance
    if !c.sees '<' then none
    let (text, c) ← uri? true bound [] c.advance
    if text.isEmpty || !c.sees '>' then none
    return (⟨"", untilZero text⟩, c.advance)
  short? : Option (TagName × Cursor) := do
    if c.advance.sees '<' then none
    let (handle, c) := c.handle
    if handle.length > 1 && handle.getLast? = some '!' then
      let (suffix, c) ← uri? false bound [] c
      if suffix.isEmpty then none
      return (⟨String.ofList handle, untilZero suffix⟩, c)
    else
      let (suffix, c) ← uri? false bound (Tag.ascii handle.tail).reverse c
      let suffix := untilZero suffix
      return (if suffix.isEmpty then ⟨"", Tag.ascii ['!']⟩ else ⟨"!", suffix⟩, c)

-- ---------------------------------------------------------------------------
-- Directives
-- ---------------------------------------------------------------------------

/-- A number of at most nine digits. -/
def number? (c : Cursor) : Option (Nat × Cursor) :=
  let digits := c.rest.takeWhile Char.isDigit
  if digits.isEmpty || 9 < digits.length then none
  else some (digits.foldl (fun n d => 10 * n + (d.toNat - 48)) 0, c.skip digits.length)

/-- The directive that starts at a percent sign, with the end of its line. -/
def directive? (c : Cursor) : Option (Directive × Cursor) := do
  let (name, c) := c.advance.nameChars
  if !endsWord c.rest then none
  let c := c.skipWhile isBlank
  let (directive, c) ←
    if name = "YAML".toList then version? c
    else if name = "TAG".toList then handle? c
    else none
  let c := c.skipComment
  if endsLine c.rest then return (directive, c.advance) else none
where
  version? (c : Cursor) : Option (Directive × Cursor) := do
    let (major, c) ← c.number?
    if !c.sees '.' then none
    let (minor, c) ← c.advance.number?
    return (.version major minor, c)
  handle? (c : Cursor) : Option (Directive × Cursor) := do
    if !c.sees '!' then none
    let (handle, c) := c.handle
    if handle ≠ ['!'] && handle.getLast? ≠ some '!' then none
    if !c.rest.head?.any isBlank then none
    let c := c.skipWhile isBlank
    let (stem, c) ← uri? true (c.rest.length + 1) [] c
    if stem.isEmpty || !endsWord c.rest then none
    return (.handle (String.ofList handle) (untilZero stem), c)

end Cursor

end JointPlan.Yaml
