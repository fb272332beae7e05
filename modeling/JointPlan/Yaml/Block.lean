import JointPlan.Yaml.Cursor

/-!
# Block scalars

A block scalar is the indented text under a `|` or a `>`. A literal block keeps
its lines. A folded one joins two neighbouring lines by a space, unless one of
them starts with a blank, and drops the first of several line breaks.
-/

namespace JointPlan.Yaml

/-- What happens to the line breaks at the end of a block. -/
inductive Chomp where
  | strip
  /-- The last line keeps its end. -/
  | clip
  | keep
deriving DecidableEq

/-- What follows the `|` or `>`. -/
structure BlockHeader where
  chomp : Chomp := .clip
  /-- Indentation of the text relative to the block around it, from 1 to 9. -/
  increment : Option Nat := none

namespace Cursor

def chomp? : Char → Option Chomp
  | '+' => some .keep
  | '-' => some .strip
  | _ => none

def increment? (c : Char) : Option Nat := if '1' ≤ c && c ≤ '9' then some (c.toNat - 48) else none

/-- The indicators may come in either order; then the line must end. -/
def blockHeader? (c : Cursor) : Option (BlockHeader × Cursor) := do
  let chomp := c.rest.head?.bind chomp?
  let c := if chomp.isSome then c.advance else c
  let increment := c.rest.head?.bind increment?
  let c := if increment.isSome then c.advance else c
  let late := if chomp.isSome || increment.isNone then none else c.rest.head?.bind chomp?
  let c := if late.isSome then c.advance else c
  let c := c.skipComment
  if !endsLine c.rest then none
  return (⟨(chomp <|> late).getD .clip, increment⟩, c.advance)

/-- The ends of the empty lines that come next, backwards, and the widest indentation
seen. The text starts at column `indent`; while that is not known, all spaces are
indentation. -/
def emptyLines? (indent : Option Nat) (steps : Nat) (breaks : List Char) (widest : Nat)
    (c : Cursor) : Option (List Char × Nat × Cursor) :=
  match steps with
  | 0 => none
  | steps + 1 =>
    let spaces := (c.rest.takeWhile (· = ' ')).length
    let c := c.skip (match indent with
      | none => spaces
      | some n => min spaces (n - c.column))
    let widest := max widest c.column
    if indent.all (c.column < ·) && c.sees '\t' then none
    else
      match c.rest with
      | x :: _ =>
        if isBreak x then emptyLines? indent steps (x :: breaks) widest c.advance
        else some (breaks, widest, c)
      | [] => some (breaks, widest, c)

/-- The text of a block scalar that has been read so far. -/
structure BlockText where
  /-- The lines up to the last, backwards. -/
  text : List Char := []
  /-- The end of the last line. -/
  lineEnd : List Char := []
  /-- The ends of the empty lines after it, backwards. -/
  empty : List Char
  /-- Whether the last line starts with a blank. -/
  blank : Bool := false

/-- The text with one more line. -/
def BlockText.addLine (t : BlockText) (folded : Bool) (line lineEnd empty : List Char) : BlockText :=
  let blank := line.head?.any isBlank
  let join :=
    if folded && t.lineEnd = ['\n'] && !t.blank && !blank then
      if t.empty.isEmpty then [' '] else []
    else t.lineEnd
  { text := extend (t.empty ++ extend t.text join) line, lineEnd, empty, blank }

def BlockText.close (t : BlockText) : Chomp → List Char
  | .strip => t.text.reverse
  | .clip => (extend t.text t.lineEnd).reverse
  | .keep => (t.empty ++ extend t.text t.lineEnd).reverse

/-- The lines of a block scalar; `bound` exceeds the number of characters that are left. -/
def blockLines? (folded : Bool) (indent bound : Nat) (steps : Nat) (t : BlockText) (c : Cursor) :
    Option (BlockText × Cursor) :=
  match steps with
  | 0 => none
  | steps + 1 =>
    if c.column ≠ indent || c.atEnd then some (t, c)
    else
      let line := c.rest.takeWhile fun x => !isBreak x
      let c := c.skip line.length
      let lineEnd := c.rest.take 1
      match emptyLines? (some indent) bound [] 0 c.advance with
      | none => none
      | some (empty, _, c) =>
        blockLines? folded indent bound steps (t.addLine folded line lineEnd empty) c

/-- The text of a block scalar after its `|` or `>`. The text must be indented at
least to column `least`; `bound` exceeds the number of characters that are left. -/
def block? (folded : Bool) (least bound : Nat) (c : Cursor) : Option (List Char × Cursor) := do
  let (header, c) ← c.blockHeader?
  let given := header.increment.map (least - 1 + ·)
  let (empty, widest, c) ← emptyLines? given bound [] 0 c
  let indent := given.getD (max (max widest least) 1)
  let (t, c) ← blockLines? folded indent bound bound { empty } c
  return (t.close header.chomp, c)

end Cursor

end JointPlan.Yaml
