import JointPlan.Yaml.Cursor

/-!
# Plain and quoted scalars

Scalars that may run over several lines. Blanks between two words of a line are
kept; where the line ends between them, one line break is a space, and of several
the first is dropped.
-/

namespace JointPlan.Yaml

/-- The white space between two words. -/
structure Gap where
  blanks : List Char
  breaks : List Char

namespace Gap

def ofChars (cs : List Char) : Gap := ⟨cs, cs.filter isBreak⟩

/-- What the gap stands for inside a scalar. -/
def text (g : Gap) : List Char :=
  match g.breaks with
  | [] => g.blanks
  | ['\n'] => [' ']
  | '\n' :: more => more
  | breaks => breaks

end Gap

namespace Cursor

/-- The white space that comes next. -/
def gap (c : Cursor) : Gap × Cursor :=
  let cs := c.rest.takeWhile isSpace
  (.ofChars cs, c.skip cs.length)

-- ---------------------------------------------------------------------------
-- Plain scalars
-- ---------------------------------------------------------------------------

/-- The characters that end a plain scalar inside brackets. -/
def flowIndicators : List Char := [',', '[', ']', '\x7b', '\x7d']

/-- The longest word of a plain scalar. Inside brackets a colon may not stand
directly before a bracket, a comma or a question mark. -/
def plainWord? (flow : Bool) : List Char → Option (List Char)
  | [] => some []
  | c :: cs =>
    if isSpace c then some []
    else if flow && c = ':' && cs.head?.any ('?' :: flowIndicators).contains then none
    else if c = ':' && endsWord cs then some []
    else if flow && flowIndicators.contains c then some []
    else (c :: ·) <$> plainWord? flow cs

/-- Whether white space has a tab left of column `indent` in a line after the first. -/
def tabBefore (indent : Nat) (cs : List Char) : Bool :=
  let walk := fun (column : Option Nat × Bool) c =>
    if isBreak c then (some 0, column.2)
    else (column.1.map (· + 1), column.2 || (c = '\t' && column.1.any (· < indent)))
  (cs.foldl walk (none, false)).2

/-- The text of a plain scalar, where it ends, and whether a line ended behind
its last word. Outside brackets it ends before a line that starts left of column
`indent`. The argument `text` is what has been read, backwards, and `gap` what
stands between it and the cursor. -/
def plain? (flow : Bool) (indent : Nat) (steps : Nat) (text gap : List Char) (broken : Bool)
    (c : Cursor) : Option (List Char × Cursor × Bool) :=
  match steps with
  | 0 => none
  | steps + 1 =>
    if c.atMarker || c.sees '#' then some (text.reverse, c, broken)
    else
      match plainWord? flow c.rest with
      | none => none
      | some word =>
        let text := if word.isEmpty then text else extend (extend text gap) word
        let c := c.skip word.length
        let broken := broken && word.isEmpty
        if !c.rest.head?.any isSpace then some (text.reverse, c, broken)
        else if tabBefore indent (c.rest.takeWhile isSpace) then none
        else
          let (gap, c) := c.gap
          let broken := !gap.breaks.isEmpty
          if !flow && c.column < indent then some (text.reverse, c, broken)
          else plain? flow indent steps text gap.text broken c

-- ---------------------------------------------------------------------------
-- Quoted scalars
-- ---------------------------------------------------------------------------

def hexValue? (cs : List Char) : Option Nat :=
  cs.foldlM (fun n c =>
    if c.isDigit then some (16 * n + (c.toNat - 48))
    else if 'a' ≤ c && c ≤ 'f' then some (16 * n + (c.toNat - 87))
    else if 'A' ≤ c && c ≤ 'F' then some (16 * n + (c.toNat - 55))
    else none) 0

/-- The character with the code written in the next `digits` digits. -/
def codePoint? (digits : Nat) (cs : List Char) : Option Char := do
  if cs.length < digits then none
  let n ← hexValue? (cs.take digits)
  if h : n.isValidChar then return Char.ofNatAux n h else none

/-- The character of an escape and the number of characters after the backslash. -/
def escape? : List Char → Option (Char × Nat)
  | 'x' :: cs => (·, 3) <$> codePoint? 2 cs
  | 'u' :: cs => (·, 5) <$> codePoint? 4 cs
  | 'U' :: cs => (·, 9) <$> codePoint? 8 cs
  | c :: _ =>
    match c with
    | '0' => some (Char.ofNat 0, 1)
    | 'a' => some (Char.ofNat 7, 1)
    | 'b' => some (Char.ofNat 8, 1)
    | 't' | '\t' => some ('\t', 1)
    | 'n' => some ('\n', 1)
    | 'v' => some (Char.ofNat 11, 1)
    | 'f' => some (Char.ofNat 12, 1)
    | 'r' => some ('\r', 1)
    | 'e' => some (Char.ofNat 27, 1)
    | ' ' | '"' | '/' | '\\' => some (c, 1)
    | 'N' => some ('\u0085', 1)
    | '_' => some ('\u00a0', 1)
    | 'L' => some ('\u2028', 1)
    | 'P' => some ('\u2029', 1)
    | _ => none
  | [] => none

/-- The rest of a scalar in single quotes; a quote inside is written twice. The
argument `text` is what has been read, backwards. -/
def singleQuoted? (steps : Nat) (text : List Char) (c : Cursor) : Option (List Char × Cursor) :=
  match steps, c.rest with
  | 0, _ | _, [] => none
  | steps + 1, x :: rest =>
    if isSpace x then
      let (gap, c) := c.gap
      if c.atMarker then none else singleQuoted? steps (extend text gap.text) c
    else if x = '\'' then
      if rest.head? = some '\'' then singleQuoted? steps ('\'' :: text) (c.skip 2)
      else some (text.reverse, c.advance)
    else singleQuoted? steps (x :: text) c.advance

/-- The rest of a scalar in double quotes. A backslash at the end of a line joins
it to the next. The argument `text` is what has been read, backwards. -/
def doubleQuoted? (steps : Nat) (text : List Char) (c : Cursor) : Option (List Char × Cursor) :=
  match steps, c.rest with
  | 0, _ | _, [] => none
  | steps + 1, x :: rest =>
    if isSpace x then
      let (gap, c) := c.gap
      if c.atMarker then none else doubleQuoted? steps (extend text gap.text) c
    else if x = '"' then some (text.reverse, c.advance)
    else if x = '\\' then
      if rest.head?.any isBreak then
        let (gap, c) := (c.skip 2).gap
        if c.atMarker then none else doubleQuoted? steps (extend text gap.breaks) c
      else
        match escape? rest with
        | none => none
        | some (y, used) => doubleQuoted? steps (y :: text) (c.skip (used + 1))
    else doubleQuoted? steps (x :: text) c.advance

end Cursor

end JointPlan.Yaml
