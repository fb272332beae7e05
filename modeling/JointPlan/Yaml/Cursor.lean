/-!
# Positions in a text

A cursor is the rest of a text together with the place where it starts. Blocks
are told apart by their columns and a key must be short and stand on one line, so
a cursor counts lines, the characters of the line and its bytes.
-/

namespace JointPlan.Yaml

-- ---------------------------------------------------------------------------
-- Characters
-- ---------------------------------------------------------------------------

/-- A character that ends a line, once `unifyBreaks` has been applied. -/
def isBreak (c : Char) : Bool := c = '\n' || c = '\u2028' || c = '\u2029'

def isBlank (c : Char) : Bool := c = ' ' || c = '\t'

def isSpace (c : Char) : Bool := isBlank c || isBreak c

/-- Carriage return, alone or before a line feed, and next line are line feeds. -/
def unifyBreaks : List Char → List Char
  | '\r' :: '\n' :: cs => '\n' :: unifyBreaks cs
  | c :: cs => (if c = '\r' || c = '\u0085' then '\n' else c) :: unifyBreaks cs
  | [] => []

/-- The characters that a text may hold. -/
def isPrintable (c : Char) : Bool :=
  c = '\t' || c = '\n' || c = '\r' || (32 ≤ c.toNat && c.toNat ≤ 0x7E) || c.toNat = 0x85 ||
    (0xA0 ≤ c.toNat && c.toNat ≤ 0xFFFD) || 0x10000 ≤ c.toNat

def byteOrderMark : Char := '\ufeff'

/-- The characters of names of anchors, tag handles and directives. -/
def isNameChar (c : Char) : Bool := c.isAlphanum || c = '_' || c = '-'

/-- Whether a word ends before these characters. -/
def endsWord : List Char → Bool
  | [] => true
  | c :: _ => isSpace c

/-- Whether a line ends before these characters. -/
def endsLine : List Char → Bool
  | [] => true
  | c :: _ => isBreak c

/-- A text that is being read is kept backwards; this puts `cs` behind it. -/
def extend (text cs : List Char) : List Char := cs.reverse ++ text

-- ---------------------------------------------------------------------------
-- Cursors
-- ---------------------------------------------------------------------------

structure Cursor where
  rest : List Char
  line : Nat := 0
  column : Nat := 0
  /-- Number of bytes before the cursor in its line. -/
  offset : Nat := 0

namespace Cursor

def atEnd (c : Cursor) : Bool := c.rest.isEmpty

/-- Whether the next character is `x`. -/
def sees (c : Cursor) (x : Char) : Bool := c.rest.head? = some x

def advance (c : Cursor) : Cursor :=
  match c.rest with
  | [] => c
  | x :: rest =>
    if isBreak x then ⟨rest, c.line + 1, 0, 0⟩
    else ⟨rest, c.line, c.column + 1, c.offset + x.utf8Size⟩

/-- Pass over the next `n` characters. -/
def skip (c : Cursor) : Nat → Cursor
  | 0 => c
  | n + 1 => c.advance.skip n

def skipWhile (p : Char → Bool) (c : Cursor) : Cursor := c.skip (c.rest.takeWhile p).length

/-- Pass over the rest of the line, without its end. -/
def skipLine (c : Cursor) : Cursor := c.skipWhile fun x => !isBreak x

/-- Pass over blanks and a comment. -/
def skipComment (c : Cursor) : Cursor :=
  let c := c.skipWhile isBlank
  if c.sees '#' then c.skipLine else c

/-- Whether a document starts or ends here: three dashes or points at the start of a line. -/
def atMarker (c : Cursor) : Bool :=
  c.column = 0 && (c.rest.take 3 = "---".toList || c.rest.take 3 = "...".toList) &&
    endsWord (c.rest.drop 3)

end Cursor

end JointPlan.Yaml
