import JointPlan.Yaml.Block
import JointPlan.Yaml.Tag

/-!
# Tokens

A document as a sequence of tokens. Blocks are closed by indentation, so the
scanner writes a token wherever a block begins or ends. That a scalar was a key is
known only at the colon after it; the scanner remembers where the latest possible
key stands and puts the tokens for it in front of it when the colon comes. A key
lies on one line and is at most 1024 bytes long.
-/

namespace JointPlan.Yaml

inductive Style where
  | plain
  | quoted
  | literal
  | folded
deriving DecidableEq

inductive Token where
  | directive (directive : Directive)
  | documentStart
  | documentEnd
  | blockList
  | blockMap
  | blockEnd
  | openList
  | closeList
  | openMap
  | closeMap
  | dash
  | comma
  | key
  | value
  | reference (name : String)
  | anchor (name : String)
  | tag (tag : TagName)
  | scalar (text : String) (style : Style)

-- ---------------------------------------------------------------------------
-- Scanner
-- ---------------------------------------------------------------------------

/-- A place where a key may have begun. -/
structure KeyMark where
  /-- Number of tokens before it. -/
  slot : Nat
  line : Nat
  column : Nat
  offset : Nat
  /-- A scalar at the indentation of its block has to be a key. -/
  required : Bool

structure Scanner where
  cursor : Cursor
  /-- Exceeds the number of characters that are left, and so of steps over them. -/
  bound : Nat
  /-- The tokens so far, the latest first. -/
  tokens : List Token := []
  /-- Number of tokens so far. -/
  count : Nat := 0
  /-- Columns of the open blocks, the innermost first. -/
  indents : List Nat := []
  /-- The possible key outside brackets. -/
  blockKey : Option KeyMark := none
  /-- The possible key inside each open bracket, the innermost first. -/
  flowKeys : List (Option KeyMark) := []
  /-- Whether a key may begin here. -/
  keyAllowed : Bool := true

abbrev Scan := StateT Scanner Option

namespace Scanner

def inFlow (s : Scanner) : Bool := !s.flowKeys.isEmpty

/-- The least column at which text inside the current block may stand. -/
def least (s : Scanner) : Nat :=
  match s.indents with
  | [] => 0
  | n :: _ => n + 1

/-- Whether no colon can complete the key any more. -/
def isStale (s : Scanner) (k : KeyMark) : Bool :=
  k.line < s.cursor.line || k.offset + 1024 < s.cursor.offset

/-- The possible key in the innermost bracket, or outside brackets. -/
def key? (s : Scanner) : Option KeyMark :=
  match s.flowKeys with
  | key :: _ => key.filter (!s.isStale ·)
  | [] => s.blockKey

def setKey (s : Scanner) (key : Option KeyMark) : Scanner :=
  match s.flowKeys with
  | _ :: keys => { s with flowKeys := key :: keys }
  | [] => { s with blockKey := key }

/-- Put a token behind the first `slot` tokens. -/
def insertAt (s : Scanner) (slot : Nat) (token : Token) : Scanner :=
  let behind := s.count - slot
  { s with
    tokens := s.tokens.take behind ++ token :: s.tokens.drop behind
    count := s.count + 1 }

end Scanner

namespace Scan

def push (token : Token) : Scan Unit :=
  modify fun s => { s with tokens := token :: s.tokens, count := s.count + 1 }

def moveTo (cursor : Cursor) : Scan Unit := modify fun s => { s with cursor }

def allowKey (allowed : Bool) : Scan Unit := modify fun s => { s with keyAllowed := allowed }

/-- An indicator of `length` characters. -/
def indicator (token : Token) (length : Nat) : Scan Unit := do
  moveTo ((← get).cursor.skip length)
  push token

-- ---------------------------------------------------------------------------
-- Possible keys
-- ---------------------------------------------------------------------------

/-- Give up the possible key, which must not be required. -/
def dropKey : Scan Unit := do
  let s ← get
  if s.key?.any (·.required) then failure
  set (s.setKey none)

/-- Give up the possible key outside brackets once no colon can complete it; it must
not be required. -/
def expireKey : Scan Unit := do
  let s ← get
  if s.blockKey.any s.isStale then
    if s.blockKey.any (·.required) then failure
    set { s with blockKey := none }

/-- Remember that a key may begin here. -/
def markKey : Scan Unit := do
  if (← get).keyAllowed then
    dropKey
    modify fun s => s.setKey (some {
      slot := s.count
      line := s.cursor.line
      column := s.cursor.column
      offset := s.cursor.offset
      required := !s.inFlow && s.indents.head? = some s.cursor.column })

-- ---------------------------------------------------------------------------
-- Blocks
-- ---------------------------------------------------------------------------

/-- Open a block at `column` if that lies deeper than the current one. -/
def enterBlock (column slot : Nat) (token : Token) : Scan Unit := modify fun s =>
  if s.inFlow || !s.indents.head?.all (· < column) then s
  else { s.insertAt slot token with indents := column :: s.indents }

/-- Close the blocks that lie deeper than `column`, or all of them. -/
def leaveBlocks (column : Option Nat) : Scan Unit := modify fun s =>
  if s.inFlow then s
  else
    let deeper := s.indents.takeWhile fun n => column.all (· < n)
    { s with
      tokens := deeper.map (fun _ => Token.blockEnd) ++ s.tokens
      count := s.count + deeper.length
      indents := s.indents.drop deeper.length }

-- ---------------------------------------------------------------------------
-- Tokens
-- ---------------------------------------------------------------------------

/-- Pass over white space and comments. Tabs do not count as white space where a
key may begin outside brackets; a line end lets a key begin there. -/
def skipSpace (steps : Nat) : Scan Unit := do
  match steps with
  | 0 => failure
  | steps + 1 =>
    let s ← get
    let c := s.cursor
    let c := if c.column = 0 && c.sees byteOrderMark then c.advance else c
    let c := c.skipWhile fun x => x = ' ' || ((s.inFlow || !s.keyAllowed) && x = '\t')
    let c := if c.sees '#' then c.skipLine else c
    if c.rest.head?.any isBreak then
      set { s with cursor := c.advance, keyAllowed := s.keyAllowed || !s.inFlow }
      skipSpace steps
    else moveTo c

def openFlow (token : Token) : Scan Unit := do
  markKey
  modify fun s => { s with flowKeys := none :: s.flowKeys, keyAllowed := true }
  indicator token 1

def closeFlow (token : Token) : Scan Unit := do
  dropKey
  modify fun s => { s with flowKeys := s.flowKeys.tail, keyAllowed := false }
  indicator token 1

/-- A dash or a question mark, which begin an item or a key of a block. -/
def blockIndicator (opening token : Token) (keyNext : Bool) : Scan Unit := do
  let s ← get
  if !s.inFlow && !s.keyAllowed then failure
  enterBlock s.cursor.column s.count opening
  dropKey
  allowKey keyNext
  indicator token 1

/-- A colon: what was possibly a key is one. -/
def colon : Scan Unit := do
  let s ← get
  match s.key? with
  | some k =>
    set ((s.insertAt k.slot .key).setKey none)
    enterBlock k.column k.slot .blockMap
    allowKey false
  | none =>
    if !s.inFlow then
      if !s.keyAllowed then failure
      enterBlock s.cursor.column s.count .blockMap
    allowKey (!s.inFlow)
  indicator .value 1

/-- A token that may begin a key, read from the cursor. -/
def item {α : Type} (read : Cursor → Option (α × Cursor)) (token : α → Token) : Scan Unit := do
  markKey
  allowKey false
  let (a, c) ← read (← get).cursor
  moveTo c
  push (token a)

def scalarToken (style : Style) (text : List Char) : Token := .scalar (String.ofList text) style

def plain : Scan Unit := do
  markKey
  allowKey false
  let s ← get
  let (text, c, broken) ← s.cursor.plain? s.inFlow s.least s.bound [] [] false
  moveTo c
  push (scalarToken .plain text)
  if broken then allowKey true

def block (style : Style) : Scan Unit := do
  dropKey
  allowKey true
  let s ← get
  let (text, c) ← s.cursor.advance.block? (style = .folded) s.least s.bound
  moveTo c
  push (scalarToken style text)

def document (token : Option Token) : Scan Unit := do
  leaveBlocks none
  dropKey
  allowKey false
  match token with
  | some token => indicator token 3
  | none =>
    let (directive, c) ← (← get).cursor.directive?
    moveTo c
    push (.directive directive)

/-- Whether a plain scalar may begin with `x`, which stands before `rest`. -/
def startsPlain (flow : Bool) (x : Char) (rest : List Char) : Bool :=
  (!isSpace x && !"-?:,[]\x7b\x7d#&*!|>'\"%@\x60".toList.contains x) ||
    (x = '-' && !rest.head?.any isBlank) ||
    (!flow && (x = '?' || x = ':') && !endsWord rest)

/-- The token at the cursor, which stands before `x` and `rest`. -/
def token (x : Char) (rest : List Char) : Scan Unit := do
  let s ← get
  let c := s.cursor
  let flow := s.inFlow
  if c.column = 0 && x = '%' then document none
  else if c.atMarker then document (some (if x = '-' then .documentStart else .documentEnd))
  else if x = '[' then openFlow .openList
  else if x = '\x7b' then openFlow .openMap
  else if x = ']' then closeFlow .closeList
  else if x = '\x7d' then closeFlow .closeMap
  else if x = ',' then
    dropKey
    allowKey true
    indicator .comma 1
  else if x = '-' && endsWord rest then blockIndicator .blockList .dash true
  else if x = '?' && (flow || endsWord rest) then blockIndicator .blockMap .key (!flow)
  else if x = ':' && (flow || endsWord rest) then colon
  else if x = '*' then item (·.advance.name?) .reference
  else if x = '&' then item (·.advance.name?) .anchor
  else if x = '!' then item (·.tag? flow s.bound) .tag
  else if x = '|' && !flow then block .literal
  else if x = '>' && !flow then block .folded
  else if x = '\'' then item (·.advance.singleQuoted? s.bound []) (scalarToken .quoted)
  else if x = '"' then item (·.advance.doubleQuoted? s.bound []) (scalarToken .quoted)
  else if startsPlain flow x rest then plain
  else failure

/-- The tokens up to the end of the text. -/
def tokens (steps : Nat) : Scan Unit := do
  match steps with
  | 0 => failure
  | steps + 1 =>
    skipSpace (← get).bound
    expireKey
    let c := (← get).cursor
    leaveBlocks (some c.column)
    match c.rest with
    | [] =>
      leaveBlocks none
      dropKey
    | x :: rest =>
      token x rest
      tokens steps

end Scan

/-- The tokens of a text, or `none` if it has an error. -/
def Token.scan? (text : String) : Option (List Token) := do
  let cs := text.toList
  if !cs.all isPrintable then none
  let cursor : Cursor := { rest := unifyBreaks cs }
  let bound := cs.length + 1
  let ((), s) ← Scan.tokens bound { cursor, bound }
  return s.tokens.reverse

end JointPlan.Yaml
