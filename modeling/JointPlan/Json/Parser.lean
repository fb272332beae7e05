import JointPlan.Json.Number

/-!
# Reading JSON text

A recursive-descent reader over the characters of a text. Every step but the
step into a list takes a character, so twice the length of the text bounds the
number of steps, and more steps than characters are always left. When a key occurs twice in an object, the later value counts.
Lists and objects may be nested `maxDepth` deep.
-/

namespace JointPlan

namespace Json

namespace Parser

def isBlank (c : Char) : Bool := c = ' ' || c = '\n' || c = '\r' || c = '\t'

def skipBlanks (cs : List Char) : List Char := cs.dropWhile isBlank

def digitsOf (cs : List Char) : List Nat × List Char :=
  ((cs.takeWhile Char.isDigit).map fun c => c.toNat - 48, cs.dropWhile Char.isDigit)

def hexValue? (c : Char) : Option Nat :=
  if '0' ≤ c && c ≤ '9' then some (c.toNat - 48)
  else if 'a' ≤ c && c ≤ 'f' then some (c.toNat - 87)
  else if 'A' ≤ c && c ≤ 'F' then some (c.toNat - 55)
  else none

-- ---------------------------------------------------------------------------
-- Numbers
-- ---------------------------------------------------------------------------

/-- What may follow the whole part: a point with digits. -/
def fraction? : List Char → Option (List Nat × List Char)
  | '.' :: cs =>
    match digitsOf cs with
    | ([], _) => none
    | found => some found
  | cs => some ([], cs)

def exponent? : List Char → Option (Option Int × List Char)
  | c :: cs =>
    if c = 'e' || c = 'E' then
      let (negative, cs) := match cs with
        | '-' :: cs => (true, cs)
        | '+' :: cs => (false, cs)
        | cs => (false, cs)
      match digitsOf cs with
      | ([], _) => none
      | (digits, cs) =>
        let n : Nat := digits.foldl (fun n d => 10 * n + d) 0
        some (some (if negative then -(n : Int) else n), cs)
    else some (none, c :: cs)
  | [] => some (none, [])

def number? (cs : List Char) : Option (Json × List Char) := do
  let (negative, cs) := match cs with
    | '-' :: cs => (true, cs)
    | cs => (false, cs)
  let (whole, cs) ← match digitsOf cs with
    | ([], _) => none
    | (0 :: _ :: _, _) => none
    | found => some found
  let (fraction, cs) ← fraction? cs
  let (exponent, cs) ← exponent? cs
  return (← Literal.toJson? { negative, whole, fraction, exponent }, cs)

-- ---------------------------------------------------------------------------
-- Strings
-- ---------------------------------------------------------------------------

def hex4? : List Char → Option (Nat × List Char)
  | a :: b :: c :: d :: cs => do
    return (((← hexValue? a) * 16 + (← hexValue? b)) * 256 + (← hexValue? c) * 16 + (← hexValue? d), cs)
  | _ => none

/-- The character of an escape after `\u`; a leading surrogate needs its partner. -/
def unicodeEscape? (cs : List Char) : Option (Char × List Char) := do
  let (high, cs) ← hex4? cs
  if 0xD800 ≤ high && high < 0xDC00 then
    match cs with
    | '\\' :: 'u' :: cs =>
      let (low, cs) ← hex4? cs
      if 0xDC00 ≤ low && low < 0xE000 then
        return (Char.ofNat (0x10000 + (high - 0xD800) * 0x400 + (low - 0xDC00)), cs)
      else none
    | _ => none
  else if 0xDC00 ≤ high && high < 0xE000 then none
  else return (Char.ofNat high, cs)

def escape? : List Char → Option (Char × List Char)
  | 'u' :: cs => unicodeEscape? cs
  | c :: cs =>
    match c with
    | '"' | '\\' | '/' => some (c, cs)
    | 'n' => some ('\n', cs)
    | 'r' => some ('\r', cs)
    | 't' => some ('\t', cs)
    | 'b' => some (Char.ofNat 8, cs)
    | 'f' => some (Char.ofNat 12, cs)
    | _ => none
  | [] => none

/-- The rest of a string after its opening quote. -/
def string? (steps : Nat) (acc : List Char) (cs : List Char) : Option (String × List Char) :=
  match steps, cs with
  | 0, _ | _, [] => none
  | steps + 1, c :: cs =>
    if c = '"' then some (String.ofList acc.reverse, cs)
    else if c = '\\' then
      match escape? cs with
      | none => none
      | some (c, cs) => string? steps (c :: acc) cs
    else if c.toNat < 32 then none
    else string? steps (c :: acc) cs

-- ---------------------------------------------------------------------------
-- Values
-- ---------------------------------------------------------------------------

/-- The fields with one more; an earlier one of the same key is dropped. -/
def addField (fields : List (String × Json)) (key : String) (value : Json) : List (String × Json) :=
  (key, value) :: fields.filter (·.1 ≠ key)

/-- How deep lists and objects may be nested. -/
def maxDepth : Nat := 127

mutual

/-- The value that comes next, with lists and objects at most `depth` deep. -/
def value? (depth steps : Nat) (cs : List Char) : Option (Json × List Char) :=
  match steps with
  | 0 => none
  | steps + 1 =>
    match skipBlanks cs with
    | 'n' :: 'u' :: 'l' :: 'l' :: cs => some (.null, cs)
    | 't' :: 'r' :: 'u' :: 'e' :: cs => some (.bool true, cs)
    | 'f' :: 'a' :: 'l' :: 's' :: 'e' :: cs => some (.bool false, cs)
    | '"' :: cs => do
      let (s, cs) ← string? steps [] cs
      return (.str s, cs)
    | '[' :: cs =>
      match depth, skipBlanks cs with
      | 0, _ => none
      | _, ']' :: cs => some (.arr [], cs)
      | depth + 1, cs => items? depth steps [] cs
    | '\x7b' :: cs =>
      match depth, skipBlanks cs with
      | 0, _ => none
      | _, '\x7d' :: cs => some (.obj [], cs)
      | depth + 1, cs => fields? depth steps [] cs
    | cs => number? cs

def items? (depth steps : Nat) (acc : List Json) (cs : List Char) : Option (Json × List Char) :=
  match steps with
  | 0 => none
  | steps + 1 => do
    let (item, cs) ← value? depth steps cs
    match skipBlanks cs with
    | ',' :: cs => items? depth steps (item :: acc) cs
    | ']' :: cs => return (.arr (item :: acc).reverse, cs)
    | _ => none

def fields? (depth steps : Nat) (acc : List (String × Json)) (cs : List Char) :
    Option (Json × List Char) :=
  match steps with
  | 0 => none
  | steps + 1 =>
    match skipBlanks cs with
    | '"' :: cs => do
      let (key, cs) ← string? steps [] cs
      match skipBlanks cs with
      | ':' :: cs =>
        let (value, cs) ← value? depth steps cs
        match skipBlanks cs with
        | ',' :: cs => fields? depth steps (addField acc key value) cs
        | '\x7d' :: cs => return (.obj (addField acc key value).reverse, cs)
        | _ => none
      | _ => none
    | _ => none

end

end Parser

/-- Read a text that holds one value. -/
def parse? (text : String) : Option Json := do
  let cs := text.toList
  let (value, rest) ← Parser.value? Parser.maxDepth (2 * cs.length + 2) cs
  if (Parser.skipBlanks rest).isEmpty then return value else none

end Json

end JointPlan
