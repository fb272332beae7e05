import JointPlan.Number.Double
import JointPlan.Number.Word
import JointPlan.Text.Numeral
import JointPlan.Yaml.Node

/-!
# Values

What the nodes of a document mean when no type is expected. A plain scalar is
null, a switch or a number if it is spelled like one, and else a text, as every
other scalar is. A whole number may have a sign and a base, but no leading zeros;
minus zero is told apart from zero.
-/

namespace JointPlan.Yaml

inductive Value where
  | null
  | bool (value : Bool)
  | nat (value : Nat)
  /-- A whole number with a minus sign. -/
  | negative (magnitude : Nat)
  | float (value : Double)
  | str (value : String)
  | list (items : List Value)
  | map (entries : List (Value × Value))

instance : Inhabited Value := ⟨.null⟩

-- ---------------------------------------------------------------------------
-- Spellings
-- ---------------------------------------------------------------------------

namespace Spelling

def isNull (text : String) : Bool := ["null", "Null", "NULL", "~"].contains text

def bool? (text : String) : Option Bool :=
  if ["true", "True", "TRUE"].contains text then some true
  else if ["false", "False", "FALSE"].contains text then some false
  else none

/-- Digits behind a leading zero, with or without a sign, are no number. -/
def hasLeadingZero (cs : List Char) : Bool :=
  let digits := match cs with
    | '+' :: ds | '-' :: ds => ds
    | ds => ds
  1 < digits.length && digits.head? = some '0' && digits.all Char.isDigit

/-- A numeral with or without a base. -/
def magnitude? : List Char → Option Nat
  | '0' :: 'x' :: cs => Text.numeral? 16 cs
  | '0' :: 'o' :: cs => Text.numeral? 8 cs
  | '0' :: 'b' :: cs => Text.numeral? 2 cs
  | cs => if hasLeadingZero cs then none else Text.numeral? 10 cs

/-- A whole number that is not negative; a plus sign is allowed. -/
def natural? : List Char → Option Nat
  | '+' :: cs => magnitude? cs
  | cs => magnitude? cs

/-- A whole number: whether it has a minus sign, and its magnitude. One that needs
more than 128 bits is none. -/
def whole? (text : String) : Option (Bool × Nat) :=
  match text.toList with
  | '-' :: cs => do
    let n ← magnitude? cs
    if n ≤ Word.limit * Word.signedLimit then some (true, n) else none
  | cs => do
    let n ← natural? cs
    if n < Word.limit * Word.limit then some (false, n) else none

def digitsOf (cs : List Char) : List Char × List Char :=
  (cs.takeWhile Char.isDigit, cs.dropWhile Char.isDigit)

/-- The exponent that ends a decimal number. -/
def exponent? : List Char → Option Int
  | [] => some 0
  | e :: cs =>
    if e = 'e' || e = 'E' then
      match cs with
      | '-' :: cs => (fun n => -(n : Int)) <$> Text.numeral? 10 cs
      | '+' :: cs => Int.ofNat <$> Text.numeral? 10 cs
      | cs => Int.ofNat <$> Text.numeral? 10 cs
    else none

/-- Digits with at most one point among them, and perhaps an exponent. -/
def decimal? (negative : Bool) (cs : List Char) : Option Double := do
  let (whole, cs) := digitsOf cs
  let (fraction, cs) := match cs with
    | '.' :: cs => digitsOf cs
    | cs => ([], cs)
  let digits ← Text.numeral? 10 (whole ++ fraction)
  let value := Double.ofDecimal negative digits ((← exponent? cs) - fraction.length)
  if value.isFinite then some value else none

def isInfinity (cs : List Char) : Bool :=
  [".inf", ".Inf", ".INF"].contains (String.ofList cs)

/-- A number with a point or an exponent. One that is too large is none. -/
def float? (text : String) : Option Double :=
  if [".nan", ".NaN", ".NAN"].contains text then some .nan
  else
    let (negative, cs) := match text.toList with
      | '-' :: cs => (true, cs)
      | '+' :: cs => (false, cs)
      | cs => (false, cs)
    if isInfinity cs then some (.infinity negative) else decimal? negative cs

end Spelling

-- ---------------------------------------------------------------------------
-- Scalars
-- ---------------------------------------------------------------------------

namespace Value

/-- A whole number of 64 bits, with or without a sign. -/
def ofWhole? : Bool × Nat → Option Value
  | (true, n) => if n ≤ Word.signedLimit then some (.negative n) else none
  | (false, n) => if n < Word.limit then some (.nat n) else none

def ofPlain? (text : String) : Option Value :=
  if text = "" || Spelling.isNull text then some .null
  else
    match Spelling.bool? text, Spelling.whole? text with
    | some b, _ => some (.bool b)
    | none, some n => ofWhole? n
    | none, none =>
      if Spelling.hasLeadingZero text.toList then some (.str text)
      else
        match Spelling.float? text with
        | some d => some (.float d)
        | none => some (.str text)

/-- The value of a scalar. A core tag decides its type, and a local tag with a name
leaves it without one. A local tag without a name says nothing. -/
def ofScalar? (text : String) (style : Style) : Option Tag → Option Value
  | none => if style = .plain then ofPlain? text else some (.str text)
  | some tag =>
    if tag.name?.isSome then none
    else if tag = .core "bool" then .bool <$> Spelling.bool? text
    else if tag = .core "int" then Spelling.whole? text >>= ofWhole?
    else if tag = .core "float" then .float <$> Spelling.float? text
    else if tag = .core "null" then if Spelling.isNull text then some .null else none
    else if tag.isLocal && style = .plain then ofPlain? text
    else some (.str text)

end Value

end JointPlan.Yaml
