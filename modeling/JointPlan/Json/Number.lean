import JointPlan.Json.Basic

/-!
# Reading JSON numbers

A literal without point and exponent is a whole number if it fits 64 bits, with
or without a sign; minus zero and everything else is a double.

For a double the digits are taken as a whole number. Before the point and again
behind it, digits are dropped from the first one on that no longer fits 64 bits.
The number is rounded to a double and then multiplied or divided by the power of
ten, so a literal with many digits may come out next to the nearest double.
-/

namespace JointPlan

namespace Json

/-- The parts of a number literal. -/
structure Literal where
  negative : Bool
  whole : List Nat
  fraction : List Nat
  /-- The written exponent, if there is one. -/
  exponent : Option Int

/-- The number `value` with digits appended as long as it fits 64 bits, and how many were. -/
def appendDigits (value : Nat) : List Nat → Nat × Nat
  | [] => (value, 0)
  | d :: ds =>
    if 10 * value + d < Word.limit then
      let (value, used) := appendDigits (10 * value + d) ds
      (value, used + 1)
    else (value, 0)

/-- The quotient `value / 10 ^ exponent` in steps that a double can hold. -/
def scaleDown (value : Double) (exponent : Nat) : Nat → Double
  | 0 => .zero value.isNegative
  | steps + 1 =>
    if value.isZero then value
    else if exponent ≤ 308 then value.div (.ofDecimal false 1 exponent)
    else scaleDown (value.div (.ofDecimal false 1 308)) (exponent - 308) steps

/-- The number `digits * 10 ^ exponent` as a double; `none` when it is too large. -/
def scaled? (negative : Bool) (digits : Nat) (exponent : Int) : Option Double :=
  let value := Double.ofNat negative digits
  if value.isZero then some value
  else if exponent < 0 then some (scaleDown value (-exponent).toNat 5)
  else if 308 < exponent then none
  else
    let product := value.mul (.ofDecimal false 1 exponent)
    if product.isFinite then some product else none

namespace Literal

def toDouble? (l : Literal) : Option Double :=
  let (whole, wholeUsed) := appendDigits 0 l.whole
  let (digits, fractionUsed) := appendDigits whole l.fraction
  let written : Int := l.exponent.getD 0
  scaled? l.negative digits (l.whole.length - wholeUsed - fractionUsed + written)

def toJson? (l : Literal) : Option Json :=
  let digits : Nat := l.whole.foldl (fun n d => 10 * n + d) 0
  if !l.fraction.isEmpty || l.exponent.isSome then .float <$> l.toDouble?
  else if !l.negative && digits < Word.limit then some (.int digits)
  else if l.negative && 0 < digits && digits ≤ Word.signedLimit then some (.int (-digits))
  else .float <$> l.toDouble?

end Literal

end Json

end JointPlan
