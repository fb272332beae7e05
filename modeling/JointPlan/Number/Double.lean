import JointPlan.Number.Word

/-!
# Double-precision numbers

A double is kept as its 64 bits, so that equal doubles are equal values and
every question about one is answered by arithmetic on naturals. A finite double
has the magnitude `significand * 2 ^ scale`.

`ofRatio` rounds a fraction to the nearest double, a half going to the even
neighbour; reading a decimal and the product and quotient of two doubles are
cases of it.
-/

namespace JointPlan

structure Double where
  bits : UInt64
deriving DecidableEq

namespace Double

-- ---------------------------------------------------------------------------
-- Fields
-- ---------------------------------------------------------------------------

/-- The first bit of a significand, which is not stored: `2 ^ 52`. -/
abbrev hiddenBit : Nat := 0x10000000000000

def isNegative (d : Double) : Bool := Word.signedLimit ≤ d.bits.toNat

/-- The bits without the sign: the place of the magnitude among all magnitudes. -/
def rank (d : Double) : Nat := d.bits.toNat % Word.signedLimit

def exponentField (d : Double) : Nat := d.rank / hiddenBit

def fractionField (d : Double) : Nat := d.rank % hiddenBit

def isZero (d : Double) : Bool := d.rank = 0

def isFinite (d : Double) : Bool := d.exponentField < 2047

def isNaN (d : Double) : Bool := 2047 * hiddenBit < d.rank

def significand (d : Double) : Nat :=
  if d.exponentField = 0 then d.fractionField else hiddenBit + d.fractionField

def scale (d : Double) : Int :=
  if d.exponentField = 0 then -1074 else (d.exponentField : Int) - 1075

-- ---------------------------------------------------------------------------
-- Construction
-- ---------------------------------------------------------------------------

def ofRank (negative : Bool) (rank : Nat) : Double :=
  ⟨UInt64.ofNat (if negative then Word.signedLimit + rank else rank)⟩

def zero (negative : Bool) : Double := ofRank negative 0

def infinity (negative : Bool) : Double := ofRank negative (2047 * hiddenBit)

def nan : Double := ofRank false (2047 * hiddenBit + hiddenBit / 2)

/-- The quotient `num / den` rounded to a natural, a half going to the even neighbour. -/
def roundDiv (num den : Nat) : Nat :=
  let q := num / den
  let r := num % den
  if 2 * r < den then q else if den < 2 * r then q + 1 else q + q % 2

/-- The double nearest to `num / den`, infinite where that is out of range. -/
def ofRatio (negative : Bool) (num den : Nat) : Double :=
  if num = 0 then zero negative
  else
    let at2 (q : Int) : Nat × Nat := (num <<< (-q).toNat, den <<< q.toNat)
    let guess : Int := max ((num.log2 : Int) - den.log2 - 53) (-1074)
    let (n, d) := at2 guess
    let q := if 2 * hiddenBit ≤ n / d then guess + 1 else guess
    let (n, d) := at2 q
    ofRank negative (min ((q + 1074).toNat * hiddenBit + roundDiv n d) (2047 * hiddenBit))

def ofNat (negative : Bool) (n : Nat) : Double := ofRatio negative n 1

/-- The number of decimal digits of `n`. -/
def digitCount (n : Nat) : Nat := (Nat.toDigits 10 n).length

/-- The double nearest to `digits * 10 ^ exponent`. -/
def ofDecimal (negative : Bool) (digits : Nat) (exponent : Int) : Double :=
  let top := exponent + digitCount digits
  if digits = 0 ∨ top < -400 then zero negative
  else if 400 < top then infinity negative
  else ofRatio negative (digits * Nat.pow 10 exponent.toNat) (Nat.pow 10 (-exponent).toNat)

-- ---------------------------------------------------------------------------
-- Arithmetic on finite doubles
-- ---------------------------------------------------------------------------

/-- The magnitude of a finite double as a fraction. -/
def ratio (d : Double) : Nat × Nat :=
  (d.significand <<< d.scale.toNat, 1 <<< (-d.scale).toNat)

def mul (a b : Double) : Double :=
  ofRatio (a.isNegative != b.isNegative) (a.ratio.1 * b.ratio.1) (a.ratio.2 * b.ratio.2)

/-- The quotient by a double other than zero. -/
def div (a b : Double) : Double :=
  ofRatio (a.isNegative != b.isNegative) (a.ratio.1 * b.ratio.2) (a.ratio.2 * b.ratio.1)

end Double

end JointPlan
