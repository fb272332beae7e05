import JointPlan.Number.Double

/-!
# The fewest digits that name a double

Every decimal between the two halfway points around a double reads back as that
double, the halfway points themselves only when its significand is even. Of
these decimals `shortest` takes one with the fewest digits, and of those the one
nearest to the double. When two are equally near, the `Tie` decides.
-/

namespace JointPlan

/-- The number `digits * 10 ^ exponent`. -/
structure Decimal where
  digits : Nat
  exponent : Int
deriving DecidableEq

inductive Tie where
  | toEven
  | up
deriving DecidableEq

namespace Decimal

/-- Compare `a * 10 ^ i` with `n * 2 ^ j`. -/
def compareScaled (a : Nat) (i : Int) (n : Nat) (j : Int) : Ordering :=
  compare ((a * Nat.pow 10 i.toNat) <<< (-j).toNat) ((n * Nat.pow 10 (-i).toNat) <<< j.toNat)

/-- Whether reading the decimal gives the magnitude of `d`. -/
def readsAs (d : Double) (x : Decimal) : Bool :=
  let m := d.significand
  let below := if m = Double.hiddenBit ∧ 1 < d.exponentField then 4 * m - 1 else 4 * m - 2
  let low := compareScaled x.digits x.exponent below (d.scale - 2)
  let high := compareScaled x.digits x.exponent (4 * m + 2) (d.scale - 2)
  let even := m % 2 == 0
  (low == .gt || (even && low == .eq)) && (high == .lt || (even && high == .eq))

/-- The least `k` with the magnitude of `d` below `10 ^ k`, searched upward from `k`. -/
def leadFrom (d : Double) (k : Int) : Nat → Int
  | 0 => k
  | tries + 1 =>
    if compareScaled 1 k d.significand d.scale == .gt then k else leadFrom d (k + 1) tries

/-- Digits without the zeros at their end, which go into the exponent. -/
def strip (x : Decimal) : Nat → Decimal
  | 0 => x
  | tries + 1 =>
    if x.digits % 10 = 0 then strip ⟨x.digits / 10, x.exponent + 1⟩ tries else x

/-- The neighbours of `d` with a last digit at `10 ^ e`, if one of them reads as `d`. -/
def onGrid? (tie : Tie) (d : Double) (e : Int) : Option Decimal :=
  let num := (d.significand * Nat.pow 10 (-e).toNat) <<< d.scale.toNat
  let den := Nat.pow 10 e.toNat <<< (-d.scale).toNat
  let floor := num / den
  match readsAs d ⟨floor, e⟩, readsAs d ⟨floor + 1, e⟩ with
  | false, false => none
  | true, false => some ⟨floor, e⟩
  | false, true => some ⟨floor + 1, e⟩
  | true, true =>
    match compare (2 * num) ((2 * floor + 1) * den), tie with
    | .lt, _ => some ⟨floor, e⟩
    | .gt, _ => some ⟨floor + 1, e⟩
    | .eq, .up => some ⟨floor + 1, e⟩
    | .eq, .toEven => some ⟨floor + floor % 2, e⟩

/-- The magnitude of the finite double `d` in the fewest digits. -/
def shortest (tie : Tie) (d : Double) : Decimal :=
  if d.significand = 0 then ⟨0, 0⟩
  else
    let low : Int := ((d.significand.log2 : Int) + d.scale) * 3 / 10 - 2
    let lead := leadFrom d low 40
    match (List.range 17).findSome? fun (n : Nat) => onGrid? tie d (lead - 1 - n) with
    | some x => strip x 20
    | none => ⟨(d.significand * Nat.pow 5 (-d.scale).toNat) <<< d.scale.toNat, min d.scale 0⟩

end Decimal

end JointPlan
