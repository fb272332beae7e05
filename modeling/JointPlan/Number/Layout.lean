import JointPlan.Number.Shortest

/-!
# Writing doubles

`Layout` holds what a text format decides about the digits of a number: up to
where it writes them positionally, whether a whole number keeps a point, and how
a tie between two shortest decimals is broken.
-/

namespace JointPlan

/-- How a format lays out a finite double. `positional` is asked about the
exponent of the leading digit. -/
structure Layout where
  positional : Int → Bool
  wholePoint : Bool
  tie : Tie

namespace Layout

def zeros (n : Nat) : String := "".pushn '0' n

/-- Digits with the point where the exponent puts it. -/
def plain (layout : Layout) (x : Decimal) : String :=
  let digits := toString x.digits
  if 0 ≤ x.exponent then
    digits ++ zeros x.exponent.toNat ++ (if layout.wholePoint then ".0" else "")
  else
    let places := (-x.exponent).toNat
    if digits.length ≤ places then "0." ++ zeros (places - digits.length) ++ digits
    else
      let cs := digits.toList
      String.ofList (cs.take (cs.length - places)) ++ "." ++
        String.ofList (cs.drop (cs.length - places))

/-- One digit before the point, and a signed power of ten. -/
def scientific (x : Decimal) (lead : Int) : String :=
  let mantissa := match (toString x.digits).toList with
    | [] => ""
    | [c] => c.toString
    | c :: cs => c.toString ++ "." ++ String.ofList cs
  mantissa ++ "e" ++ (if 0 ≤ lead then "+" else "-") ++ toString lead.natAbs

/-- The text of a finite double. -/
def render (layout : Layout) (d : Double) : String :=
  let x := Decimal.shortest layout.tie d
  let lead := x.exponent + (toString x.digits).length - 1
  let sign := if d.isNegative then "-" else ""
  sign ++ if layout.positional lead then layout.plain x else scientific x lead

end Layout

end JointPlan
