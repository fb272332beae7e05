import JointPlan.Number.Word

/-!
# Numerals

Reading natural numbers in a base. A numeral has at least one digit, leading
zeros are allowed, and upper and lower case letters are the same digits.
-/

namespace JointPlan.Text

def digitValue? (base : Nat) (c : Char) : Option Nat :=
  let value :=
    if '0' ≤ c && c ≤ '9' then c.toNat - 48
    else if 'a' ≤ c && c ≤ 'z' then c.toNat - 87
    else if 'A' ≤ c && c ≤ 'Z' then c.toNat - 55
    else base
  if value < base then some value else none

/-- The value of a non-empty sequence of digits. -/
def numeral? (base : Nat) (cs : List Char) : Option Nat :=
  if cs.isEmpty then none
  else cs.foldlM (fun n c => (digitValue? base c).map (base * n + ·)) 0

/-- A decimal word of 64 bits, which may be written with a plus sign. -/
def word? (s : String) : Option Nat := do
  let cs := match s.toList with
    | '+' :: cs => cs
    | cs => cs
  let n ← numeral? 10 cs
  if n < Word.limit then return n else none

end JointPlan.Text
