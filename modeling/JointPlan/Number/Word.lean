/-!
# Words

Identifiers, counts and constants are words of 64 bits.
-/

namespace JointPlan.Word

/-- The number of words: `2 ^ 64`. -/
abbrev limit : Nat := 0x10000000000000000

/-- A word with sign lies from minus this number up to it, without it: `2 ^ 63`. -/
abbrev signedLimit : Nat := 0x8000000000000000

end JointPlan.Word
