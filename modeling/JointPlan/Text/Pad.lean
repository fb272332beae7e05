/-!
# Padded text

A field of a listing is filled with blanks up to its width, counted in
characters. Text that is longer than its field is written whole.
-/

namespace JointPlan.Text

/-- Text at the left of a field. -/
def padRight (width : Nat) (s : String) : String := s.pushn ' ' (width - s.length)

/-- Text at the right of a field. -/
def padLeft (width : Nat) (s : String) : String := "".pushn ' ' (width - s.length) ++ s

end JointPlan.Text
