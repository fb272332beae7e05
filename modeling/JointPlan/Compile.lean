import JointPlan.Pass.Boundary
import JointPlan.Pass.PushDown
import JointPlan.Pass.PushUp
import JointPlan.Plan.Validity

/-!
# Compiling a plan

Compilation takes a valid plan to a valid plan in which every crossing between
MPC and the clear is explicit. The optimizing pipeline first moves work out of
MPC and widens labels; the plain one only inserts the boundaries.
-/

namespace JointPlan

namespace Edit

def validate : Edit Unit := ask Plan.validate

def insertBoundaries : Edit Unit := Pass.boundaries.forM Pass.run

/-- Optimize the plan and insert the boundaries. In the end all labels are
derived anew and widened at the new boundaries. -/
def compileOptimized : Edit Unit := do
  validate
  Pass.pushDown.run
  Pass.pushUp.run
  insertBoundaries
  refreshAll
  Pass.pushUp.run
  validate

/-- Only insert the boundaries. -/
def compilePlain : Edit Unit := do
  validate
  insertBoundaries
  refreshAll
  validate

def compile (optimize : Bool) : Edit Unit := if optimize then compileOptimized else compilePlain

end Edit

namespace Pass

/-- The passes of the optimizing pipeline, each once. -/
def all : List Pass := pushDown :: pushUp :: boundaries

end Pass

end JointPlan
