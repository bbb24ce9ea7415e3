import ShapeAnalysis.Formula.Basic

/-!
# Integrity constraints

A constraint demands its head wherever its body is definitely true.  Variables
that occur free only in the head are closed universally.
-/

namespace ShapeAnalysis

/-- An integrity constraint. -/
structure Constraint where
  /-- Where the constraint applies. -/
  body : Formula PredId
  /-- What it demands there. -/
  head : Formula PredId
deriving DecidableEq, Repr, Inhabited

namespace Constraint

/-- Quantify universally over variables, the first one outermost. -/
def close (vars : List Var) (f : Formula PredId) : Formula PredId := vars.foldr .all f

/-- The constraint of a body and a head. -/
def new (body head : Formula PredId) : Constraint :=
  let bound := body.freeVars
  ⟨body, close (head.freeVars.filter fun v => v ∉ bound) head⟩

end Constraint

end ShapeAnalysis
