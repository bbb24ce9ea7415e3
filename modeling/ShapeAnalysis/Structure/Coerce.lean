import ShapeAnalysis.Structure.Eval

/-!
# Coerce

Coerce sharpens a structure with its integrity constraints.  Wherever the body
of a constraint is true, a false head means that the structure describes
nothing, and an unknown head that is a literal is set to what the constraint
demands.  Passes over the constraints repeat until one changes nothing.

Every change makes an unknown atom definite, so the number of unknown atoms
bounds the passes.
-/

namespace ShapeAnalysis

/-- What an attempt to sharpen a structure came to. -/
inductive Sharpening where
  /-- A constraint is violated. -/
  | violated
  /-- Nothing had to change. -/
  | stable
  /-- Some value was sharpened. -/
  | changed
deriving DecidableEq, Repr

namespace Structure

variable {V : Vocabulary}

/-- Demand the head of a constraint at an assignment. -/
def demand (s : Structure V) (head : Formula PredId) (a : Assignment) :
    Sharpening × Structure V :=
  match s.eval head a with
  | .tt => (.stable, s)
  | .ff => (.violated, s)
  | .unknown =>
    match head.literal? with
    | none => (.stable, s)
    | some l =>
      if l.pred = Vocabulary.sm then (.stable, s)
      else match a.tuple? l.vars with
        | none => (.stable, s)
        | some t => (.changed, s.set l.pred t (.ofBool l.positive))

/-- Demand the head of a constraint at each assignment of a list, up to a
violation. -/
def demandAll (head : Formula PredId) :
    List Assignment → Sharpening → Structure V → Sharpening × Structure V
  | [], acc, s => (acc, s)
  | a :: rest, acc, s =>
    match s.demand head a with
    | (.violated, s') => (.violated, s')
    | (.stable, s') => demandAll head rest acc s'
    | (.changed, s') => demandAll head rest .changed s'

/-- The assignments at which the body of a constraint is true. -/
def triggers (s : Structure V) (c : Constraint) : List Assignment :=
  (s.solutions c.body .empty).filterMap fun (a, k) => if k = .tt then some a else none

/-- One pass over constraints, up to a violation. -/
def coercePass : List Constraint → Sharpening → Structure V → Sharpening × Structure V
  | [], acc, s => (acc, s)
  | c :: rest, acc, s =>
    match demandAll c.head (s.triggers c) acc s with
    | (.violated, s') => (.violated, s')
    | (acc', s') => coercePass rest acc' s'

/-- Passes until one changes nothing.  The fuel bounds their number. -/
def coerceLoop : Nat → Structure V → Bool × Structure V
  | 0, s => (true, s)
  | fuel + 1, s =>
    match coercePass s.constraints .stable s with
    | (.violated, s') => (false, s')
    | (.stable, s') => (true, s')
    | (.changed, s') => coerceLoop fuel s'

/-- Sharpen a structure.  The answer says whether it can describe anything.
After a violation the structure is left as the pass found it. -/
def coerce (s : Structure V) : Bool × Structure V :=
  coerceLoop (s.unknownAtoms.length + 1) s

end Structure

end ShapeAnalysis
