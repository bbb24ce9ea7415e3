import ShapeAnalysis.Structure.Eval

/-!
# Focus

Focus splits a structure until its focus formulas are definite.  A focus formula
is a literal `p(v..)` or `!p(v..)`.  Where `p` is unknown at a tuple, the
structure splits into one where it is false and one where it is true.  If the
tuple is a single summary node `u`, a third structure divides `u` into a node on
which `p` is true and a copy on which it is false.

Tuples of two or more nodes with a summary node among them stay unknown.  A
formula of another form splits nothing, and neither does `sm`.

Each split settles one unknown atom of the predicate and makes no new one, so
their number bounds the splits.
-/

namespace ShapeAnalysis

namespace Structure

variable {V : Vocabulary}

/-- Whether a structure can be split at a tuple. -/
def splittable (s : Structure V) (t : List Node) : Bool :=
  t.length = 1 || t.all fun n => !s.isSummary n

/-- The first tuple of an atom at which the structure has to be split. -/
def unsettled? (s : Structure V) (p : PredId) (vars : List Var) : Option (List Node) :=
  ((s.solutions (.atom p vars) .empty).filterMap fun (a, k) =>
    if k = .unknown then a.tuple? vars else none).find? s.splittable

/-- Divide a summary node into a part where `p` is true and a part where it is
false. -/
def divide (s : Structure V) (p : PredId) (u : Node) : Structure V :=
  let (s', c) := s.duplicateByMasks u
  (s'.set p [u] .tt).set p [c] .ff

/-- Split a structure at a tuple: `p` false, `p` true, and a summary node
divided. -/
def splitAt (s : Structure V) (p : PredId) (t : List Node) : List (Structure V) :=
  [s.set p t .ff, s.set p t .tt] ++
    match t with
    | [u] => if s.isSummary u then [s.divide p u] else []
    | _ => []

/-- Split a structure until an atom is settled.  The fuel bounds the depth. -/
def settle (p : PredId) (vars : List Var) : Nat → Structure V → List (Structure V)
  | 0, s => [s]
  | fuel + 1, s =>
    match s.unsettled? p vars with
    | none => [s]
    | some t => (s.splitAt p t).flatMap (settle p vars fuel)

/-- How many atoms of a predicate with a given number of nodes are unknown. -/
def unknownCount (s : Structure V) (p : PredId) (n : Nat) : Nat :=
  (s.unknownAtoms.filter fun a => a.pred = p && a.args.length = n).length

/-- Split a structure on one focus formula. -/
def focusOn (s : Structure V) (f : Formula PredId) : List (Structure V) :=
  match f.literal? with
  | none => [s]
  | some l =>
    if l.pred = Vocabulary.sm then [s]
    else settle l.pred l.vars (s.unknownCount l.pred l.vars.length) s

/-- Split a structure on each focus formula in turn. -/
def focus (s : Structure V) (fs : List (Formula PredId)) : List (Structure V) :=
  fs.foldl (fun ss f => ss.flatMap (·.focusOn f)) [s]

end Structure

end ShapeAnalysis
