import ShapeAnalysis.Structure.Basic

/-!
# Evaluation

The value of a formula in a structure.  A variable without binding makes its
atom or equation false.  A node equals itself only if it is no summary node,
otherwise that is unknown.

Evaluation passes one assignment along.  A quantifier binds its variable to one
node after the other, stops as soon as the answer is settled, and then puts the
old binding back.  Connectives look at their second operand only when the first
one does not settle the answer.
-/

namespace ShapeAnalysis

namespace Structure

variable {V : Vocabulary}

/-- Put the binding of a variable back to what it was. -/
def restore (v : Var) (saved : Option Node) (a : Assignment) : Assignment :=
  match saved with
  | some n => a.bind v n
  | none => a.unbind v

/-- Bind a variable to one node after the other and combine the values of a
body, until the result is `stop`. -/
def sweep (body : Assignment → Kleene × Assignment) (combine : Kleene → Kleene → Kleene)
    (stop : Kleene) (v : Var) : List Node → Kleene → Assignment → Kleene × Assignment
  | [], acc, a => (acc, a)
  | n :: rest, acc, a =>
    let (k, a') := body (a.bind v n)
    let acc' := combine acc k
    if acc' = stop then (acc', a') else sweep body combine stop v rest acc' a'

/-- The value of an equation. -/
def equal (s : Structure V) (a : Assignment) (v w : Var) : Kleene :=
  match a.get? v, a.get? w with
  | some m, some n => if m ≠ n then .ff else if s.isSummary m then .unknown else .tt
  | _, _ => .ff

/-- The value of an atom. -/
def atomValue (s : Structure V) (a : Assignment) (p : PredId) (vars : List Var) : Kleene :=
  match a.tuple? vars with
  | some t => s.value p t
  | none => .ff

/-- The value of a formula, with the assignment as evaluation leaves it. -/
def run (s : Structure V) : Formula PredId → Assignment → Kleene × Assignment
  | .const k, a => (k, a)
  | .atom p vars, a => (s.atomValue a p vars, a)
  | .eq v w, a => (s.equal a v w, a)
  | .neg f, a =>
    let (k, a) := run s f a
    (k.not, a)
  | .and f g, a =>
    let (k, a) := run s f a
    if k = .ff then (.ff, a)
    else
      let (l, a) := run s g a
      (k.and l, a)
  | .or f g, a =>
    let (k, a) := run s f a
    if k = .tt then (.tt, a)
    else
      let (l, a) := run s g a
      (k.or l, a)
  | .imp f g, a =>
    let (k, a) := run s f a
    if k = .ff then (.tt, a)
    else
      let (l, a) := run s g a
      (k.implies l, a)
  | .ex v f, a =>
    let (k, a') := sweep (fun b => run s f b) Kleene.or .tt v s.nodes.toList .ff a
    (k, restore v (a.get? v) a')
  | .all v f, a =>
    let (k, a') := sweep (fun b => run s f b) Kleene.and .ff v s.nodes.toList .tt a
    (k, restore v (a.get? v) a')
termination_by structural f => f

/-- The value of a formula under an assignment. -/
def eval (s : Structure V) (f : Formula PredId) (a : Assignment) : Kleene := (s.run f a).1

/-- The ways to bind variables to nodes, in lexicographic order. -/
def extensions (nodes : List Node) : List Var → Assignment → List Assignment
  | [], a => [a]
  | v :: rest, a => nodes.flatMap fun n => extensions nodes rest (a.bind v n)

/-- The assignments that extend a partial one to the free variables of a formula
and on which the formula is not false, with its values. -/
def solutions (s : Structure V) (f : Formula PredId) (a : Assignment) :
    List (Assignment × Kleene) :=
  let unbound := f.freeVars.filter fun v => !a.binds v
  (extensions s.nodes.toList unbound a).filterMap fun b =>
    let k := s.eval f b
    if k = .ff then none else some (b, k)

/-- Bind variables to one node after the other and list the assignments on which a formula
is not false, after those that were listed before.  All of this is done in one assignment,
from which the bindings are removed at the end. -/
def enumerate (s : Structure V) (f : Formula PredId) :
    List Var → List (Assignment × Kleene) → Assignment →
      List (Assignment × Kleene) × Assignment
  | [], out, a =>
    let (k, a) := s.run f a
    (if k = .ff then out else out ++ [(a, k)], a)
  | v :: rest, out, a =>
    let r := s.nodes.toList.foldl (fun r n => enumerate s f rest r.1 (r.2.bind v n)) (out, a)
    (r.1, r.2.unbind v)

/-- The solutions, listed in one assignment, and that assignment as the listing leaves it. -/
def solve (s : Structure V) (f : Formula PredId) (a : Assignment) :
    List (Assignment × Kleene) × Assignment :=
  s.enumerate f (f.freeVars.filter fun v => !a.binds v) [] a

end Structure

end ShapeAnalysis
