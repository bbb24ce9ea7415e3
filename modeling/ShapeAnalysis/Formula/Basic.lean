import ShapeAnalysis.Kleene
import ShapeAnalysis.Vocabulary

/-!
# Formulas

First-order formulas with Kleene constants.  `Formula P` refers to predicates by
values of `P`: by position once a formula is compiled, by name or by parameter
while it is part of an action definition.  The number of arguments of an atom is
not tied to the arity of its predicate.
-/

namespace ShapeAnalysis

/-- A logical variable, by number.  An engine with numbers of 32 bits has the variables below
`2 ^ 32`. -/
abbrev Var := Nat

/-- The name of a variable. -/
def Var.text (v : Var) : String := s!"v{v}"

/-- A formula over predicates `P`. -/
inductive Formula (P : Type) where
  /-- A truth value. -/
  | const (k : Kleene)
  /-- A predicate on variables. -/
  | atom (p : P) (vars : List Var)
  /-- Two variables name the same node. -/
  | eq (v w : Var)
  /-- Negation. -/
  | neg (f : Formula P)
  /-- Conjunction. -/
  | and (f g : Formula P)
  /-- Disjunction. -/
  | or (f g : Formula P)
  /-- Implication. -/
  | imp (f g : Formula P)
  /-- Some node satisfies the body. -/
  | ex (v : Var) (f : Formula P)
  /-- Every node satisfies the body. -/
  | all (v : Var) (f : Formula P)
deriving DecidableEq, Repr, Inhabited

namespace Formula

variable {P Q : Type}

/-! ## Free variables -/

/-- Note a variable unless it is bound or was noted before. -/
def noteVar (bound : List Var) (seen : List Var) (v : Var) : List Var :=
  if v ∈ bound ∨ v ∈ seen then seen else seen ++ [v]

/-- Note the free variables of a formula below the quantifiers in `bound`. -/
def noteFree (bound : List Var) (seen : List Var) : Formula P → List Var
  | const _ => seen
  | atom _ vars => vars.foldl (noteVar bound) seen
  | eq v w => noteVar bound (noteVar bound seen v) w
  | neg f => noteFree bound seen f
  | and f g => noteFree bound (noteFree bound seen f) g
  | or f g => noteFree bound (noteFree bound seen f) g
  | imp f g => noteFree bound (noteFree bound seen f) g
  | ex v f => noteFree (v :: bound) seen f
  | all v f => noteFree (v :: bound) seen f

/-- The free variables, in the order of their first free occurrence. -/
def freeVars (f : Formula P) : List Var := noteFree [] [] f

/-! ## Literals -/

/-- A predicate on variables with a polarity. -/
structure Literal (P : Type) where
  /-- The predicate. -/
  pred : P
  /-- Its arguments. -/
  vars : List Var
  /-- Whether the atom is asserted or denied. -/
  positive : Bool
deriving DecidableEq, Repr

/-- The formula as a literal, if it is an atom or a negated atom. -/
def literal? : Formula P → Option (Literal P)
  | atom p vars => some ⟨p, vars, true⟩
  | neg (atom p vars) => some ⟨p, vars, false⟩
  | _ => none

/-! ## Changing the predicates -/

/-- Replace every predicate, from left to right. -/
def mapM {m : Type → Type} [Monad m] (r : P → m Q) : Formula P → m (Formula Q)
  | const k => pure (const k)
  | atom p vars => do return atom (← r p) vars
  | eq v w => pure (eq v w)
  | neg f => do return neg (← f.mapM r)
  | and f g => do return and (← f.mapM r) (← g.mapM r)
  | or f g => do return or (← f.mapM r) (← g.mapM r)
  | imp f g => do return imp (← f.mapM r) (← g.mapM r)
  | ex v f => do return ex v (← f.mapM r)
  | all v f => do return all v (← f.mapM r)

/-! ## Text -/

/-- The text of a formula, predicates named by `name`. -/
def text (name : P → String) : Formula P → String
  | const k => k.text
  | atom p vars => name p ++ "(" ++ ",".intercalate (vars.map Var.text) ++ ")"
  | eq v w => v.text ++ " == " ++ w.text
  | neg f => "!" ++ text name f
  | and f g => "(" ++ text name f ++ " & " ++ text name g ++ ")"
  | or f g => "(" ++ text name f ++ " | " ++ text name g ++ ")"
  | imp f g => "(" ++ text name f ++ " -> " ++ text name g ++ ")"
  | ex v f => "E(" ++ v.text ++ "). " ++ text name f
  | all v f => "A(" ++ v.text ++ "). " ++ text name f

/-- The text of a compiled formula with the names of its vocabulary. -/
def render (V : Vocabulary) (f : Formula PredId) : String := f.text V.name

end Formula

/-! ## References in definitions -/

/-- How an action definition refers to a predicate. -/
inductive PredRef where
  /-- By its name. -/
  | named (name : String)
  /-- By the position of a parameter. -/
  | param (position : Nat)
deriving DecidableEq, Repr, Inhabited

/-- The text of a reference. -/
def PredRef.text : PredRef → String
  | named name => name
  | param position => s!"${position}"

end ShapeAnalysis
