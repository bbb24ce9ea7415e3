import ShapeAnalysis.Error

/-!
# Vocabularies

A vocabulary lists the predicates that formulas and structures are about.  A
predicate is named by its position.  Six unary predicates that the engine itself
uses come first in every vocabulary, and the declared ones follow in the order
of their declaration.
-/

namespace ShapeAnalysis

/-- A predicate is named by its position in the vocabulary.  Positions have no bound here.  An
engine that keeps them in 32 bits names the same predicates up to `2 ^ 32` of them. -/
abbrev PredId := Nat

/-- The name of a position in diagnostics. -/
def PredId.text (p : PredId) : String := s!"p{p}"

/-- A declared predicate. -/
structure Predicate where
  /-- The name used in formulas. -/
  name : String
  /-- The number of arguments. -/
  arity : Nat
  /-- Whether its values name nodes during blur. -/
  abstraction : Bool
deriving DecidableEq, Repr, Inhabited

/-- The predicate with its arity. -/
def Predicate.text (p : Predicate) : String := s!"{p.name}/{p.arity}"

/-- The predicates of an analysis beyond the reserved ones. -/
structure Vocabulary where
  /-- The declared predicates, oldest first. -/
  declared : List Predicate
deriving DecidableEq, Repr, Inhabited

namespace Vocabulary

/-! ## The reserved predicates -/

/-- Marks summary nodes: a node stands for several iff `sm` is unknown on it. -/
def sm : PredId := 0
/-- Marks the nodes to discard after an update. -/
def kill : PredId := 1
/-- Marks the nodes of the caller while a return is processed. -/
def inUc : PredId := 2
/-- Marks the nodes of the callee's exit while a return is processed. -/
def inUx : PredId := 3
/-- Left to analyses that track active nodes. -/
def active : PredId := 4
/-- Marks the node that the current action allocates. -/
def isNew : PredId := 5

/-- The reserved predicates, in the order of their positions. -/
def reserved : List Predicate :=
  ["sm", "kill", "inUc", "inUx", "active", "isNew"].map fun name => ⟨name, 1, false⟩

/-- Whether a position belongs to a reserved predicate. -/
def isReserved (p : PredId) : Bool := p < reserved.length

/-! ## Reading -/

/-- The vocabulary of the reserved predicates alone. -/
def empty : Vocabulary := ⟨[]⟩

/-- Every predicate, in the order of the positions. -/
def predicates (V : Vocabulary) : List Predicate := reserved ++ V.declared

/-- The number of predicates. -/
def size (V : Vocabulary) : Nat := V.predicates.length

/-- The positions of the vocabulary. -/
def ids (V : Vocabulary) : List PredId := List.range V.size

/-- The predicate at a position. -/
def predicate? (V : Vocabulary) (p : PredId) : Option Predicate := V.predicates[p]?

/-- The name at a position. -/
def name (V : Vocabulary) (p : PredId) : String := ((V.predicate? p).map (·.name)).getD ""

/-- The arity at a position. -/
def arity (V : Vocabulary) (p : PredId) : Nat := ((V.predicate? p).map (·.arity)).getD 0

/-- The position of a name. -/
def lookup (V : Vocabulary) (name : String) : Option PredId :=
  V.predicates.findIdx? fun q => q.name == name

/-- The position of a name that has to be there. -/
def require (V : Vocabulary) (name : String) : Except Error PredId :=
  match V.lookup name with
  | some p => .ok p
  | none => .error (.undefinedPredicate name)

/-- The positions with a given arity. -/
def withArity (V : Vocabulary) (n : Nat) : List PredId := V.ids.filter fun p => V.arity p = n

/-- The unary predicates whose values name nodes during blur. -/
def abstraction (V : Vocabulary) : List PredId :=
  V.ids.filter fun p =>
    match V.predicate? p with
    | some q => q.abstraction && q.arity = 1
    | none => false

/-! ## Declaring -/

/-- Declare a predicate.  Only a unary one can name nodes.  To repeat a
declaration with the same arity changes nothing. -/
def declare (V : Vocabulary) (name : String) (arity : Nat) (abstraction : Bool) :
    Except Error (Vocabulary × PredId) :=
  match V.lookup name with
  | some p =>
    if isReserved p then .error (.reservedPredicate name)
    else if V.arity p ≠ arity then .error (.arityClash name arity (V.arity p))
    else .ok (V, p)
  | none => .ok (⟨V.declared ++ [⟨name, arity, abstraction && arity = 1⟩]⟩, V.size)

/-- Declare a predicate without arguments. -/
def nullary (V : Vocabulary) (name : String) : Except Error (Vocabulary × PredId) :=
  V.declare name 0 false

/-- Declare a unary predicate that names nodes. -/
def unary (V : Vocabulary) (name : String) : Except Error (Vocabulary × PredId) :=
  V.declare name 1 true

/-- Declare a binary predicate. -/
def binary (V : Vocabulary) (name : String) : Except Error (Vocabulary × PredId) :=
  V.declare name 2 false

end Vocabulary

end ShapeAnalysis
