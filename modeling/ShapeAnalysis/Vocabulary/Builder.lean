import ShapeAnalysis.Order.SortedMap
import ShapeAnalysis.Vocabulary

/-!
# Vocabulary builders

A vocabulary is set up by a builder and frozen once everything is declared.  Both keep
the predicates twice, in a table by position and in an index by name.  Nothing in the
types says that the two belong together.  A declaration that finds its name in the index
reads the table at the position it found, and where the table ends before it the program
cannot go on.
-/

namespace ShapeAnalysis

/-- A predicate in a table. -/
structure TableEntry extends Predicate where
  /-- The position that it was given. -/
  id : PredId
  /-- Whether the engine itself uses it. -/
  reserved : Bool
deriving DecidableEq, Repr

/-- The positions of the predicates that the engine itself uses. -/
structure ReservedIds where
  /-- Marks summary nodes. -/
  sm : PredId
  /-- Marks the nodes to discard. -/
  kill : PredId
  /-- Marks the nodes of the caller. -/
  inUc : PredId
  /-- Marks the nodes of the callee's exit. -/
  inUx : PredId
  /-- Left to analyses. -/
  active : PredId
  /-- Marks the new node. -/
  isNew : PredId
deriving DecidableEq, Repr

/-- Predicates by position and by name. -/
structure PredicateTable where
  /-- The predicates, oldest first. -/
  predicates : List TableEntry
  /-- The position of every name. -/
  byName : SortedMap String PredId
  /-- The positions of the reserved predicates. -/
  reserved : ReservedIds

/-- Predicates to which more can be added. -/
structure VocabularyBuilder extends PredicateTable

/-- Predicates that are only read. -/
structure FrozenVocabulary extends PredicateTable

/-! ## Building -/

namespace VocabularyBuilder

/-- Put a predicate at the end of the table and into the index.  The position is the length of
the table.  Cut to 32 bits it is the same as long as the table has fewer than `2 ^ 32`
predicates, and the next one would get the position of the first again. -/
def push (b : VocabularyBuilder) (name : String) (arity : Nat) (abstraction reserved : Bool) :
    VocabularyBuilder × PredId :=
  let id := b.predicates.length
  ({ b with
      predicates := b.predicates ++ [{ name, arity, abstraction, id, reserved }]
      byName := b.byName.insert name id }, id)

/-- Put in a predicate that the engine uses. -/
def reserve (b : VocabularyBuilder) (name : String) : VocabularyBuilder × PredId :=
  b.push name 1 false true

/-- The builder without predicates. -/
def blank : VocabularyBuilder where
  predicates := []
  byName := ∅
  reserved := { sm := 0, kill := 0, inUc := 0, inUx := 0, active := 0, isNew := 0 }

/-- The builder with the reserved predicates. -/
def new : VocabularyBuilder :=
  let (b, sm) := blank.reserve "sm"
  let (b, kill) := b.reserve "kill"
  let (b, inUc) := b.reserve "inUc"
  let (b, inUx) := b.reserve "inUx"
  let (b, active) := b.reserve "active"
  let (b, isNew) := b.reserve "isNew"
  { b with reserved := { sm, kill, inUc, inUx, active, isNew } }

/-- Declare a predicate.  Only a unary one can name nodes.  To repeat a declaration with
the same arity answers the position it was given. -/
def declare (b : VocabularyBuilder) (name : String) (arity : Nat) (abstraction : Bool) :
    Option (VocabularyBuilder × Except Error PredId) :=
  match b.byName.get? name with
  | some id =>
    b.predicates[id]?.map fun existing =>
      if existing.reserved then (b, .error (.reservedPredicate name))
      else if existing.arity ≠ arity then (b, .error (.arityClash name arity existing.arity))
      else (b, .ok id)
  | none =>
    let (b, id) := b.push name arity (abstraction && arity = 1) false
    some (b, .ok id)

/-- Declare a predicate without arguments. -/
def nullary (b : VocabularyBuilder) (name : String) :
    Option (VocabularyBuilder × Except Error PredId) :=
  b.declare name 0 false

/-- Declare a unary predicate that names nodes. -/
def unary (b : VocabularyBuilder) (name : String) :
    Option (VocabularyBuilder × Except Error PredId) :=
  b.declare name 1 true

/-- Declare a binary predicate. -/
def binary (b : VocabularyBuilder) (name : String) :
    Option (VocabularyBuilder × Except Error PredId) :=
  b.declare name 2 false

/-- End the declarations. -/
def freeze (b : VocabularyBuilder) : FrozenVocabulary := ⟨b.toPredicateTable⟩

end VocabularyBuilder

/-! ## Reading -/

namespace FrozenVocabulary

/-- The position of a name. -/
def lookup (F : FrozenVocabulary) (name : String) : Option PredId := F.byName.get? name

/-- The position of a name that has to be there. -/
def require (F : FrozenVocabulary) (name : String) : Except Error PredId :=
  match F.lookup name with
  | some p => .ok p
  | none => .error (.undefinedPredicate name)

/-- The predicate at a position. -/
def predicate? (F : FrozenVocabulary) (p : PredId) : Option TableEntry := F.predicates[p]?

/-- The positions of the predicates with a given arity. -/
def withArity (F : FrozenVocabulary) (n : Nat) : List PredId :=
  (F.predicates.filter fun q => q.arity = n).map (·.id)

/-- The positions of the unary predicates whose values name nodes during blur. -/
def abstraction (F : FrozenVocabulary) : List PredId :=
  (F.predicates.filter fun q => q.abstraction && q.arity = 1).map (·.id)

end FrozenVocabulary

end ShapeAnalysis
