import ShapeAnalysis.Action.Definition
import ShapeAnalysis.Order.SortedMap
import ShapeAnalysis.Order.SortedSet

/-!
# The action library

The definitions of an analysis with a bounded cache of instances.  The cache is
keyed by the name of the instance.  To use an instance makes it the most recent
one, and when there is no room the least recent one is dropped.
-/

namespace ShapeAnalysis

/-! ## The cache -/

/-- A bounded cache of instances. -/
structure ActionCache where
  /-- How many instances it may hold. -/
  capacity : Nat
  /-- The instances with their keys, most recent first. -/
  entries : List (String × ActionInstance) := []
  /-- How often a look-up found an instance. -/
  hits : Nat := 0
  /-- How often a look-up found none. -/
  misses : Nat := 0
deriving Repr, Inhabited

namespace ActionCache

/-- A cache with room for a number of instances. -/
def new (capacity : Nat) : Except Error ActionCache :=
  if capacity = 0 then .error .noCacheRoom else .ok { capacity }

/-- Look an instance up and make it the most recent one. -/
def get (c : ActionCache) (id : String) : ActionCache × Option ActionInstance :=
  match c.entries.find? (·.1 == id) with
  | some e =>
    ({ c with
        entries := e :: c.entries.filter (·.1 != id)
        hits := c.hits + 1 }, some e.2)
  | none => ({ c with misses := c.misses + 1 }, none)

/-- Put an instance in as the most recent one. -/
def insert (c : ActionCache) (i : ActionInstance) : ActionCache :=
  { c with entries := ((i.id, i) :: c.entries.filter (·.1 != i.id)).take c.capacity }

/-- The number of instances held. -/
def size (c : ActionCache) : Nat := c.entries.length

/-- The cache as one line of diagnostics. -/
def describe (c : ActionCache) : String :=
  s!"ActionCache: {c.size} entries, {c.hits} hits, {c.misses} misses"

end ActionCache

/-! ## The library -/

/-- The action definitions of an analysis. -/
structure ActionLibrary (V : Vocabulary) where
  /-- The definitions by name. -/
  definitions : SortedMap String ActionDefinition := ∅
  /-- The instances made so far. -/
  cache : ActionCache

namespace ActionLibrary

variable {V : Vocabulary}

/-- A library without definitions. -/
def new (V : Vocabulary) (capacity : Nat) : Except Error (ActionLibrary V) := do
  return { cache := ← ActionCache.new capacity }

/-- Add a definition under a new name. -/
def define (l : ActionLibrary V) (d : ActionDefinition) : Except Error (ActionLibrary V) :=
  if l.definitions.contains d.name then .error (.actionRedefined d.name)
  else .ok { l with definitions := l.definitions.insert d.name d }

/-- Whether a name has a definition. -/
def isDefined (l : ActionLibrary V) (name : String) : Bool := l.definitions.contains name

/-- Check that names have definitions.  The error lists the missing ones in
order. -/
def checkExpected (l : ActionLibrary V) (names : List String) : Except Error Unit :=
  match names.filter fun n => !l.isDefined n with
  | [] => .ok ()
  | missing => .error (.undefinedAction (", ".intercalate (SortedSet.ofList missing).toList))

/-- The instance of a definition for a list of arguments, from the cache if it
is there. -/
def instantiate (l : ActionLibrary V) (name : String) (args : List String) :
    ActionLibrary V × Except Error ActionInstance :=
  match l.cache.get (ActionInstance.idOf name args) with
  | (cache, some i) => ({ l with cache }, .ok i)
  | (cache, none) =>
    match l.definitions.get? name with
    | none => ({ l with cache }, .error (.undefinedAction name))
    | some d =>
      match d.instantiate V args with
      | .error e => ({ l with cache }, .error e)
      | .ok action =>
        let i : ActionInstance := ⟨name, args, action⟩
        ({ l with cache := cache.insert i }, .ok i)

end ActionLibrary

end ShapeAnalysis
