import ShapeAnalysis.Action.Basic
import ShapeAnalysis.Text.Layout

/-!
# Action definitions and instances

A definition is an action with parameters.  Its formulas refer to predicates by
name or by parameter, and its title may mention parameters in braces.  To
instantiate a definition with predicate names compiles it.  An instance
remembers the definition and the arguments it came from.
-/

namespace ShapeAnalysis

/-- An action with parameters. -/
structure ActionDefinition where
  /-- The name of the definition. -/
  name : String
  /-- The names of the parameters. -/
  params : List String
  /-- The action, with references to predicates and parameters. -/
  body : Action PredRef
deriving DecidableEq, Repr, Inhabited

/-- An action compiled for a list of arguments. -/
structure ActionInstance where
  /-- The name of the definition. -/
  name : String
  /-- The arguments. -/
  args : List String
  /-- The compiled action. -/
  action : Action PredId
deriving DecidableEq, Repr, Inhabited

namespace ActionDefinition

/-- A title with the arguments in the places of the parameters. -/
def fillTitle (title : String) (params args : List String) : String :=
  (params.zip args).foldl (fun t (p, a) => Text.replace ("\x7b" ++ p ++ "\x7d") a t) title

/-- The predicate that a reference means under a list of arguments. -/
def resolve (V : Vocabulary) (d : ActionDefinition) (args : List String) :
    PredRef → Except Error PredId
  | .named name => V.require name
  | .param i =>
    match args[i]? with
    | some arg => V.require arg
    | none => .error (.missingParameter d.name i)

/-- Compile a definition for a list of arguments. -/
def instantiate (V : Vocabulary) (d : ActionDefinition) (args : List String) :
    Except Error (Action PredId) :=
  if args.length ≠ d.params.length then
    .error (.argumentCount d.name d.params.length args.length)
  else
    { d.body with title := fillTitle d.body.title d.params args }.mapM (d.resolve V args)

end ActionDefinition

namespace ActionInstance

/-- The name of an instance: the definition with its arguments. -/
def idOf (name : String) (args : List String) : String :=
  name ++ "(" ++ ",".intercalate args ++ ")"

/-- The name of an instance. -/
def id (i : ActionInstance) : String := idOf i.name i.args

/-- The instance of an action that has no definition. -/
def ofAction (a : Action PredId) : ActionInstance := ⟨a.title, [], a⟩

/-- The instance that does nothing. -/
def skip : ActionInstance := ofAction { title := "skip", skip := true }

end ActionInstance

end ShapeAnalysis
