import ShapeAnalysis.Structure.Eval

/-!
# Actions

An action describes what a statement does to a structure: focus formulas to
split on, a precondition, an update formula for each predicate that changes,
messages to report, and whether a node is allocated.  To apply an action under
an assignment is a pure function on structures.
-/

namespace ShapeAnalysis

/-- A predicate gets the values of a formula. -/
structure Update (P : Type) where
  /-- The predicate. -/
  pred : P
  /-- The variables that stand for its arguments. -/
  vars : List Var
  /-- The new value at each tuple. -/
  formula : Formula P
deriving DecidableEq, Repr, Inhabited

/-- When a message is reported. -/
inductive MessageKind where
  /-- The condition may hold. -/
  | potential
  /-- The condition holds. -/
  | definiteTrue
  /-- The condition fails. -/
  | definiteFalse
deriving DecidableEq, Repr, Inhabited

namespace MessageKind

/-- Every kind of message. -/
def all : List MessageKind := [potential, definiteTrue, definiteFalse]

/-- The short word for a kind of message. -/
def name : MessageKind → String
  | potential => "pot"
  | definiteTrue => "true"
  | definiteFalse => "false"

end MessageKind

/-- A message with its condition. -/
structure MessageRule (P : Type) where
  /-- When it is reported. -/
  kind : MessageKind
  /-- The condition. -/
  condition : Formula P
  /-- What is reported. -/
  text : String
deriving DecidableEq, Repr, Inhabited

/-- An action over predicates `P`. -/
structure Action (P : Type) where
  /-- The title in reports. -/
  title : String
  /-- Whether the action does nothing at all. -/
  skip : Bool := false
  /-- The formulas to split on. -/
  focus : List (Formula P) := []
  /-- What has to hold for the action to run. -/
  precondition : Option (Formula P) := none
  /-- The predicates that change. -/
  updates : List (Update P) := []
  /-- The messages to report. -/
  messages : List (MessageRule P) := []
  /-- The variable that is bound to a new node. -/
  newVar : Option Var := none
deriving DecidableEq, Repr, Inhabited

/-! ## Changing the predicates -/

/-- Replace every predicate of an update, its own first. -/
def Update.mapM {P Q : Type} {m : Type → Type} [Monad m] (r : P → m Q) (u : Update P) :
    m (Update Q) := do
  return ⟨← r u.pred, u.vars, ← u.formula.mapM r⟩

/-- Replace every predicate of a message rule. -/
def MessageRule.mapM {P Q : Type} {m : Type → Type} [Monad m] (r : P → m Q)
    (rule : MessageRule P) : m (MessageRule Q) := do
  return ⟨rule.kind, ← rule.condition.mapM r, rule.text⟩

/-- Replace every predicate of an action, in the order focus, precondition,
updates, messages. -/
def Action.mapM {P Q : Type} {m : Type → Type} [Monad m] (r : P → m Q) (a : Action P) :
    m (Action Q) := do
  let focus ← a.focus.mapM (·.mapM r)
  let precondition ← a.precondition.mapM (·.mapM r)
  let updates ← a.updates.mapM (·.mapM r)
  let messages ← a.messages.mapM (·.mapM r)
  return { title := a.title, skip := a.skip, focus, precondition, updates, messages,
           newVar := a.newVar }

namespace Action

variable {V : Vocabulary}

/-! ## Applying an action -/

/-- The assignments under which the action runs: those that do not make the
precondition false, or the empty one if there is no precondition. -/
def assignments (act : Action PredId) (s : Structure V) : List Assignment :=
  match act.precondition with
  | none => [.empty]
  | some f => (s.solutions f .empty).map Prod.fst

/-- Whether a message is reported on a structure under an assignment. -/
def fires (s : Structure V) (a : Assignment) (rule : MessageRule PredId) : Bool :=
  match rule.kind with
  | .potential => !(s.solutions rule.condition a).isEmpty
  | .definiteTrue => (s.solutions rule.condition a).any fun e => e.2 = .tt
  | .definiteFalse => (s.solutions (.neg rule.condition) a).any fun e => e.2 = .tt

/-- The texts of the messages that are reported, each once. -/
def report (act : Action PredId) (s : Structure V) (a : Assignment) : List String :=
  act.messages.foldl (fun out rule =>
    if fires s a rule && !out.contains rule.text then out ++ [rule.text] else out) []

/-- The structure that updates read, with the new node if there is one, and the
assignment that binds it. -/
def allocate (act : Action PredId) (s : Structure V) (a : Assignment) :
    Structure V × Assignment :=
  match act.newVar with
  | none => (s, a)
  | some v =>
    let (s', n) := s.newNode
    (s'.set Vocabulary.isNew [n] .tt, a.bind v n)

/-- Write the values that an update has in `pre` into `post`.  The last tuple goes
first, so that every write finds its place near the front. -/
def applyUpdate (pre : Structure V) (a : Assignment) (post : Structure V)
    (u : Update PredId) : Structure V :=
  (Structure.tuples pre.nodes.toList u.vars.length).foldr (fun t post =>
    post.set u.pred t (pre.eval u.formula (a.bindAll u.vars t))) post

/-- Apply the updates.  All formulas read the structure before the updates.  The
new node is marked while they run and not afterwards. -/
def update (act : Action PredId) (s : Structure V) (a : Assignment) : Structure V :=
  let (pre, a) := act.allocate s a
  let post := act.updates.foldl (applyUpdate pre a) pre
  if act.newVar.isSome then post.setAll Vocabulary.isNew .ff else post

end Action

end ShapeAnalysis
