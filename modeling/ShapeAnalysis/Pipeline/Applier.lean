import ShapeAnalysis.Action.Definition
import ShapeAnalysis.Config.Policy
import ShapeAnalysis.Pipeline.Messages
import ShapeAnalysis.Pipeline.Statistics
import ShapeAnalysis.Structure.Coerce
import ShapeAnalysis.Structure.Focus

/-!
# The action pipeline

An applier runs an action on a structure under the policy of a role.  The input
is focused and the focused structures are coerced.  Each of them runs once for
every assignment of the precondition: messages are reported, the update is
applied, killed nodes are removed, and the result is coerced and blurred.

Results come in the order of the focused structures and, for each of them, of
the assignments.  The pipeline stops only where coerce after update fails and
the policy says so.
-/

namespace ShapeAnalysis

/-- A pipeline with its policy. -/
structure Applier where
  /-- The role it is used in. -/
  role : Role
  /-- The flags it obeys. -/
  policy : Policy
deriving DecidableEq, Repr, Inhabited

/-- What a pipeline has done so far. -/
structure Progress (V : Vocabulary) where
  /-- The counters. -/
  stats : Statistics
  /-- The messages reported. -/
  messages : Messages V
  /-- The structures produced, oldest first. -/
  results : List (Structure V) := []

namespace Applier

variable {V : Vocabulary}

/-- The applier of a role, if its policy is valid. -/
def new (role : Role) (policy : Policy) : Except Error Applier :=
  match policy.validateFor role with
  | .ok () => .ok ⟨role, policy⟩
  | .error e => .error (.config e)

/-- The structures the action is split into. -/
def focused (ap : Applier) (act : Action PredId) (input : Structure V) (stats : Statistics) :
    Statistics × List (Structure V) :=
  if ap.policy.focus && !act.focus.isEmpty then (stats.tick .focus, input.focus act.focus)
  else (stats, [input])

/-- What the update of a branch leaves after killed nodes are removed. -/
def updated (act : Action PredId) (s : Structure V) (a : Assignment) : Structure V :=
  (act.update s a).filterNodes Vocabulary.kill

/-- Blur a result and add it. -/
def emit (ap : Applier) (p : Progress V) (s : Structure V) : Progress V :=
  let (stats, s) := if ap.policy.blur then (p.stats.tick .blur, s.blur) else (p.stats, s)
  { p with
    stats := { stats with structures := stats.structures + 1 }
    results := p.results ++ [s] }

/-- Update, coerce and blur one branch. -/
def finishBranch (ap : Applier) (i : ActionInstance) (input : Structure V) (location : String)
    (s : Structure V) (a : Assignment) (p : Progress V) : Progress V × Option Error :=
  let p := { p with stats := p.stats.tick .update }
  let post := updated i.action s a
  if ap.policy.coerceAfterUpdate then
    let p := { p with stats := p.stats.tick .coerce }
    match post.coerce with
    | (true, post) => (ap.emit p post, none)
    | (false, post) =>
      let breached := p.stats.breachesAfterUpdate + 1
      let p := { p with stats := { p.stats with breachesAfterUpdate := breached } }
      if ap.policy.breakOnCoerceFailure then
        (p, some (.coerceAfterUpdate i.action.title location input.render post.render))
      else (p, none)
  else (ap.emit p post, none)

/-- Report the messages of a branch and, unless that freezes it, finish it. -/
def branch (ap : Applier) (i : ActionInstance) (input : Structure V) (location : String)
    (s : Structure V) (a : Assignment) (p : Progress V) : Progress V × Option Error :=
  let fired := i.action.report s a
  if fired.isEmpty then ap.finishBranch i input location s a p
  else
    let p := { p with messages := p.messages.add s fired }
    if ap.policy.freezeOnMessages then
      ({ p with stats := { p.stats with messages := p.stats.messages + 1 } }, none)
    else ap.finishBranch i input location s a p

/-- Run steps in order, up to the first error. -/
def runAll {α : Type} (step : α → Progress V → Progress V × Option Error) :
    List α → Progress V → Progress V × Option Error
  | [], p => (p, none)
  | x :: rest, p =>
    match step x p with
    | (p, some e) => (p, some e)
    | (p, none) => runAll step rest p

/-- Run the branches of a focused structure, if coerce lets it pass. -/
def runFocused (ap : Applier) (i : ActionInstance) (input : Structure V) (location : String)
    (s : Structure V) (p : Progress V) : Progress V × Option Error :=
  let branches (s : Structure V) (p : Progress V) :=
    runAll (ap.branch i input location s) (i.action.assignments s)
      { p with stats := p.stats.tick .precondition }
  if ap.policy.coerceAfterFocus then
    let p := { p with stats := p.stats.tick .coerce }
    match s.coerce with
    | (true, s) => branches s p
    | (false, _) =>
      let breaches := p.stats.constraintBreaches + 1
      ({ p with stats := { p.stats with constraintBreaches := breaches } }, none)
  else branches s p

/-- Apply an action to a structure.  The answer holds the counters and messages
after it, and the structures unless the pipeline stopped. -/
def apply (ap : Applier) (i : ActionInstance) (input : Structure V) (location : String)
    (messages : Messages V) (stats : Statistics) :
    Statistics × Messages V × Except Error (List (Structure V)) :=
  let stats := { stats with actionsApplied := stats.actionsApplied + 1 }
  if i.action.skip then (stats, messages, .ok [input])
  else
    let (stats, inputs) := ap.focused i.action input stats
    match runAll (ap.runFocused i input location) inputs { stats, messages } with
    | (p, none) => (p.stats, p.messages, .ok p.results)
    | (p, some e) => (p.stats, p.messages, .error e)

/-- The applier as one line of diagnostics. -/
def describe (ap : Applier) : String :=
  "Applier \x7b role: " ++ ap.role.title ++ ", policy: " ++ ap.policy.describe ++ " \x7d"

end Applier

end ShapeAnalysis
