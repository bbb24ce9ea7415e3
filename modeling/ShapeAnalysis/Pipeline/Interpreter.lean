import ShapeAnalysis.Config.Basic
import ShapeAnalysis.Pipeline.Applier
import ShapeAnalysis.Structure.Combine

/-!
# The interpreter

An interpreter has one applier for each role and keeps the statistics.  A return
runs on the combination of a call and an exit structure, whose nodes are marked
by where they come from while the action runs.  Listeners are told about the
messages of every action that did not stop the analysis.
-/

namespace ShapeAnalysis

/-- Where an action runs and on which inputs. -/
structure ProgramPoint where
  /-- The label of the place. -/
  label : String
  /-- The names of the input structures. -/
  inputs : List String := []
deriving DecidableEq, Repr, Inhabited

/-- The appliers of an analysis with its statistics. -/
structure Interpreter where
  /-- Runs plain statements. -/
  intra : Applier
  /-- Runs guards. -/
  guard : Applier
  /-- Runs calls. -/
  call : Applier
  /-- Runs returns. -/
  ret : Applier
  /-- The counters. -/
  statistics : Statistics := {}
  /-- The number of registered listeners. -/
  listeners : Nat := 0
  /-- What the listeners were told, oldest first. -/
  log : List MessageRecord := []

namespace Interpreter

variable {V : Vocabulary}

/-- The interpreter of a configuration. -/
def new (c : Config) : Except Error Interpreter := do
  return {
    intra := ← Applier.new .intra c.intra
    guard := ← Applier.new .guard c.guard
    call := ← Applier.new .call c.call
    ret := ← Applier.new .ret c.ret }

/-- Register one more listener. -/
def addListener (it : Interpreter) : Interpreter := { it with listeners := it.listeners + 1 }

/-- The applier of a role. -/
def applier (it : Interpreter) : Role → Applier
  | .intra => it.intra
  | .guard => it.guard
  | .call => it.call
  | .ret => it.ret

/-- What listeners are told about the messages of an action. -/
def records (i : ActionInstance) (point : ProgramPoint) (fired : Messages V) :
    List MessageRecord :=
  fired.entries.map fun (s, texts) =>
    { transformer := i.action.title, inputs := point.inputs, location := point.label,
      focused := s.render, messages := texts }

/-- Apply an action in a role.  If the pipeline stops, messages and listeners
stay as they were. -/
def apply (it : Interpreter) (role : Role) (i : ActionInstance) (input : Structure V)
    (point : ProgramPoint) (messages : Messages V) :
    Interpreter × Messages V × Except Error (List (Structure V)) :=
  let (statistics, fired, out) :=
    (it.applier role).apply i input point.label Messages.empty it.statistics
  match out with
  | .error e => ({ it with statistics }, messages, .error e)
  | .ok results =>
    let told := (records i point fired).flatMap fun r => List.replicate it.listeners r
    ({ it with statistics, log := it.log ++ told }, messages.extend fired, .ok results)

/-- The call and the exit structure combined, nodes marked by their side. -/
def joined (combiner : Kleene → Kleene → Kleene) (call exit : Structure V) : Structure V :=
  Structure.combine combiner (call.setAll Vocabulary.inUc .tt) (exit.setAll Vocabulary.inUx .tt)

/-- A result of a return without the marks and without killed nodes. -/
def unmarked (s : Structure V) : Structure V :=
  let s := (s.setAll Vocabulary.inUc .ff).setAll Vocabulary.inUx .ff
  (s.filterNodes Vocabulary.kill).setAll Vocabulary.kill .ff

/-- Run a return action on a call and an exit structure. -/
def applyBinary (it : Interpreter) (combiner : Kleene → Kleene → Kleene) (i : ActionInstance)
    (call exit : Structure V) (point : ProgramPoint) (messages : Messages V) :
    Interpreter × Messages V × Except Error (List (Structure V)) :=
  let counted := { it.statistics with combines := it.statistics.combines + 1 }
  let (it, messages, out) :=
    ({ it with statistics := counted }).apply .ret i (joined combiner call exit) point messages
  (it, messages, out.map (·.map unmarked))

/-- Run a return action with predicates without arguments combined by
disjunction. -/
def applyRet (it : Interpreter) (i : ActionInstance) (call exit : Structure V)
    (point : ProgramPoint) (messages : Messages V) :
    Interpreter × Messages V × Except Error (List (Structure V)) :=
  it.applyBinary Kleene.or i call exit point messages

/-- Start the timer of the analysis. -/
def startAnalysis (it : Interpreter) : Interpreter :=
  { it with statistics := it.statistics.start .totalAnalysis }

/-- Stop the timer of the analysis and report. -/
def finishAnalysis (it : Interpreter) : Interpreter × String :=
  let statistics := it.statistics.stop .totalAnalysis
  ({ it with statistics }, statistics.report)

/-- The interpreter as one line of diagnostics. -/
def describe (it : Interpreter) : String :=
  "AbstractInterpreter \x7b intra: " ++ it.intra.describe ++ ", guard: " ++ it.guard.describe ++
    ", call: " ++ it.call.describe ++ ", ret: " ++ it.ret.describe ++
    s!", listeners: {it.listeners} \x7d"

end Interpreter

end ShapeAnalysis
