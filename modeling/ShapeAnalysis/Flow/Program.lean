import ShapeAnalysis.Flow.CallGraph
import ShapeAnalysis.Flow.Event
import ShapeAnalysis.Flow.Method

/-!
# Programs

A program is built and then analysed.  While it is built, methods are registered
and get their control flow and their calls.  Completing the definitions ends
that.  From then on facts, transitions and calling contexts come in, and each
piece of news goes to the scheduler if one listens.

An operation that is refused leaves the program as it was.
-/

namespace ShapeAnalysis

/-- What was added while a program was built. -/
structure BuildCounters where
  /-- Statements. -/
  intra : Nat := 0
  /-- Static calls. -/
  statics : Nat := 0
  /-- Candidates of virtual calls. -/
  virtuals : Nat := 0
  /-- Constructor calls. -/
  constructors : Nat := 0
deriving DecidableEq, Repr, Inhabited

/-- Count one more call of a kind. -/
def BuildCounters.addCall (c : BuildCounters) : MethodKind → BuildCounters
  | .static => { c with statics := c.statics + 1 }
  | .virtual => { c with virtuals := c.virtuals + 1 }
  | .constructor => { c with constructors := c.constructors + 1 }

/-- A program with what is known about it. -/
structure Program (V : Vocabulary) where
  /-- How abstract states join. -/
  mode : JoinMode
  /-- The methods, by number. -/
  methods : List (Method V) := []
  /-- The method the analysis begins with. -/
  main : Option MethodId := none
  /-- The calls between the methods. -/
  calls : CallGraph := {}
  /-- The news that the scheduler has not fetched yet, if one listens. -/
  outbox : Option (List Event) := none
  /-- Whether the definitions are complete. -/
  started : Bool := false
  /-- Whether every node is shown in reports. -/
  printsAll : Bool := false
  /-- What was added while building. -/
  counters : BuildCounters := {}

namespace Program

variable {V : Vocabulary}

/-- The program without methods. -/
def new (mode : JoinMode) : Program V := { mode }

/-! ## Methods -/

/-- Refuse a definition once the definitions are complete. -/
def checkBuilding (p : Program V) (what : String) : Except Error Unit :=
  if p.started then .error (.definitionsCompleted what) else .ok ()

/-- The method with a signature. -/
def lookup (p : Program V) (signature : String) : Option MethodId :=
  p.methods.findIdx? fun m => m.signature == signature

/-- The method with a number. -/
def method (p : Program V) (m : MethodId) : Except Error (Method V) :=
  match p.methods[m]? with
  | some x => .ok x
  | none => .error (.undefinedMethod m)

/-- The methods of a kind. -/
def bin (p : Program V) (kind : MethodKind) : List (Method V) :=
  p.methods.filter fun m => m.kind = kind

/-- Replace a method. -/
def setMethod (p : Program V) (m : MethodId) (x : Method V) : Program V :=
  { p with methods := p.methods.set m x }

/-- Register a method.  Its number is the position, which fits into 32 bits for up to `2 ^ 32`
methods. -/
def addMethod (p : Program V) (kind : MethodKind) (signature entry exit : String) :
    Except Error (Program V × MethodId) := do
  p.checkBuilding "method registration"
  if let some other := p.methods.find? fun m => m.signature == signature then
    throw (.methodRegistered signature other.kind)
  let id := p.methods.length
  let x ← Method.new id signature kind entry exit p.mode
  let calls ← p.calls.addMethod id
  return ({ p with methods := p.methods ++ [x], calls }, id)

/-- Choose the method the analysis begins with.  It has to be static, and the
choice is made once. -/
def setMain (p : Program V) (m : MethodId) : Except Error (Program V) := do
  if let some main := p.main then
    throw (.mainTaken (← p.method main).signature)
  let x ← p.method m
  if x.kind ≠ .static then throw (.mainNotStatic x.signature)
  return { p with main := some m }

/-! ## Control flow and calls -/

/-- Add a statement to a method. -/
def addIntra (p : Program V) (m : MethodId) (src dst : String) (action : ActionInstance) :
    Except Error (Program V) := do
  p.checkBuilding "intra statement"
  let x ← (← p.method m).addIntra src dst action
  return { p.setMethod m x with counters := { p.counters with intra := p.counters.intra + 1 } }

/-- The signature of a callee, which has to be of the kind it is called as. -/
def checkCallee (p : Program V) (caller callee : MethodId) (kind : MethodKind) (src : String) :
    Except Error String := do
  let x ← p.method caller
  let y ← p.method callee
  if y.kind ≠ kind then
    throw (.calleeKind y.kind y.signature kind src x.signature)
  return y.signature

/-- Register a call with the call graph. -/
def registerCall (g : CallGraph) (kind : MethodKind) (x : CallPoint) (callee : MethodId)
    (callAction retAction guardAction : ActionInstance) : Except Error CallGraph :=
  match kind with
  | .static => g.addStatic x callee callAction retAction
  | .constructor => g.addConstructor x callee callAction retAction
  | .virtual => g.addVirtual x callee callAction retAction guardAction

/-- Add a call to a method.  Every check comes before the first change.  The
guard counts for virtual calls only. -/
def addCall (p : Program V) (kind : MethodKind) (caller : MethodId) (args : List String)
    (src dst : String) (callee : MethodId) (callAction retAction guardAction : ActionInstance) :
    Except Error (Program V) := do
  p.checkBuilding (kind.name ++ " invocation")
  let signature ← p.checkCallee caller callee kind src
  let x ← p.method caller
  x.checkCall kind.callSite src dst
  if kind = .virtual then p.calls.checkVirtual caller (x.cfg.lookup src) callee
  else p.calls.checkUnique caller (x.cfg.lookup src) callee
  let x ← x.addCall kind src dst signature args
  match x.cfg.lookup src with
  | none => throw (.noSuchLabel src x.signature)
  | some site =>
    let calls ← registerCall p.calls kind ⟨caller, site⟩ callee callAction retAction guardAction
    return { p.setMethod caller x with calls, counters := p.counters.addCall kind }

/-- End the building of the program. -/
def complete (p : Program V) : Program V := { p with started := true, calls := p.calls.close }

/-! ## Facts and news -/

/-- Let a scheduler listen from now on. -/
def listen (p : Program V) : Program V := { p with outbox := some (p.outbox.getD []) }

/-- Pass news on to the scheduler. -/
def emit (p : Program V) (events : List Event) : Program V :=
  { p with outbox := p.outbox.map (· ++ events) }

/-- The news of a fact at a node. -/
def newsAt (g : CallGraph) (m : MethodId) (site : Site) (kind : NodeKind) (f : Fact) :
    List Event :=
  match kind with
  | .staticCall => (g.staticTarget? ⟨m, site⟩).toList.map (.call .static m site f)
  | .constructorCall => (g.constructorTarget? ⟨m, site⟩).toList.map (.call .constructor m site f)
  | .virtualCall => (g.virtualTargets ⟨m, site⟩).map (.call .virtual m site f)
  | _ => [.intra m site f]

/-- Join a structure into the state at a site of a method. -/
def addStructure (p : Program V) (m : MethodId) (site : Site) (s : Structure V) :
    Except Error (Program V × Bool × Fact) := do
  let x ← p.method m
  let n ← x.node site
  let (x, changed, fact) ← x.addStructure site s
  let p := p.setMethod m x
  return (if changed then p.emit (newsAt p.calls m site n.kind fact) else p, changed, fact)

/-- Add structures at a site one after the other, with the facts that were new
among them. -/
def seed (m : MethodId) (site : Site) : List (Structure V) → Program V → List Fact →
    Except Error (Program V × List Fact)
  | [], p, facts => .ok (p, facts)
  | s :: rest, p, facts =>
    match p.addStructure m site s with
    | .error e => .error e
    | .ok (p, changed, f) =>
      seed m site rest p (if changed && f ∉ facts then facts ++ [f] else facts)

/-- Begin the analysis with structures at the entry of the main method. -/
def start (p : Program V) (ss : List (Structure V)) : Except Error (Program V × List Fact) := do
  if !p.started then throw .definitionsOpen
  match p.main with
  | none => throw .noMain
  | some main =>
    let x ← p.method main
    seed main x.entry ss p []

/-- Add a transition between facts of a method. -/
def addTransition (p : Program V) (m : MethodId) (src : Site) (f : Fact) (dst : Site)
    (f' : Fact) : Except Error (Program V × Bool) := do
  let (x, new) ← (← p.method m).addTransition src f dst f'
  let p := p.setMethod m x
  return (if new then p.emit [.transition m src f dst f'] else p, new)

/-- Hand out the change of a method's summary, each pair also as news. -/
def updateSummary (p : Program V) (m : MethodId) :
    Except Error (Program V × Option SummaryDelta) := do
  let (x, d) := (← p.method m).updateSummary
  let p := p.setMethod m x
  match d with
  | none => return (p, none)
  | some d => return (p.emit (d.pairs.map fun q => .ret m q.fst q.snd), some d)

/-! ## Calls -/

/-- The node at a site, which has to be of a kind. -/
def checkNodeKind (p : Program V) (m : MethodId) (site : Site) (kind : NodeKind) :
    Except Error Unit := do
  let n ← (← p.method m).node site
  if n.kind ≠ kind then throw (.wrongNodeKind (n.render "") kind)

/-- The node at a site, which has to be a call site. -/
def checkCallSite (p : Program V) (m : MethodId) (site : Site) : Except Error Unit := do
  let n ← (← p.method m).node site
  if !n.kind.isCall then throw (.notCallSite (n.render ""))

/-- The callee of a static call. -/
def staticCallee (p : Program V) (m : MethodId) (site : Site) : Except Error MethodId := do
  p.checkNodeKind m site .staticCall
  match p.calls.staticTarget? ⟨m, site⟩ with
  | some callee => return callee
  | none => throw (.noStaticCall site)

/-- The callee of a constructor call. -/
def constructorCallee (p : Program V) (m : MethodId) (site : Site) : Except Error MethodId := do
  p.checkNodeKind m site .constructorCall
  match p.calls.constructorTarget? ⟨m, site⟩ with
  | some callee => return callee
  | none => throw (.noConstructorCall site)

/-- The candidates of a virtual call. -/
def virtualCallees (p : Program V) (m : MethodId) (site : Site) :
    Except Error (List MethodId) := do
  p.checkNodeKind m site .virtualCall
  return p.calls.virtualTargets ⟨m, site⟩

/-- The action on the way into a callee. -/
def callAction (p : Program V) (m : MethodId) (site : Site) (callee : MethodId) :
    Except Error ActionInstance := do
  p.checkCallSite m site
  p.calls.callAction ⟨m, site⟩ callee

/-- The action on the way out of a callee. -/
def retAction (p : Program V) (m : MethodId) (site : Site) (callee : MethodId) :
    Except Error ActionInstance := do
  p.checkCallSite m site
  p.calls.retAction ⟨m, site⟩ callee

/-- The guard of a candidate. -/
def guardAction (p : Program V) (m : MethodId) (site : Site) (callee : MethodId) :
    Except Error ActionInstance := do
  p.checkNodeKind m site .virtualCall
  p.calls.guardAction ⟨m, site⟩ callee

/-- Record that a call led to entry facts of a callee. -/
def addContext (p : Program V) (callee : MethodId) (entries : List Fact) (c : CallFact)
    (refined : List Fact) : Except Error (Program V × Bool) := do
  let _ ← p.method callee
  p.checkCallSite c.point.caller c.point.site
  let (calls, grew) ← p.calls.addContext callee entries c refined
  return ({ p with calls }, grew)

/-- The calling context of an entry fact. -/
def context (p : Program V) (callee : MethodId) (entry : Fact) : Except Error CallingContext :=
  match p.calls.contexts.get? callee entry with
  | some ctx => .ok ctx
  | none => .error (.noContext entry callee)

/-! ## Reports -/

/-- Show every node in reports. -/
def printAllNodes (p : Program V) : Program V :=
  { p with printsAll := true, methods := p.methods.map Method.printAll }

/-- Show every node but the plain ones in reports. -/
def printInterprocNodes (p : Program V) : Program V :=
  { p with methods := p.methods.map Method.printInterproc }

/-- Show the nodes of a method in reports. -/
def printMethod (p : Program V) (m : MethodId) : Except Error (Program V) := do
  return p.setMethod m (← p.method m).printAll

/-- Show the node with a label in reports. -/
def printNode (p : Program V) (m : MethodId) (label : String) : Except Error (Program V) := do
  return p.setMethod m (← (← p.method m).printNode label)

/-- The messages of the methods that have any, with an empty line between. -/
def renderMessages (p : Program V) : String :=
  "\n".intercalate ((p.methods.map Method.renderMessages).filter (!·.isEmpty))

/-- The structures at the nodes that are shown, method by method. -/
def renderResults (p : Program V) : String :=
  String.join <| p.methods.map fun m =>
    let nodes := m.renderNodes
    if nodes.isEmpty then "" else s!"== {m.signature} ==\n" ++ nodes

/-- The name of a method in reports. -/
def methodName (p : Program V) (m : MethodId) : String :=
  match p.methods[m]? with
  | some x => x.signature
  | none => m.text

/-- The line of a method in the report. -/
def methodLine (m : Method V) : String :=
  s!"  {m.signature} [{m.kind.name}]: {m.cfg.nodes.length} nodes, " ++
    s!"{m.store.repository.size} structures, join " ++
    Text.fixed 3 m.store.joinTimer.total.millis ++ " ms"

/-- The report on a program. -/
def report (p : Program V) : String :=
  let head := s!"Program: {p.methods.length} methods, {p.counters.intra} intra statements, " ++
    s!"{p.calls.size} call sites"
  Text.unlines (head :: p.methods.map methodLine) ++ p.calls.contexts.report p.methodName

/-- The program as one line of diagnostics. -/
def describe (p : Program V) : String :=
  let main := match p.main with
    | some m => s!"Some(MethodId({m}))"
    | none => "None"
  s!"ProgramTs \x7b methods: {p.methods.length}, main: {main}, " ++
    s!"analysis_started: {p.started}, has_consumer: {p.outbox.isSome} \x7d"

end Program

end ShapeAnalysis
