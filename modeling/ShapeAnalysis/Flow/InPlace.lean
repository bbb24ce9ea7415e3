import ShapeAnalysis.Flow.Program

/-!
# Operations in place

The caller of an operation holds one method or one program, which the operation
changes in place.  An operation may be refused after its first change, and nothing
takes that change back.  Here each operation is the sequence of its checks and
changes, in the order in which they happen, so that it is decided what a refusal
leaves behind.
-/

namespace ShapeAnalysis

/-- A command changes a state in place, and gives an answer or is refused.  Either
way the state is left as the changes made so far have it. -/
abbrev Command (σ α : Type) := EStateM Error σ α

namespace Command

variable {σ τ α : Type}

/-- A question to the state, which may refuse to go on. -/
def ask (question : σ → Except Error α) : Command σ α := fun s =>
  match question s with
  | .ok a => .ok a s
  | .error e => .error e s

/-- A change with an answer that makes its last check before it begins. -/
def atomic (op : σ → Except Error (σ × α)) : Command σ α := fun s =>
  match op s with
  | .ok (s', a) => .ok a s'
  | .error e => .error e s

/-- A change without an answer that makes its last check before it begins. -/
def update (op : σ → Except Error σ) : Command σ Unit :=
  atomic fun s => (op s).map fun s' => (s', ())

/-- A command on a part of a state.  What it leaves of the part is put back, also
when it is refused. -/
def onPart (part : τ) (put : τ → σ → σ) (c : Command τ α) : Command σ α := fun s =>
  match c.run part with
  | .ok a t => .ok a (put t s)
  | .error e t => .error e (put t s)

/-- The state that a command leaves. -/
def leaves (c : Command σ α) (s : σ) : σ :=
  match c.run s with
  | .ok _ s' => s'
  | .error _ s' => s'

/-- The answer of a command. -/
def answer (c : Command σ α) (s : σ) : Except Error α :=
  match c.run s with
  | .ok a _ => .ok a
  | .error e _ => .error e

end Command

/-! ## Methods -/

namespace Method.InPlace

variable {V : Vocabulary}

/-- Find the node with a label for use as a kind, or create it. -/
def obtainNode (kind : NodeKind) (label : String) : Command (Method V) Site :=
  .atomic fun m => m.obtainNode kind label

/-- Add a statement.  Its first node may be new before its second one is looked
up. -/
def addIntra (src dst : String) (action : ActionInstance) : Command (Method V) Unit := do
  let i ← obtainNode .intra src
  match (← get).cfg.lookup dst with
  | some j => modify fun m => m.addEdge i j (.intra action)
  | none =>
    let j ← obtainNode .intra dst
    modify fun m => m.addEdge i j (.intra action)

/-- Add a call.  Its call site may be new before its return site is looked up. -/
def addCall (kind : MethodKind) (src dst callee : String) (args : List String) :
    Command (Method V) Unit := do
  Command.ask fun m => m.checkCall kind.callSite src dst
  let i ← obtainNode kind.callSite src
  if ((← get).cfg.returnSite? i).isSome then return ()
  let j ← obtainNode .returnSite dst
  modify fun m => m.addEdge i j (.callToReturn (invocationText callee args))

/-- Join a structure into the state at a site, then tell the exploded graph. -/
def addStructure (site : Site) (s : Structure V) : Command (Method V) (Bool × Fact) := do
  let n ← Command.ask fun m => m.node site
  let (changed, f) ← Command.onPart (← get).store (fun store m => { m with store })
    (.atomic fun store => store.addStructure n.state s)
  if changed then
    modify fun m => { m with exploded := (m.exploded.addFact site f).1 }
  return (changed, f)

/-- Add a transition between facts. -/
def addTransition (src : Site) (f : Fact) (dst : Site) (f' : Fact) : Command (Method V) Bool :=
  .atomic fun m => m.addTransition src f dst f'

/-- Hand out the change of the summary since the last time. -/
def updateSummary : Command (Method V) (Option SummaryDelta) :=
  .atomic fun m => .ok m.updateSummary

/-- Show the node with a label in reports. -/
def printNode (label : String) : Command (Method V) Unit :=
  .update fun m => m.printNode label

end Method.InPlace

/-! ## Programs -/

namespace Program.InPlace

variable {V : Vocabulary} {α : Type}

/-- A command on a method of a program. -/
def onMethod (m : MethodId) (c : Command (Method V) α) : Command (Program V) α := do
  let x ← Command.ask fun p => p.method m
  Command.onPart x (fun x p => p.setMethod m x) c

/-- A command on the calls of a program. -/
def onCalls (c : Command CallGraph α) : Command (Program V) α := do
  Command.onPart (← get).calls (fun calls p => { p with calls }) c

/-- Register a method. -/
def addMethod (kind : MethodKind) (signature entry exit : String) :
    Command (Program V) MethodId := do
  Command.ask fun p => p.checkBuilding "method registration"
  let p ← get
  if let some other := p.methods.find? fun m => m.signature == signature then
    throw (.methodRegistered signature other.kind)
  let id := p.methods.length
  let x ← Command.ask fun p => Method.new id signature kind entry exit p.mode
  onCalls (.update fun calls => calls.addMethod id)
  modify fun p => { p with methods := p.methods ++ [x] }
  return id

/-- Choose the method the analysis begins with. -/
def setMain (m : MethodId) : Command (Program V) Unit :=
  .update fun p => p.setMain m

/-- Add a statement to a method. -/
def addIntra (m : MethodId) (src dst : String) (action : ActionInstance) :
    Command (Program V) Unit := do
  Command.ask fun p => p.checkBuilding "intra statement"
  onMethod m (Method.InPlace.addIntra src dst action)
  modify fun p => { p with counters := { p.counters with intra := p.counters.intra + 1 } }

/-- Add a call to a method.  The control flow changes before the call is
registered. -/
def addCall (kind : MethodKind) (caller : MethodId) (args : List String) (src dst : String)
    (callee : MethodId) (callAction retAction guardAction : ActionInstance) :
    Command (Program V) Unit := do
  Command.ask fun p => p.checkBuilding (kind.name ++ " invocation")
  let signature ← Command.ask fun p => p.checkCallee caller callee kind src
  let x ← Command.ask fun p => p.method caller
  Command.ask fun _ => x.checkCall kind.callSite src dst
  Command.ask fun p =>
    if kind = .virtual then p.calls.checkVirtual caller (x.cfg.lookup src) callee
    else p.calls.checkUnique caller (x.cfg.lookup src) callee
  onMethod caller (Method.InPlace.addCall kind src dst signature args)
  let x ← Command.ask fun p => p.method caller
  match x.cfg.lookup src with
  | none => throw (.noSuchLabel src x.signature)
  | some site =>
    onCalls (.update fun calls =>
      registerCall calls kind ⟨caller, site⟩ callee callAction retAction guardAction)
    modify fun p => { p with counters := p.counters.addCall kind }

/-- Join a structure into the state at a site of a method, then tell the
scheduler. -/
def addStructure (m : MethodId) (site : Site) (s : Structure V) :
    Command (Program V) (Bool × Fact) := do
  let x ← Command.ask fun p => p.method m
  let n ← Command.ask fun _ => x.node site
  let (changed, f) ← onMethod m (Method.InPlace.addStructure site s)
  if changed then
    modify fun p => p.emit (newsAt p.calls m site n.kind f)
  return (changed, f)

/-- Add structures at a site one after the other, with the facts that were new
among them. -/
def seed (m : MethodId) (site : Site) :
    List (Structure V) → List Fact → Command (Program V) (List Fact)
  | [], facts => pure facts
  | s :: rest, facts => do
    let (changed, f) ← addStructure m site s
    seed m site rest (if changed && f ∉ facts then facts ++ [f] else facts)

/-- Begin the analysis with structures at the entry of the main method. -/
def start (ss : List (Structure V)) : Command (Program V) (List Fact) := do
  let p ← get
  if !p.started then throw .definitionsOpen
  match p.main with
  | none => throw .noMain
  | some main =>
    let x ← Command.ask fun p => p.method main
    seed main x.entry ss []

/-- Add a transition between facts of a method, then tell the scheduler. -/
def addTransition (m : MethodId) (src : Site) (f : Fact) (dst : Site) (f' : Fact) :
    Command (Program V) Bool := do
  let new ← onMethod m (Method.InPlace.addTransition src f dst f')
  if new then
    modify fun p => p.emit [.transition m src f dst f']
  return new

/-- Hand out the change of a method's summary, then tell the scheduler. -/
def updateSummary (m : MethodId) : Command (Program V) (Option SummaryDelta) := do
  let d ← onMethod m Method.InPlace.updateSummary
  if let some d := d then
    modify fun p => p.emit (d.pairs.map fun q => .ret m q.fst q.snd)
  return d

/-- Record that a call led to entry facts of a callee. -/
def addContext (callee : MethodId) (entries : List Fact) (c : CallFact) (refined : List Fact) :
    Command (Program V) Bool := do
  let _ ← Command.ask fun p => p.method callee
  Command.ask fun p => p.checkCallSite c.point.caller c.point.site
  onCalls (.atomic fun calls => calls.addContext callee entries c refined)

/-- Show the nodes of a method in reports. -/
def printMethod (m : MethodId) : Command (Program V) Unit :=
  onMethod m (modify Method.printAll)

/-- Show the node with a label in reports. -/
def printNode (m : MethodId) (label : String) : Command (Program V) Unit :=
  onMethod m (Method.InPlace.printNode label)

end Program.InPlace

end ShapeAnalysis
