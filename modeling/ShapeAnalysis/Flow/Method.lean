import ShapeAnalysis.Flow.Cfg
import ShapeAnalysis.Flow.Exploded
import ShapeAnalysis.Store.StateStore

/-!
# Methods

A method has a control flow graph, a store with one abstract state for each node
of the graph, and the exploded graph of the facts in these states.  Its nodes
are found by their labels and come into being when they are first mentioned.

A call site has one edge, which leads to its return site.  Only the candidates
of one virtual call share it.
-/

namespace ShapeAnalysis

/-- A method with what is known about it. -/
structure Method (V : Vocabulary) where
  /-- The number of the method. -/
  id : MethodId
  /-- Its signature. -/
  signature : String
  /-- Its kind. -/
  kind : MethodKind
  /-- Its control flow. -/
  cfg : Cfg
  /-- The abstract states of its nodes. -/
  store : StateStore V
  /-- The facts at its nodes. -/
  exploded : ExplodedGraph
  /-- Where it begins. -/
  entry : Site
  /-- Where it ends. -/
  exit : Site

namespace Method

variable {V : Vocabulary}

/-- The method with an entry, an exit and nothing between them. -/
def new (id : MethodId) (signature : String) (kind : MethodKind) (entry exit : String)
    (mode : JoinMode) : Except Error (Method V) :=
  if entry = exit then .error (.entryIsExit signature entry)
  else
    let (store, s₀) := (StateStore.new id mode).allocate
    let (store, s₁) := store.allocate
    let (cfg, i) := ({} : Cfg).addNode { label := entry, kind := .entry, state := s₀ }
    let (cfg, j) := cfg.addNode { label := exit, kind := .exit, state := s₁ }
    .ok { id, signature, kind, cfg, store, exploded := .new i j, entry := i, exit := j }

/-! ## Building the control flow -/

/-- The node at a site. -/
def node (m : Method V) (site : Site) : Except Error FlowNode :=
  match m.cfg.node? site with
  | some n => .ok n
  | none => .error (.foreignSite site m.signature)

/-- A new node with a state of its own. -/
def createNode (m : Method V) (kind : NodeKind) (label : String) : Method V × Site :=
  let (store, state) := m.store.allocate
  let (cfg, i) := m.cfg.addNode { label, kind, state }
  ({ m with store, cfg, exploded := m.exploded.addNode i }, i)

/-- Find the node with a label for use as a kind, or create it.  Entry, exit and
return sites also serve as plain nodes, and a plain node becomes a call site
when a call is found at it. -/
def obtainNode (m : Method V) (kind : NodeKind) (label : String) :
    Except Error (Method V × Site) :=
  match m.cfg.lookup label with
  | none => .ok (m.createNode kind label)
  | some i =>
    match m.node i with
    | .error e => .error e
    | .ok n =>
      if n.kind = kind ∨ (kind = .intra ∧ n.kind.acceptsIntra) then .ok (m, i)
      else if n.kind = .intra ∧ kind.isCall then
        .ok ({ m with cfg := m.cfg.modifyNode i fun n => { n with kind } }, i)
      else .error (.kindConflict label m.signature n.kind kind)

/-- Add an edge to the control flow and to the exploded graph. -/
def addEdge (m : Method V) (src dst : Site) (label : FlowLabel) : Method V :=
  { m with cfg := m.cfg.addEdge src dst label, exploded := m.exploded.addEdge src dst }

/-- Add a statement.  It may end at a node of any kind. -/
def addIntra (m : Method V) (src dst : String) (action : ActionInstance) :
    Except Error (Method V) := do
  let (m, i) ← m.obtainNode .intra src
  let (m, j) ← match m.cfg.lookup dst with
    | some j => pure (m, j)
    | none => m.obtainNode .intra dst
  return m.addEdge i j (.intra action)

/-- Whether a call site of a kind can be given its edge.  It has none yet, or it
is a candidate of the virtual call that the edge is for. -/
def checkEdge (m : Method V) (kind : NodeKind) (src : String) (i : Site) (dst : Option Site) :
    Except Error Unit :=
  match m.cfg.outgoing i with
  | [] => .ok ()
  | [e] =>
    if kind = .virtualCall && e.label.isCallToReturn && some e.dst = dst then .ok ()
    else .error (.callSiteTaken src m.signature)
  | _ => .error (.callSiteTaken src m.signature)

/-- Whether a call from one label that comes back at another can be added. -/
def checkCall (m : Method V) (kind : NodeKind) (src dst : String) : Except Error Unit := do
  if src = dst then throw (.returnsToItself src m.signature)
  let j := m.cfg.lookup dst
  if let some j := j then
    let n ← m.node j
    if n.kind ≠ .returnSite then throw (.kindConflict dst m.signature n.kind .returnSite)
  match m.cfg.lookup src with
  | none => return ()
  | some i =>
    let n ← m.node i
    if n.kind ≠ kind ∧ n.kind ≠ .intra then
      throw (.kindConflict src m.signature n.kind kind)
    m.checkEdge kind src i j

/-- Add a call.  A further candidate of a virtual call changes nothing. -/
def addCall (m : Method V) (kind : MethodKind) (src dst callee : String)
    (args : List String) : Except Error (Method V) := do
  m.checkCall kind.callSite src dst
  let (m, i) ← m.obtainNode kind.callSite src
  if (m.cfg.returnSite? i).isSome then return m
  let (m, j) ← m.obtainNode .returnSite dst
  return m.addEdge i j (.callToReturn (invocationText callee args))

/-- Where the call at a site comes back. -/
def returnNode (m : Method V) (site : Site) : Except Error Site := do
  let n ← m.node site
  if !n.kind.isCall then throw (.notCallSite (n.render ""))
  match m.cfg.returnSite? site with
  | some j => return j
  | none => throw (.noReturnSite n.label)

/-! ## Facts -/

/-- Join a structure into the state at a site.  The exploded graph hears of it
if the state changed. -/
def addStructure (m : Method V) (site : Site) (s : Structure V) :
    Except Error (Method V × Bool × Fact) := do
  let n ← m.node site
  let (store, changed, fact) ← m.store.addStructure n.state s
  let exploded := if changed then (m.exploded.addFact site fact).1 else m.exploded
  return ({ m with store, exploded }, changed, fact)

/-- Add a transition between facts. -/
def addTransition (m : Method V) (src : Site) (f : Fact) (dst : Site) (f' : Fact) :
    Except Error (Method V × Bool) := do
  let (exploded, new) ← m.exploded.addTransition src f dst f'
  return ({ m with exploded }, new)

/-- Hand out the change of the summary since the last time. -/
def updateSummary (m : Method V) : Method V × Option SummaryDelta :=
  let (exploded, d) := m.exploded.delta
  ({ m with exploded }, d)

/-- The fact at a site that covers a structure. -/
def factFor? (m : Method V) (site : Site) (s : Structure V) : Option Fact :=
  (m.cfg.node? site).bind fun n => m.store.factFor? n.state s

/-- The facts at a site with their structures. -/
def structuresAt (m : Method V) (site : Site) : List (Fact × Structure V) :=
  match m.cfg.node? site with
  | some n => m.store.structures n.state
  | none => []

/-- The facts at a site. -/
def factsAt (m : Method V) (site : Site) : List Fact := (m.structuresAt site).map Prod.fst

/-- Every structure, node by node in depth-first order. -/
def allStructures (m : Method V) : List (Structure V) :=
  (m.cfg.dfsOrder m.entry).flatMap fun i => (m.structuresAt i).map Prod.snd

/-- Record messages for a fact. -/
def addMessages (m : Method V) (f : Fact) (ms : Messages V) : Method V :=
  { m with store := m.store.addMessages f ms }

/-! ## Reports -/

/-- Show every node in reports. -/
def printAll (m : Method V) : Method V :=
  { m with cfg := m.cfg.mapNodes fun n => { n with print := true } }

/-- Show every node but the plain ones in reports. -/
def printInterproc (m : Method V) : Method V :=
  { m with cfg := m.cfg.mapNodes fun n => if n.kind = .intra then n else { n with print := true } }

/-- Show the node with a label in reports. -/
def printNode (m : Method V) (label : String) : Except Error (Method V) :=
  match m.cfg.lookup label with
  | some i => .ok { m with cfg := m.cfg.modifyNode i fun n => { n with print := true } }
  | none => .error (.noSuchLabel label m.signature)

/-- The lines of a structure, indented. -/
def structureLines (s : Structure V) : List String :=
  (Text.lines s.render).map ("    " ++ ·)

/-- The lines of a collection of messages, with the structures if wanted. -/
def messageLines (print : Bool) (ms : Messages V) : List String :=
  ms.entries.flatMap fun (s, texts) =>
    texts.map ("  " ++ ·) ++ if print then structureLines s else []

/-- The messages at a site, below a line for its node. -/
def siteMessages (m : Method V) (site : Site) : List String :=
  match m.cfg.node? site with
  | none => []
  | some n =>
    match (m.factsAt site).filterMap m.store.messages? with
    | [] => []
    | collections =>
      n.render (m.signature ++ " ") :: collections.flatMap (messageLines n.print)

/-- The messages of the method, node by node in depth-first order. -/
def renderMessages (m : Method V) : String :=
  Text.unlines ((m.cfg.dfsOrder m.entry).flatMap m.siteMessages)

/-- The structures at a site, if its node is shown. -/
def siteLines (m : Method V) (site : Site) : List String :=
  match m.cfg.node? site with
  | none => []
  | some n =>
    if n.print then
      let structures := m.structuresAt site
      (n.render "" ++ s!" ({structures.length} structures)") ::
        structures.flatMap fun (f, s) => ("  " ++ f.text) :: structureLines s
    else []

/-- The structures at the nodes that are shown. -/
def renderNodes (m : Method V) : String :=
  Text.unlines ((m.cfg.dfsOrder m.entry).flatMap m.siteLines)

end Method

end ShapeAnalysis
