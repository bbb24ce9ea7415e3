import ShapeAnalysis.Action.Definition
import ShapeAnalysis.Flow.DepthFirst

/-!
# Control flow graphs

The control flow of one method is a graph with labelled nodes.  Two nodes may be
joined by several edges.  An edge is a statement, or leads from a call site to
its return site.  Nodes are numbered in the order in which they were added, and
edges keep theirs.
-/

namespace ShapeAnalysis

/-! ## Nodes -/

/-- A node of a control flow graph. -/
structure FlowNode where
  /-- The label, unique in its graph. -/
  label : String
  /-- The kind of the node. -/
  kind : NodeKind
  /-- The abstract state at the node. -/
  state : Nat
  /-- Whether its structures are shown in reports. -/
  print : Bool := false
deriving DecidableEq, Repr, Inhabited

namespace FlowNode

/-- Turn a plain node into a call site.  Only a plain node can become one. -/
def specialize (n : FlowNode) (kind : NodeKind) : Except Error FlowNode :=
  if n.kind = .intra ∧ kind.isCall then .ok { n with kind }
  else .error (.notSpecializable n.label n.kind kind)

/-- The kind and the label of a node, after a lead. -/
def render (n : FlowNode) (lead : String) : String := lead ++ n.kind.name ++ ": " ++ n.label

end FlowNode

/-! ## Edges -/

/-- What an edge of a control flow graph stands for. -/
inductive FlowLabel where
  /-- A statement. -/
  | intra (action : ActionInstance)
  /-- From a call site to its return site. -/
  | callToReturn (invocation : String)
deriving DecidableEq, Repr, Inhabited

namespace FlowLabel

/-- Whether the edge passes over a call. -/
def isCallToReturn : FlowLabel → Bool
  | intra _ => false
  | callToReturn _ => true

/-- The action of a statement. -/
def action? : FlowLabel → Option ActionInstance
  | intra action => some action
  | callToReturn _ => none

/-- The text of an edge. -/
def text : FlowLabel → String
  | intra i => i.action.title
  | callToReturn invocation => invocation

end FlowLabel

/-- The text of a call. -/
def invocationText (callee : String) (args : List String) : String :=
  callee ++ "(" ++ ", ".intercalate args ++ ")"

/-- An edge of a control flow graph. -/
structure FlowEdge where
  /-- Where it begins. -/
  src : Site
  /-- Where it ends. -/
  dst : Site
  /-- What it stands for. -/
  label : FlowLabel
deriving DecidableEq, Repr, Inhabited

/-! ## Graphs -/

/-- A control flow graph. -/
structure Cfg where
  /-- The nodes, by number. -/
  nodes : List FlowNode := []
  /-- The edges, oldest first. -/
  edges : List FlowEdge := []
deriving DecidableEq, Repr, Inhabited

namespace Cfg

/-- Add a node. -/
def addNode (g : Cfg) (n : FlowNode) : Cfg × Site :=
  ({ g with nodes := g.nodes ++ [n] }, g.nodes.length)

/-- Add an edge. -/
def addEdge (g : Cfg) (src dst : Site) (label : FlowLabel) : Cfg :=
  { g with edges := g.edges ++ [⟨src, dst, label⟩] }

/-- The node with a label. -/
def lookup (g : Cfg) (label : String) : Option Site := g.nodes.findIdx? fun n => n.label == label

/-- The node with a number. -/
def node? (g : Cfg) (i : Site) : Option FlowNode := g.nodes[i]?

/-- Change a node. -/
def modifyNode (g : Cfg) (i : Site) (f : FlowNode → FlowNode) : Cfg :=
  { g with nodes := g.nodes.modify i f }

/-- Change every node. -/
def mapNodes (g : Cfg) (f : FlowNode → FlowNode) : Cfg := { g with nodes := g.nodes.map f }

/-- Whether an edge joins two nodes. -/
def hasEdge (g : Cfg) (src dst : Site) : Bool :=
  g.edges.any fun e => e.src = src && e.dst = dst

/-- The edges that leave a node, oldest first. -/
def outgoing (g : Cfg) (src : Site) : List FlowEdge := g.edges.filter fun e => e.src = src

/-- The successors of a node, each once. -/
def successors (g : Cfg) (src : Site) : List Site := ((g.outgoing src).map (·.dst)).eraseDups

/-- Where the call at a node comes back. -/
def returnSite? (g : Cfg) (src : Site) : Option Site :=
  ((g.outgoing src).find? (·.label.isCallToReturn)).map (·.dst)

/-- The successors of a node, one for each edge. -/
def targets (g : Cfg) (src : Site) : List Site := (g.outgoing src).map (·.dst)

/-- An order of some nodes, then the other nodes by number. -/
def completed (g : Cfg) (order : List Site) : List Site :=
  order ++ (List.range g.nodes.length).filter fun i => i ∉ order

/-- Every node: those reachable from a start in the order of a depth-first
search, then the others by number. -/
def dfsOrder (g : Cfg) (start : Site) : List Site :=
  g.completed <|
    if start < g.nodes.length then searchOrder g.targets g.edges.length start else []

end Cfg

end ShapeAnalysis
