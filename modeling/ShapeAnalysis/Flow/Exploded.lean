import ShapeAnalysis.Error
import ShapeAnalysis.Flow.DepthFirst
import ShapeAnalysis.Order.SortedMap
import ShapeAnalysis.Order.SortedSet

/-!
# Exploded graphs

The exploded graph of a method has a node for every fact at every site, and an
edge for every transition that was found between facts.  Its *summary* maps each
fact at the source to the facts at the sink that can be reached from it.

The graph hands out the changes of the summary: pairs that are new since the
last time, and old pairs whose exit fact was added again at the sink, which
happens when the structure behind it lost precision.
-/

namespace ShapeAnalysis

/-- The change of a summary. -/
structure SummaryDelta where
  /-- Pairs that were not there before. -/
  added : List FactPair
  /-- Earlier pairs with an exit fact that was added again. -/
  refreshed : List FactPair
deriving DecidableEq, Repr, Inhabited

/-- Every pair that callers have to look at. -/
def SummaryDelta.pairs (d : SummaryDelta) : List FactPair := d.added ++ d.refreshed

/-- A fact at a site. -/
structure FactAt where
  /-- The site. -/
  site : Site
  /-- The fact. -/
  fact : Fact
deriving DecidableEq, Repr, Inhabited

/-- The facts of a method with the transitions between them. -/
structure ExplodedGraph where
  /-- Where the method begins. -/
  source : Site
  /-- Where the method ends. -/
  sink : Site
  /-- The facts of each site, oldest first. -/
  facts : SortedMap Site (List Fact)
  /-- The pairs of sites that an edge joins. -/
  skeleton : List (Site × Site) := []
  /-- The transitions, oldest first. -/
  moves : List (FactAt × FactAt) := []
  /-- The summary when it was last computed. -/
  summary : SortedMap Fact (SortedSet Fact) := ∅
  /-- Whether facts or transitions came in since then. -/
  stale : Bool := false
  /-- The pairs handed out so far. -/
  known : SortedSet FactPair := ∅
  /-- The facts added again at the sink since changes were last handed out. -/
  readded : SortedSet Fact := ∅

namespace ExplodedGraph

/-- Make room for the facts of a site. -/
def addNode (g : ExplodedGraph) (n : Site) : ExplodedGraph :=
  { g with facts := g.facts.alter n [] id }

/-- The graph with a source, a sink and no facts. -/
def new (source sink : Site) : ExplodedGraph :=
  ((({ source, sink, facts := ∅ } : ExplodedGraph).addNode source)).addNode sink

instance : Inhabited ExplodedGraph := ⟨new 0 1⟩

/-- Join two sites by an edge. -/
def addEdge (g : ExplodedGraph) (src dst : Site) : ExplodedGraph :=
  let g := (g.addNode src).addNode dst
  if (src, dst) ∈ g.skeleton then g else { g with skeleton := g.skeleton ++ [(src, dst)] }

/-- Whether an edge joins two sites. -/
def hasEdge (g : ExplodedGraph) (src dst : Site) : Bool := (src, dst) ∈ g.skeleton

/-- The facts at a site, oldest first. -/
def factsAt (g : ExplodedGraph) (n : Site) : List Fact := (g.facts.get? n).getD []

/-- Whether a fact is known at a site. -/
def hasFact (g : ExplodedGraph) (n : Site) (f : Fact) : Bool := f ∈ g.factsAt n

/-- Add a fact at a site.  The answer says whether it is new there.  A fact that
is added again at the sink is remembered. -/
def addFact (g : ExplodedGraph) (n : Site) (f : Fact) : ExplodedGraph × Bool :=
  if g.hasFact n f then
    (if n = g.sink then { g with readded := g.readded.insert f } else g, false)
  else ({ g with facts := g.facts.alter n [] (· ++ [f]), stale := true }, true)

/-- Add a transition along an edge between known facts.  The answer says whether
it is new. -/
def addTransition (g : ExplodedGraph) (src : Site) (f : Fact) (dst : Site) (f' : Fact) :
    Except Error (ExplodedGraph × Bool) :=
  if !g.hasEdge src dst then .error (.noEdge src dst)
  else if !g.hasFact src f || !g.hasFact dst f' then .error (.unknownFacts f f')
  else
    let move : FactAt × FactAt := (⟨src, f⟩, ⟨dst, f'⟩)
    if move ∈ g.moves then .ok (g, false)
    else .ok ({ g with moves := g.moves ++ [move], stale := true }, true)

/-- Where the transitions from a fact lead, oldest first. -/
def targets (g : ExplodedGraph) (x : FactAt) : List FactAt :=
  g.moves.filterMap fun m => if m.1 = x then some m.2 else none

/-- The transitions between two sites, by the order of the facts they start
from. -/
def transitions (g : ExplodedGraph) (src dst : Site) : List FactPair :=
  (g.factsAt src).flatMap fun f =>
    ((g.targets ⟨src, f⟩).filter (·.site = dst)).map fun y => ⟨f, y.fact⟩

/-- The facts at a site from which no transition leads on. -/
def stuck (g : ExplodedGraph) (n : Site) : List Fact :=
  (g.factsAt n).filter fun f => (g.targets ⟨n, f⟩).isEmpty

/-- The facts at the sink that are in a list. -/
def exitsAmong (g : ExplodedGraph) (found : List FactAt) : SortedSet Fact :=
  SortedSet.ofList <| found.filterMap fun x => if x.site = g.sink then some x.fact else none

/-- The facts at the sink that a fact at the source leads to. -/
def exitsOf (g : ExplodedGraph) (entry : Fact) : SortedSet Fact :=
  g.exitsAmong (searchOrder g.targets g.moves.length ⟨g.source, entry⟩)

/-- Compute the summary unless it is still right. -/
def refresh (g : ExplodedGraph) : ExplodedGraph :=
  if g.stale then
    { g with
      summary := (∅ : SortedMap Fact (SortedSet Fact)).insertAll
        ((g.factsAt g.source).map fun f => (f, g.exitsOf f))
      stale := false }
  else g

/-- The pairs of the summary as it was last computed. -/
def summaryPairs (g : ExplodedGraph) : SortedSet FactPair :=
  SortedSet.ofList <|
    g.summary.entries.flatMap fun (entry, exits) => exits.toList.map fun exit => ⟨entry, exit⟩

/-- Hand out the change of the summary since the last time, if there is one. -/
def delta (g : ExplodedGraph) : ExplodedGraph × Option SummaryDelta :=
  let g := g.refresh
  let current := g.summaryPairs
  let d : SummaryDelta :=
    { added := current.toList.filter fun p => p ∉ g.known
      refreshed := g.known.toList.filter fun p => p.snd ∈ g.readded }
  ({ g with known := current, readded := ∅ }, if d.pairs.isEmpty then none else some d)

/-- The exit facts of an entry fact when the summary was last computed. -/
def cachedExits (g : ExplodedGraph) (entry : Fact) : List Fact :=
  ((g.summary.get? entry).map (·.toList)).getD []

end ExplodedGraph

end ShapeAnalysis
