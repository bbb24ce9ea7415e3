import ShapeAnalysis.Flow.Kind
import ShapeAnalysis.Store.Fact

/-!
# Events

The program does not decide what is processed next.  It tells of every new fact
and transition, and a scheduler that listens queues the work.
-/

namespace ShapeAnalysis

/-- News for the scheduler. -/
inductive Event where
  /-- A fact at a node that is no call site. -/
  | intra (method : MethodId) (site : Site) (fact : Fact)
  /-- A fact at a call site, for one callee. -/
  | call (kind : MethodKind) (caller : MethodId) (site : Site) (fact : Fact) (callee : MethodId)
  /-- A pair of a summary, for the callers. -/
  | ret (method : MethodId) (entry exit : Fact)
  /-- A transition. -/
  | transition (method : MethodId) (src : Site) (srcFact : Fact) (dst : Site) (dstFact : Fact)
deriving DecidableEq, Repr, Inhabited

/-- The word for an event. -/
def Event.name : Event → String
  | intra .. => "intra"
  | call kind .. => kind.name ++ "-call"
  | ret .. => "ret"
  | transition .. => "transition"

end ShapeAnalysis
