import ShapeAnalysis.Config.Basic
import ShapeAnalysis.Structure.Isomorphism

/-!
# Merging

An abstract state merges a candidate into a structure that it holds.  In the
relational mode the structure takes in what is isomorphic to it.  In the
pointwise mode it also joins with a structure whose nodes match its own by
canonical name, if the predicates without arguments agree.
-/

namespace ShapeAnalysis

/-- What merging a candidate into a structure came to. -/
inductive MergeOutcome where
  /-- The candidate cannot be merged. -/
  | unrelated
  /-- The candidate adds nothing. -/
  | subsumed
  /-- The candidate was joined in and values became unknown. -/
  | merged
deriving DecidableEq, Repr, Inhabited

/-- The word for the outcome of a merge. -/
def MergeOutcome.name : MergeOutcome → String
  | unrelated => "unrelated"
  | subsumed => "subsumed"
  | merged => "merged"

namespace Structure

variable {V : Vocabulary}

/-- Whether canonical names are unique in both structures, the same in both, and
the predicates without arguments agree. -/
def namesMatch (s t : Structure V) : Bool :=
  let mine := s.canonicalNames
  let theirs := t.canonicalNames
  decide mine.Nodup && decide theirs.Nodup && s.nodes.size = t.nodes.size &&
    mine.all (theirs.contains ·) && (V.withArity 0).all fun p => s.value p [] = t.value p []

/-- The first of my nodes with the name of one of theirs. -/
def namesake (mine theirs : Naming) (n : Node) : Node :=
  match theirs.lookup n with
  | some name => (mine.withName name).headD n
  | none => n

/-- Join the values of another structure whose nodes were renamed. -/
def joinValues (mine theirs : SortedMap Atom Kleene) : SortedMap Atom Kleene :=
  (mine.keys ++ theirs.keys).foldl (fun m a =>
    m.insert a (((mine.get? a).getD .ff).join ((theirs.get? a).getD .ff))) mine

/-- Join a structure that matches by names. -/
def joinWith (s t : Structure V) : MergeOutcome × Structure V :=
  let mine := s.canonicalNaming
  let theirs := t.canonicalNaming
  let renamed := t.values.entries.map fun (a, k) => (a.map (namesake mine theirs), k)
  let joined := joinValues s.values ((∅ : SortedMap Atom Kleene).insertAll renamed)
  if joined = s.values then (.subsumed, s) else (.merged, { s with values := joined })

/-- Merge a candidate into a structure. -/
def merge (mode : JoinMode) (s t : Structure V) : MergeOutcome × Structure V :=
  match mode with
  | .relational => (if s.isIsomorphic t then .subsumed else .unrelated, s)
  | .pointwise =>
    if s.namesMatch t then s.joinWith t
    else (if s.isIsomorphic t then .subsumed else .unrelated, s)

end Structure

end ShapeAnalysis
