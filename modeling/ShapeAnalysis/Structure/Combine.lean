import ShapeAnalysis.Structure.Basic

/-!
# Combining call and exit

A return is processed on the disjoint union of the structure at the call site
and the structure at the exit of the callee.  The nodes of the call come first.
Predicates without arguments are combined value by value, and a tuple with nodes
from both sides is false.
-/

namespace ShapeAnalysis

namespace Structure

variable {V : Vocabulary}

/-- The entries of the predicates with arguments, nodes renamed. -/
def renamedEntries (s : Structure V) (rename : Node → Node) : List (Atom × Kleene) :=
  (s.values.entries.filter fun e => V.arity e.1.pred ≠ 0).map fun (a, k) => (a.map rename, k)

/-- The disjoint union of a call and an exit structure. -/
def combine (combiner : Kleene → Kleene → Kleene) (call exit : Structure V) : Structure V :=
  let fromCall := fun n => call.nodes.toList.idxOf n
  let fromExit := fun n => call.nodes.size + exit.nodes.toList.idxOf n
  let union : Structure V :=
    newNodes (call.nodes.size + exit.nodes.size) { constraints := call.constraints }
  let filled := { union with
    values := union.values.insertAll
      (call.renamedEntries fromCall ++ exit.renamedEntries fromExit) }
  (V.withArity 0).foldl (fun s p => s.set p [] (combiner (call.value p []) (exit.value p [])))
    filled

end Structure

end ShapeAnalysis
