import ShapeAnalysis.Formula.Assignment
import ShapeAnalysis.Order.BinarySearch

/-!
# Vectors of bindings

An assignment changed in place is a vector of bindings.  Each operation searches the
vector for its variable and then works at the place that was found.  Nothing in the type
says that the vector is sorted: that it is, and that the operations do what those of
`Assignment` do, is a matter of proof.
-/

namespace ShapeAnalysis

/-- The bindings of an assignment, in the order in which they are kept. -/
structure Bindings where
  /-- The bindings. -/
  entries : List (Var × Node)
deriving DecidableEq, Repr

namespace Bindings

/-- The vector without bindings. -/
def empty : Bindings := ⟨[]⟩

/-- The place of a variable. -/
def place (b : Bindings) (v : Var) : Place b.entries.length :=
  Place.search (fun e => compare e.1 v) b.entries

/-- The node a variable is bound to. -/
def get? (b : Bindings) (v : Var) : Option Node :=
  match b.place v with
  | .taken i => some b.entries[i].2
  | .free _ => none

/-- Bind a variable.  A binding that is there gets the new node. -/
def bind (b : Bindings) (v : Var) (n : Node) : Bindings :=
  match b.place v with
  | .taken i => ⟨b.entries.set i (b.entries[i].1, n)⟩
  | .free i => ⟨b.entries.insertIdx i (v, n)⟩

/-- Take the binding of a variable out, if there is one. -/
def unbind (b : Bindings) (v : Var) : Bindings :=
  match b.place v with
  | .taken i => ⟨b.entries.eraseIdx i⟩
  | .free _ => b

/-- The nodes of a list of variables, `none` if one of them is unbound. -/
def tuple? (b : Bindings) (vars : List Var) : Option (List Node) := vars.mapM b.get?

end Bindings

end ShapeAnalysis
