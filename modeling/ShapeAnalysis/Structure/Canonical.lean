import ShapeAnalysis.Structure.Basic

/-!
# Canonical names and blur

The canonical name of a node lists its values at the abstraction predicates.
Blur merges the nodes that share a name into the smallest of them.  An atom of
the result joins the values of the atoms that are merged into it, and where more
than one node was merged `sm` becomes unknown.

Only values that are not false are stored, so the false ones are seen by counting: they
are there when fewer values are found than atoms are merged.  The second number is a word
of 64 bits and wraps.
-/

namespace ShapeAnalysis

/-! ## Namings -/

/-- Nodes with names, in node order. -/
abbrev Naming := List (Node × List Kleene)

namespace Naming

/-- The names. -/
def names (l : Naming) : List (List Kleene) := l.map Prod.snd

/-- The nodes with a given name. -/
def withName (l : Naming) (name : List Kleene) : List Node :=
  (l.filter (·.2 = name)).map Prod.fst

/-- The nodes with the name of a node. -/
def group (l : Naming) (n : Node) : List Node :=
  match l.lookup n with
  | some name => l.withName name
  | none => []

/-- The node that a group merges into, its first. -/
def representative (l : Naming) (n : Node) : Node :=
  match l.lookup n with
  | some name => ((l.find? (·.2 = name)).map Prod.fst).getD n
  | none => n

/-- How many nodes share the name of a node. -/
def groupSize (l : Naming) (n : Node) : Nat := (l.group n).length

end Naming

/-! ## Blur -/

namespace Structure

variable {V : Vocabulary}

/-- The values of unary predicates on a node. -/
def profile (s : Structure V) (ps : List PredId) (n : Node) : List Kleene :=
  ps.map fun p => s.value p [n]

/-- The nodes with their values at unary predicates. -/
def naming (s : Structure V) (ps : List PredId) : Naming :=
  s.nodes.toList.map fun n => (n, s.profile ps n)

/-- A naming finds the values of each node. -/
theorem lookup_naming {s : Structure V} {ps : List PredId} {n : Node} (h : n ∈ s.nodes.toList) :
    (s.naming ps).lookup n = some (s.profile ps n) := by
  unfold naming
  generalize s.nodes.toList = nodes at h
  induction nodes with
  | nil => simp at h
  | cons m rest ih =>
    by_cases hm : n = m
    · simp [hm]
    · simp only [List.map_cons, List.lookup_cons, beq_eq_false_iff_ne.2 hm]
      exact ih ((List.mem_cons.1 h).resolve_left hm)

theorem names_naming (s : Structure V) (ps : List PredId) :
    (s.naming ps).names = s.nodes.toList.map (s.profile ps) := by
  simp [Naming.names, naming]

/-- The nodes with their canonical names. -/
def canonicalNaming (s : Structure V) : Naming := s.naming V.abstraction

/-- The canonical names of the nodes, in node order. -/
def canonicalNames (s : Structure V) : List (List Kleene) := s.canonicalNaming.names

/-- Count an atom's value towards the atom it is merged into. -/
def gather (rep : Node → Node) (m : SortedMap Atom (Kleene × Nat)) (e : Atom × Kleene) :
    SortedMap Atom (Kleene × Nat) :=
  let a := e.1.map rep
  match m.get? a with
  | none => m.insert a (e.2, 1)
  | some (k, n) => m.insert a (k.join e.2, n + 1)

/-- The number of atoms that are merged into an atom, as a machine word: the product of the
sizes of its groups wraps. -/
def coverage (size : Node → Nat) (a : Atom) : UInt64 :=
  (a.args.map fun n => UInt64.ofNat (size n)).foldl (· * ·) 1

/-- The values after merging.  Where fewer values were gathered than atoms are
merged, the others were false. -/
def mergedValues (rep : Node → Node) (size : Node → Nat) (values : SortedMap Atom Kleene) :
    SortedMap Atom Kleene :=
  (values.entries.foldl (gather rep) ∅).entries.foldl (fun m (a, k, n) =>
    let k := if n < (coverage size a).toNat then k.join .ff else k
    if k = .ff then m else m.insert a k) ∅

/-- Merge the nodes that share a canonical name. -/
def blur (s : Structure V) : Structure V :=
  let l := s.canonicalNaming
  if l.names.Nodup then s
  else
    let merged : Structure V :=
      { s with
        nodes := s.nodes.filter fun n => l.representative n = n
        values := mergedValues l.representative l.groupSize s.values }
    merged.nodes.toList.foldl (fun t n =>
      if l.groupSize n > 1 then t.set Vocabulary.sm [n] .unknown else t) merged

end Structure

end ShapeAnalysis
