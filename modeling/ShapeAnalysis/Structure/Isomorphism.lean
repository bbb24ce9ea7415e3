import ShapeAnalysis.Structure.Canonical

/-!
# Isomorphism

Two structures are isomorphic when a bijection of their nodes keeps every value.
The search maps nodes one by one to nodes with the same values at the unary
predicates, drops a choice as soon as a binary predicate disagrees on the nodes
mapped so far, and compares the predicates of two or more places at the end.
Nodes with the same values at the unary predicates are mapped one after another,
which does not change the answer but keeps the search short on structures whose
nodes are mostly told apart by them.
-/

namespace ShapeAnalysis

namespace Structure

variable {V : Vocabulary}

/-- The nodes with their signatures, the values of every unary predicate. -/
def signatures (s : Structure V) : Naming := s.naming (V.withArity 1)

/-- Signatures compare along the truth order, from the first predicate to the
last. -/
def signatureLe (g h : List Kleene) : Bool :=
  (compare (g.map Kleene.toNat) (h.map Kleene.toNat)).isLE

/-- The predicates of two or more places. -/
def relations (V : Vocabulary) : List PredId := V.ids.filter fun p => V.arity p ≥ 2

/-- The node that a list of pairs maps a node to. -/
def image (pairs : List (Node × Node)) (n : Node) : Node :=
  ((pairs.find? fun e => e.1 = n).map Prod.snd).getD n

/-- Whether the binary predicates agree between a new pair and those before. -/
def pairAgrees (s t : Structure V) (pairs : List (Node × Node)) (a b : Node) : Bool :=
  (V.withArity 2).all fun p =>
    pairs.all fun (x, y) =>
      s.value p [a, x] = t.value p [b, y] && s.value p [x, a] = t.value p [y, b]

/-- Whether every entry of the relations has its value at the image too. -/
def relationsAgree (s t : Structure V) (pairs : List (Node × Node)) : Bool :=
  (relations V).all fun p =>
    (s.entries p).all fun (args, k) => t.value p (args.map (image pairs)) = k

/-- Search for images of the nodes that are left, each with its candidates. -/
def extendMapping (s t : Structure V) :
    List (Node × List Node) → List (Node × Node) → Bool
  | [], pairs => s.relationsAgree t pairs
  | (a, candidates) :: rest, pairs =>
    candidates.any fun b =>
      !(pairs.any fun e => e.2 = b) && s.pairAgrees t ((a, b) :: pairs) a b &&
        extendMapping s t rest ((a, b) :: pairs)
termination_by structural rest => rest

/-- Whether the numbers of nodes and of entries agree, and the predicates
without arguments. -/
def sameCounts (s t : Structure V) : Bool :=
  s.nodes.size = t.nodes.size &&
    V.ids.all fun p =>
      (s.entries p).length = (t.entries p).length &&
        (V.arity p ≠ 0 || s.value p [] = t.value p [])

/-- Whether a bijection of the nodes keeps every value. -/
def isIsomorphic (s t : Structure V) : Bool :=
  let mine := s.signatures
  let theirs := t.signatures
  s.sameCounts t &&
    mine.names.all (fun g => mine.names.count g = theirs.names.count g) &&
    s.extendMapping t
      ((mine.mergeSort fun a b => signatureLe a.2 b.2).map fun (n, g) => (n, theirs.withName g)) []

end Structure

end ShapeAnalysis
