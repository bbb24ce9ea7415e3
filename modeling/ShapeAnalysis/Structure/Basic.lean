import ShapeAnalysis.Formula.Assignment
import ShapeAnalysis.Formula.Constraint
import ShapeAnalysis.Order.SortedMap
import ShapeAnalysis.Order.SortedSet

/-!
# Three-valued structures

A structure has a finite set of nodes and gives a Kleene value to every
predicate at every tuple of nodes.  It is stored sparsely, as a map from *ground
atoms* to values.  An atom without an entry is false.  A node is a *summary
node* when the reserved predicate `sm` is unknown on it, and then it may stand
for several nodes.

The vocabulary is a parameter of the type, so structures over different
vocabularies do not meet.
-/

namespace ShapeAnalysis

/-! ## Ground atoms -/

/-- A predicate at a tuple of nodes. -/
structure Atom where
  /-- The predicate. -/
  pred : PredId
  /-- The nodes. -/
  args : List Node
deriving DecidableEq, Repr, Inhabited

namespace Atom

/-- Node lists compare from left to right, and where one ends it comes first. -/
def compareArgs : List Node → List Node → Ordering
  | [], [] => .eq
  | [], _ :: _ => .lt
  | _ :: _, [] => .gt
  | m :: ms, n :: ns => if m < n then .lt else if m = n then compareArgs ms ns else .gt

theorem compareArgs_eq (ms ns : List Node) : compareArgs ms ns = compare ms ns := by
  fun_induction compareArgs ms ns with
  | case1 => rfl
  | case2 => rfl
  | case3 => rfl
  | case4 m ms n ns h => simp [List.compare_cons_cons, Nat.compare_eq_lt.2 h]
  | case5 m ms ns h ih => simp [List.compare_cons_cons, ih]
  | case6 m ms n ns h₁ h₂ =>
    have hgt : compare m n = .gt :=
      Nat.compare_eq_gt.2 (Nat.lt_of_le_of_ne (Nat.le_of_not_lt h₁) (Ne.symm h₂))
    simp [List.compare_cons_cons, hgt]

/-- Atoms compare by predicate, then by their nodes from left to right. -/
instance : Ord Atom := ⟨fun a b =>
  if a.pred < b.pred then .lt
  else if a.pred = b.pred then compareArgs a.args b.args else .gt⟩

theorem compare_eq_compareLex :
    (compare : Atom → Atom → Ordering) = compareLex (compareOn pred) (compareOn args) := by
  funext a b
  simp only [compare, compareLex, compareOn, compareOfLessAndEq]
  split
  · rfl
  · split
    · exact compareArgs_eq _ _
    · rfl

instance : Std.TransOrd Atom := by
  unfold Std.TransOrd
  rw [compare_eq_compareLex]
  infer_instance

instance : Std.LawfulEqOrd Atom where
  eq_of_compare := @fun a b h => by
    rw [compare_eq_compareLex] at h
    obtain ⟨h₁, h₂⟩ := compareLex_eq_eq.1 h
    cases a; cases b
    simp_all [compareOn]

/-- The atom with every node replaced. -/
def map (f : Node → Node) (a : Atom) : Atom := ⟨a.pred, a.args.map f⟩

end Atom

/-! ## Structures -/

/-- A three-valued structure over a vocabulary. -/
structure Structure (V : Vocabulary) where
  /-- The integrity constraints the structure has to satisfy. -/
  constraints : List Constraint := []
  /-- The nodes. -/
  nodes : SortedSet Node := ∅
  /-- The name of the next new node. -/
  nextNode : Nat := 0
  /-- The values that are not false. -/
  values : SortedMap Atom Kleene := ∅

namespace Structure

variable {V : Vocabulary}

instance : Inhabited (Structure V) := ⟨{}⟩

/-- Two structures have the same contents when they have the same nodes and
values.  Constraints and the supply of names do not count. -/
def sameContents (s t : Structure V) : Bool := s.nodes = t.nodes && s.values = t.values

/-- The value of a predicate at a tuple. -/
def value (s : Structure V) (p : PredId) (t : List Node) : Kleene :=
  (s.values.get? ⟨p, t⟩).getD .ff

/-- Set the value of a predicate at a tuple. -/
def set (s : Structure V) (p : PredId) (t : List Node) (k : Kleene) : Structure V :=
  { s with values := if k = .ff then s.values.erase ⟨p, t⟩ else s.values.insert ⟨p, t⟩ k }

/-- The entries of a predicate, in the order of the tuples. -/
def entries (s : Structure V) (p : PredId) : List (List Node × Kleene) :=
  s.values.entries.filterMap fun (a, k) => if a.pred = p then some (a.args, k) else none

/-- Whether a node stands for possibly several. -/
def isSummary (s : Structure V) (n : Node) : Bool := s.value Vocabulary.sm [n] = .unknown

/-- The summary nodes. -/
def summaries (s : Structure V) : List Node := s.nodes.toList.filter s.isSummary

/-- Add a new node, on which every predicate is false.  Names never run out here.  A counter of
32 bits gives the same ones until `2 ^ 32` nodes were added. -/
def newNode (s : Structure V) : Structure V × Node :=
  ({ s with nodes := s.nodes.insert s.nextNode, nextNode := s.nextNode + 1 }, s.nextNode)

/-- Add a number of new nodes. -/
def newNodes : Nat → Structure V → Structure V
  | 0, s => s
  | n + 1, s => newNodes n s.newNode.1

/-- Remove a node with every tuple that mentions it. -/
def removeNode (s : Structure V) (n : Node) : Structure V :=
  if n ∈ s.nodes then
    { s with
      nodes := s.nodes.filter (· ≠ n)
      values := s.values.filter fun a _ => n ∉ a.args }
  else s

/-- Remove every node on which a unary predicate is true. -/
def filterNodes (s : Structure V) (p : PredId) : Structure V :=
  (s.nodes.toList.filter fun n => s.value p [n] = .tt).foldl removeNode s

/-- Set a unary predicate on every node. -/
def setAll (s : Structure V) (p : PredId) (k : Kleene) : Structure V :=
  s.nodes.toList.foldl (fun s n => s.set p [n] k) s

/-- The tuples got by putting `c` in the place of some occurrences of `u`. -/
def variants (u c : Node) : List Node → List (List Node)
  | [] => [[]]
  | n :: rest =>
    (variants u c rest).flatMap fun t => if n = u then [n :: t, c :: t] else [n :: t]

/-- Copy a node.  Every tuple that mentions it is repeated with the copy in the
place of some of its occurrences, however many there are. -/
def duplicateNode (s : Structure V) (u : Node) : Structure V × Node :=
  let (s', c) := s.newNode
  let copies := s.values.entries.flatMap fun (a, k) =>
    (variants u c a.args).map fun t => (⟨a.pred, t⟩, k)
  ({ s' with values := s'.values.insertAll copies }, c)

/-! ### Copying with masks -/

/-- The places of a tuple at which a node stands. -/
def placesOf (u : Node) (t : List Node) : List Nat :=
  (t.zipIdx.filter fun e => e.1 = u).map Prod.snd

/-- The masks that choose at least one of a number of places. -/
def masks (k : Nat) : List UInt32 :=
  (List.range' 1 (((1 : UInt32) <<< UInt32.ofNat k).toNat - 1)).map UInt32.ofNat

/-- Put `c` at the places whose bit is set in a mask. -/
def substitute (c : Node) (places : List Nat) (mask : UInt32) (t : List Node) : List Node :=
  places.zipIdx.foldl
    (fun t e => if mask &&& ((1 : UInt32) <<< UInt32.ofNat e.2) ≠ 0 then t.set e.1 c else t) t

/-- The tuples got by putting `c` in the place of at least one occurrence of `u`, one for
each mask. -/
def maskedVariants (u c : Node) (t : List Node) : List (List Node) :=
  (masks (placesOf u t).length).map fun mask => substitute c (placesOf u t) mask t

/-- The entries of a predicate that mention a node, with `c` in the place of some of its
occurrences. -/
def additions (s : Structure V) (u c : Node) (p : PredId) : List (Atom × Kleene) :=
  (s.entries p).flatMap fun e => (maskedVariants u c e.1).map fun t => (⟨p, t⟩, e.2)

/-- Add the entries of a predicate with a copied node. -/
def copyEntries (u c : Node) (s : Structure V) (p : PredId) : Structure V :=
  { s with values := s.values.insertAll (s.additions u c p) }

/-- Copy a node, one predicate after the other, with 32-bit masks for the occurrences that
are replaced.  A tuple that mentions it more than 31 times is not repeated in every way. -/
def duplicateByMasks (s : Structure V) (u : Node) : Structure V × Node :=
  let (s', c) := s.newNode
  (V.ids.foldl (copyEntries u c) s', c)

/-- The atoms whose value is unknown. -/
def unknownAtoms (s : Structure V) : List Atom :=
  s.values.entries.filterMap fun (a, k) => if k = .unknown then some a else none

/-- Every tuple of a given length, in lexicographic order. -/
def tuples (nodes : List Node) : Nat → List (List Node)
  | 0 => [[]]
  | n + 1 => nodes.flatMap fun u => (tuples nodes n).map (u :: ·)

/-! ## Text -/

/-- The text of an entry. -/
def entryText (e : List Node × Kleene) : String :=
  let names := e.1.map Node.text
  match names with
  | [n] => " " ++ n ++ "=" ++ e.2.text
  | _ => " (" ++ ",".intercalate names ++ ")=" ++ e.2.text

/-- The line of a predicate.  `sm` shows as stars on the nodes, and a predicate
without entries does not show. -/
def predicateLine (s : Structure V) (p : PredId) : String :=
  let es := s.entries p
  match es with
  | [] => ""
  | e :: _ =>
    if p = Vocabulary.sm then ""
    else if V.arity p = 0 then V.name p ++ " = " ++ e.2.text ++ "\n"
    else V.name p ++ ":" ++ String.join (es.map entryText) ++ "\n"

/-- The text of a structure: its nodes, then a line for each predicate. -/
def render (s : Structure V) : String :=
  let nodes := s.nodes.toList.map fun n => " " ++ n.text ++ (if s.isSummary n then "*" else "")
  "nodes:" ++ String.join nodes ++ "\n" ++ String.join (V.ids.map s.predicateLine)

end Structure

end ShapeAnalysis
