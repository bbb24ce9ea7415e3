import ShapeAnalysis.Structure.Isomorphism

/-!
# Messages

Messages are kept with the focused structure they were reported on.  Structures
that are isomorphic share one list, and lists only grow.
-/

namespace ShapeAnalysis

/-- Message texts by the structure they were reported on. -/
structure Messages (V : Vocabulary) where
  /-- The structures with their texts, oldest first. -/
  entries : List (Structure V × List String) := []

namespace Messages

variable {V : Vocabulary}

instance : Inhabited (Messages V) := ⟨{}⟩

/-- The collection without messages. -/
def empty : Messages V := {}

/-- Append the texts that are not in a list yet. -/
def addTexts (old new : List String) : List String :=
  new.foldl (fun ts t => if ts.contains t then ts else ts ++ [t]) old

/-- Add texts to the first entry with an isomorphic structure, or as a new
entry. -/
def addTo (s : Structure V) (texts : List String) :
    List (Structure V × List String) → List (Structure V × List String)
  | [] => [(s, texts)]
  | (t, ts) :: rest =>
    if t.isIsomorphic s then (t, addTexts ts texts) :: rest
    else (t, ts) :: addTo s texts rest

/-- Record texts for a structure.  No texts leave no trace. -/
def add (m : Messages V) (s : Structure V) (texts : List String) : Messages V :=
  if texts.isEmpty then m else ⟨addTo s texts m.entries⟩

/-- Record everything that another collection holds. -/
def extend (m other : Messages V) : Messages V :=
  other.entries.foldl (fun m e => m.add e.1 e.2) m

/-- Whether there are no messages. -/
def isEmpty (m : Messages V) : Bool := m.entries.isEmpty

/-- The number of structures with messages. -/
def size (m : Messages V) : Nat := m.entries.length

/-- The number of texts. -/
def count (m : Messages V) : Nat := m.entries.foldl (fun n e => n + e.2.length) 0

end Messages

/-- What a listener is told when messages were reported. -/
structure MessageRecord where
  /-- The title of the action. -/
  transformer : String
  /-- The names of the input structures. -/
  inputs : List String
  /-- Where the action ran. -/
  location : String
  /-- The focused structure, rendered. -/
  focused : String
  /-- The texts. -/
  messages : List String
deriving DecidableEq, Repr, Inhabited

end ShapeAnalysis
