/-!
# Repositories

Values addressed by slot.  Slots count from 1, and slot 0 is kept for the value
that is never there.
-/

namespace ShapeAnalysis

/-- Values addressed by slot. -/
structure Repository (α : Type) where
  /-- The number of the repository. -/
  id : Nat
  /-- The values, that of slot 1 first. -/
  items : List α := []

namespace Repository

variable {α : Type}

/-- The repository with a number and no values. -/
def new (id : Nat) : Repository α := { id }

/-- Add a value in the next slot.  Slots have no bound here.  Numbers of 32 bits suffice for
fewer than `2 ^ 32` values. -/
def add (r : Repository α) (x : α) : Repository α × Nat :=
  ({ r with items := r.items ++ [x] }, r.items.length + 1)

/-- The value in a slot. -/
def get? (r : Repository α) : Nat → Option α
  | 0 => none
  | n + 1 => r.items[n]?

/-- Replace the value in a slot that has one. -/
def set (r : Repository α) (slot : Nat) (x : α) : Repository α :=
  match slot with
  | 0 => r
  | n + 1 => { r with items := r.items.set n x }

/-- The values with their slots. -/
def toList (r : Repository α) : List (Nat × α) :=
  r.items.zipIdx.map fun (x, i) => (i + 1, x)

/-- The number of values. -/
def size (r : Repository α) : Nat := r.items.length

end Repository

end ShapeAnalysis
