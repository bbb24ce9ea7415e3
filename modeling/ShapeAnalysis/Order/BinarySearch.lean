/-!
# Binary search

A vector whose entries are in order is searched by halving.  What is looked for is
given by the side on which it has each entry: the entries before it are `.lt`, the one
that is meant is `.eq`, and those after it are `.gt`.

The outcome is a place of the vector that was searched.  So what is read, written, put
in or taken out there is within its bounds.
-/

namespace ShapeAnalysis

/-- The outcome of a search in a vector of some length. -/
inductive Place (length : Nat) where
  /-- The entry that is meant stands at an index. -/
  | taken (i : Fin length)
  /-- The entry is missing and belongs before the one at an index, or at the end. -/
  | free (i : Fin (length + 1))
deriving DecidableEq, Repr

namespace Place

variable {α : Type} (side : α → Ordering) (xs : List α)

/-- Search the entries from the index `lo` up to, but not at, the index `hi`. -/
def searchBetween (lo hi : Nat) (hlo : lo ≤ hi) (hhi : hi ≤ xs.length) : Place xs.length :=
  if h : lo < hi then
    let mid := lo + (hi - lo) / 2
    have hmid : mid < xs.length := by omega
    match side xs[mid] with
    | .lt => searchBetween (mid + 1) hi (by omega) hhi
    | .eq => .taken ⟨mid, hmid⟩
    | .gt => searchBetween lo mid (by omega) (by omega)
  else .free ⟨lo, by omega⟩
termination_by hi - lo

/-- Search a vector. -/
def search : Place xs.length :=
  searchBetween side xs 0 xs.length (Nat.zero_le _) (Nat.le_refl _)

end Place

end ShapeAnalysis
