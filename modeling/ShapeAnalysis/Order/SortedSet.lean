/-!
# Sorted sets

A finite set kept as a strictly increasing list.  Listings go through the list,
so a set is always shown in order.
-/

namespace ShapeAnalysis

open Std (TransOrd OrientedCmp TransCmp)

/-- A finite set of `α`, in order. -/
structure SortedSet (α : Type) [Ord α] where
  /-- The members, smallest first. -/
  toList : List α
  /-- Members strictly increase along the list. -/
  sorted : toList.Pairwise fun a b => compare a b = .lt

namespace SortedSet

variable {α : Type} [Ord α]

/-- Put `x` into a sorted list, once. -/
def insertItem (x : α) : List α → List α
  | [] => [x]
  | y :: rest =>
    match compare x y with
    | .lt => x :: y :: rest
    | .eq => y :: rest
    | .gt => y :: insertItem x rest

/-- Every member after an insertion is the inserted one or was there before. -/
theorem eq_or_mem_of_mem_insertItem {x : α} {xs : List α} {y : α}
    (h : y ∈ insertItem x xs) : y = x ∨ y ∈ xs := by
  induction xs with
  | nil => simp_all [insertItem]
  | cons z rest ih =>
    simp only [insertItem] at h
    split at h
    · exact List.mem_cons.1 h
    · exact .inr h
    · rcases List.mem_cons.1 h with rfl | h
      · exact .inr List.mem_cons_self
      · exact (ih h).imp id (List.mem_cons_of_mem _)

/-- Insertion keeps the list strictly increasing. -/
theorem pairwise_insertItem [TransOrd α] {x : α} {xs : List α}
    (h : xs.Pairwise fun a b => compare a b = .lt) :
    (insertItem x xs).Pairwise fun a b => compare a b = .lt := by
  induction xs with
  | nil => simp [insertItem]
  | cons y rest ih =>
    obtain ⟨hy, hrest⟩ := List.pairwise_cons.1 h
    simp only [insertItem]
    split
    · rename_i hlt
      refine List.pairwise_cons.2 ⟨fun z hz => ?_, h⟩
      rcases List.mem_cons.1 hz with rfl | hz
      · exact hlt
      · exact TransCmp.lt_trans hlt (hy z hz)
    · exact h
    · rename_i hgt
      refine List.pairwise_cons.2 ⟨fun z hz => ?_, ih hrest⟩
      rcases eq_or_mem_of_mem_insertItem hz with rfl | hz
      · exact OrientedCmp.lt_of_gt hgt
      · exact hy z hz

/-- The set without members. -/
def empty : SortedSet α := ⟨[], .nil⟩

instance : EmptyCollection (SortedSet α) := ⟨empty⟩
instance : Inhabited (SortedSet α) := ⟨empty⟩
instance : Membership α (SortedSet α) := ⟨fun s x => x ∈ s.toList⟩

instance [DecidableEq α] (x : α) (s : SortedSet α) : Decidable (x ∈ s) :=
  inferInstanceAs (Decidable (x ∈ s.toList))

instance [DecidableEq α] : DecidableEq (SortedSet α)
  | ⟨xs, _⟩, ⟨ys, _⟩ =>
    if h : xs = ys then isTrue (by subst h; rfl) else isFalse (by intro e; exact h (by injection e))

/-- Put `x` into the set. -/
def insert [TransOrd α] (s : SortedSet α) (x : α) : SortedSet α :=
  ⟨insertItem x s.toList, pairwise_insertItem s.sorted⟩

/-- Keep the members that pass a test. -/
def filter (s : SortedSet α) (p : α → Bool) : SortedSet α :=
  ⟨s.toList.filter p, s.sorted.filter _⟩

/-- The members of a list, each once and in order. -/
def ofList [TransOrd α] (xs : List α) : SortedSet α := xs.foldl insert empty

/-- The number of members. -/
def size (s : SortedSet α) : Nat := s.toList.length

end SortedSet

end ShapeAnalysis
