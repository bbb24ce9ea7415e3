import Mathlib.Data.List.Basic
import ShapeAnalysis.Order.BinarySearch

/-!
# What a binary search finds

In an ordered vector the entries before the place that is looked for come first and the
ones after it come last, with one entry at most in between.  So there is exactly one
place to find, and the search finds it (`search_eq_iff`): how the vector is halved on
the way does not matter.
-/

namespace ShapeAnalysis

namespace Place

variable {α : Type} {side : α → Ordering} {xs : List α}

/-- A vector is ordered for a search if of two entries the first one is before what is
looked for, or the second one is after it. -/
def Ordered (side : α → Ordering) (xs : List α) : Prop :=
  xs.Pairwise fun x y => side x = .lt ∨ side y = .gt

/-- What has to hold of a place that is found. -/
def Fits (side : α → Ordering) (xs : List α) : Place xs.length → Prop
  | .taken i => side xs[i.val] = .eq
  | .free i => (∀ x ∈ xs.take i, side x = .lt) ∧ ∀ x ∈ xs.drop i, side x = .gt

/-! ## The two sides of an entry -/

section Sides

variable (hs : Ordered side xs) {i : Nat} (hi : i < xs.length)
include hs hi

/-- What stands before an entry that is not after the place is before the place. -/
theorem Ordered.lt_of_mem_take (hside : side xs[i] ≠ .gt) : ∀ x ∈ xs.take i, side x = .lt := by
  intro x hx
  have hsplit : (xs.take i ++ xs.drop i).Pairwise fun x y => side x = .lt ∨ side y = .gt := by
    rw [List.take_append_drop]
    exact hs
  have hmem : xs[i] ∈ xs.drop i := by
    rw [List.drop_eq_getElem_cons hi]
    exact List.mem_cons_self
  exact ((List.pairwise_append.1 hsplit).2.2 x hx _ hmem).resolve_right hside

/-- What stands after an entry that is not before the place is after the place. -/
theorem Ordered.gt_of_mem_drop (hside : side xs[i] ≠ .lt) :
    ∀ x ∈ xs.drop (i + 1), side x = .gt := by
  intro x hx
  have htail : (xs.drop i).Pairwise fun x y => side x = .lt ∨ side y = .gt :=
    hs.sublist (List.drop_sublist i xs)
  rw [List.drop_eq_getElem_cons hi] at htail
  exact ((List.pairwise_cons.1 htail).1 x hx).resolve_left hside

end Sides

/-! ## The search -/

/-- A search between two indices fits if nothing outside of them is meant. -/
theorem fits_searchBetween (hs : Ordered side xs) {lo hi : Nat} (hlo : lo ≤ hi)
    (hhi : hi ≤ xs.length) (hbefore : ∀ x ∈ xs.take lo, side x = .lt)
    (hafter : ∀ x ∈ xs.drop hi, side x = .gt) :
    Fits side xs (searchBetween side xs lo hi hlo hhi) := by
  fun_induction searchBetween side xs lo hi hlo hhi with
  | case1 lo hi hlo hhi h mid hmid hlt ih =>
    refine ih (fun x hx => ?_) hafter
    rw [List.take_succ_eq_append_getElem hmid, List.mem_append, List.mem_singleton] at hx
    rcases hx with hx | rfl
    · exact hs.lt_of_mem_take hmid (by simp [hlt]) x hx
    · exact hlt
  | case2 lo hi hlo hhi h mid hmid heq => exact heq
  | case3 lo hi hlo hhi h mid hmid hgt ih =>
    refine ih hbefore fun x hx => ?_
    rw [List.drop_eq_getElem_cons hmid, List.mem_cons] at hx
    rcases hx with rfl | hx
    · exact hgt
    · exact hs.gt_of_mem_drop hmid (by simp [hgt]) x hx
  | case4 lo hi hlo hhi h =>
    obtain rfl : lo = hi := Nat.le_antisymm hlo (Nat.not_lt.1 h)
    exact ⟨hbefore, hafter⟩

/-! ## The place is determined -/

/-- The index of a place. -/
def index {length : Nat} : Place length → Nat
  | .taken i => i
  | .free i => i

/-- What is meant does not stand on a side of a free place. -/
theorem Fits.not_taken {i : Fin xs.length} {j : Fin (xs.length + 1)}
    (hi : Fits side xs (.taken i)) (hj : Fits side xs (.free j)) : False := by
  have hmem : xs[i.val] ∈ xs.take j ++ xs.drop j := by
    rw [List.take_append_drop]
    exact List.getElem_mem i.isLt
  rcases List.mem_append.1 hmem with hmem | hmem
  · exact absurd ((hj.1 _ hmem).symm.trans hi) (by decide)
  · exact absurd ((hj.2 _ hmem).symm.trans hi) (by decide)

theorem countP_lt_eq {i : Nat} (hi : i ≤ xs.length) (hbefore : ∀ x ∈ xs.take i, side x = .lt)
    (hafter : ∀ x ∈ xs.drop i, side x ≠ .lt) : (xs.countP fun x => side x = .lt) = i := by
  have htake : (xs.take i).countP (fun x => side x = .lt) = i := by
    rw [List.countP_eq_length.2 (by simpa using hbefore), List.length_take, Nat.min_eq_left hi]
  have hdrop : (xs.drop i).countP (fun x => side x = .lt) = 0 :=
    List.countP_eq_zero.2 (by simpa using hafter)
  calc (xs.countP fun x => side x = .lt)
      = (xs.take i ++ xs.drop i).countP fun x => side x = .lt := by rw [List.take_append_drop]
    _ = i := by rw [List.countP_append, htake, hdrop, Nat.add_zero]

/-- The index of a place is the number of entries before it. -/
theorem Fits.index_eq (hs : Ordered side xs) {p : Place xs.length} (hp : Fits side xs p) :
    p.index = xs.countP fun x => side x = .lt := by
  cases p with
  | taken i =>
    have hi : side xs[i.val] = .eq := hp
    have hne : side xs[i.val] ≠ .gt ∧ side xs[i.val] ≠ .lt := by simp [hi]
    have hafter : ∀ x ∈ xs.drop i, side x ≠ .lt := by
      intro x hx
      rw [List.drop_eq_getElem_cons i.isLt, List.mem_cons] at hx
      rcases hx with rfl | hx
      · exact hne.2
      · simp [hs.gt_of_mem_drop i.isLt hne.2 x hx]
    exact (countP_lt_eq (Nat.le_of_lt i.isLt) (hs.lt_of_mem_take i.isLt hne.1) hafter).symm
  | free i =>
    have hafter : ∀ x ∈ xs.drop i, side x ≠ .lt := fun x hx => by simp [hp.2 x hx]
    exact (countP_lt_eq (Nat.le_of_lt_succ i.isLt) hp.1 hafter).symm

/-- There is one place to find. -/
theorem Fits.unique (hs : Ordered side xs) {p q : Place xs.length} (hp : Fits side xs p)
    (hq : Fits side xs q) : p = q := by
  have hindex : p.index = q.index := (hp.index_eq hs).trans (hq.index_eq hs).symm
  cases p with
  | taken i =>
    cases q with
    | taken j => exact congrArg taken (Fin.ext hindex)
    | free j => exact (hp.not_taken hq).elim
  | free i =>
    cases q with
    | taken j => exact (hq.not_taken hp).elim
    | free j => exact congrArg free (Fin.ext hindex)

/-- A search finds a place exactly if the place fits. -/
theorem search_eq_iff (hs : Ordered side xs) {p : Place xs.length} :
    search side xs = p ↔ Fits side xs p := by
  have hfits : Fits side xs (search side xs) :=
    fits_searchBetween hs _ _ (by simp) (by simp)
  constructor
  · rintro rfl
    exact hfits
  · exact hfits.unique hs

end Place

end ShapeAnalysis
