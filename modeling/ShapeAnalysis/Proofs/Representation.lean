import ShapeAnalysis.Proofs.Coerce
import ShapeAnalysis.Proofs.Focus
import ShapeAnalysis.Proofs.Lookups
import ShapeAnalysis.Proofs.Update

/-!
# The representation invariant

Well-formed structures are closed under every operation, whatever the formulas and
constraints it is given (`MadeFrom.wellFormed`).  Only values that are set by hand have to
be at a tuple of the structure, and updates need as many variables as their predicate has
places.

Two things follow for users of the sparse tables.  Structures are equal when they have the
same nodes and look the same at every tuple (`WellFormed.sameContents_iff`), and the
look-ups of nodes in the operations on two structures and in blur succeed.
-/

namespace ShapeAnalysis

namespace Structure

variable {V : Vocabulary}

/-- The structures that the operations make from given ones and from the empty one. -/
inductive MadeFrom (given : Structure V → Prop) : Structure V → Prop
  | given {s : Structure V} : given s → MadeFrom given s
  | new (constraints : List Constraint) : MadeFrom given { constraints }
  | withConstraints {s : Structure V} (constraints : List Constraint) :
      MadeFrom given s → MadeFrom given { s with constraints }
  | newNode {s : Structure V} : MadeFrom given s → MadeFrom given s.newNode.1
  | set {s : Structure V} {p : PredId} {t : List Node} (k : Kleene) :
      MadeFrom given s → s.Admits ⟨p, t⟩ → MadeFrom given (s.set p t k)
  | setAll {s : Structure V} {p : PredId} (k : Kleene) :
      MadeFrom given s → p < V.size → V.arity p = 1 → MadeFrom given (s.setAll p k)
  | removeNode {s : Structure V} (n : Node) : MadeFrom given s → MadeFrom given (s.removeNode n)
  | filterNodes {s : Structure V} (p : PredId) :
      MadeFrom given s → MadeFrom given (s.filterNodes p)
  | focus {s r : Structure V} (fs : List (Formula PredId)) :
      MadeFrom given s → r ∈ s.focus fs → MadeFrom given r
  | coerce {s : Structure V} : MadeFrom given s → MadeFrom given s.coerce.2
  | blur {s : Structure V} : MadeFrom given s → MadeFrom given s.blur
  | merge {s t : Structure V} (mode : JoinMode) :
      MadeFrom given s → MadeFrom given t → MadeFrom given (merge mode s t).2
  | combine {call exit : Structure V} (combiner : Kleene → Kleene → Kleene) :
      MadeFrom given call → MadeFrom given exit → MadeFrom given (combine combiner call exit)
  | update {s : Structure V} {act : Action PredId} (a : Assignment) :
      MadeFrom given s → act.Sized V → MadeFrom given (act.update s a)

/-- A merge leaves a well-formed structure, whether it takes the candidate in or not. -/
theorem WellFormed.merge {s t : Structure V} (hs : s.WellFormed) (ht : t.WellFormed)
    (mode : JoinMode) : (merge mode s t).2.WellFormed := by
  by_cases hrel : Related mode s t
  · exact (joined_merge hs ht hrel).2.wellFormed
  · rw [merge_of_not_related hs ht hrel]
    exact hs

/-- Operations make well-formed structures from well-formed structures. -/
theorem MadeFrom.wellFormed {given : Structure V → Prop} (hgiven : ∀ s, given s → s.WellFormed)
    {t : Structure V} (h : MadeFrom given t) : t.WellFormed := by
  induction h with
  | given hs => exact hgiven _ hs
  | new constraints => exact wellFormed_empty constraints
  | withConstraints constraints _ ih => exact ⟨ih.admits, ih.stored, ih.node_lt⟩
  | newNode _ ih => exact ih.newNode
  | set k _ hadmits ih => exact ih.set hadmits k
  | setAll k _ hp hunary ih => exact ih.setAll hp hunary k
  | removeNode n _ ih => exact ih.removeNode n
  | filterNodes p _ ih => exact ih.filterNodes p
  | focus fs _ hr ih => exact (caseOf_focus fs ih hr).wellFormed
  | coerce _ ih => exact ih.sharper_coerce.wellFormed
  | blur _ ih => exact ih.blur
  | merge mode _ _ hs ht => exact hs.merge ht mode
  | combine combiner _ _ hcall hexit => exact hcall.combine combiner hexit
  | update a _ hsized ih => exact Action.wellFormed_update hsized ih a

/-- Well-formed structures are equal when they have the same nodes and the same values at
the tuples of their nodes. -/
theorem WellFormed.sameContents_iff {s t : Structure V} (hs : s.WellFormed) (ht : t.WellFormed) :
    s.sameContents t = true ↔ (∀ n, n ∈ s.nodes ↔ n ∈ t.nodes) ∧
      ∀ p u, s.Admits ⟨p, u⟩ → s.value p u = t.value p u := by
  simp only [sameContents, Bool.and_eq_true, decide_eq_true_eq]
  constructor
  · rintro ⟨hnodes, hvalues⟩
    refine ⟨fun n => by rw [hnodes], fun p u _ => ?_⟩
    rw [value, value, hvalues]
  · rintro ⟨hnodes, hvalue⟩
    refine ⟨SortedSet.ext_mem hnodes, hs.values_eq ht fun p u => ?_⟩
    by_cases hu : s.Admits ⟨p, u⟩
    · exact hvalue p u hu
    · -- Elsewhere both are false.
      rw [hs.value_eq_ff hu, ht.value_eq_ff]
      rintro ⟨hlt, hlen, hmem⟩
      exact hu ⟨hlt, hlen, fun n hn => (hnodes n).2 (hmem n hn)⟩

/-- The representation invariant.  Operations keep structures well formed.  Well-formed
structures are equal exactly when their nodes and their values are, and every value at a
tuple that is not one of their nodes is false.  Where blur, the isomorphism test, merging
and the union look up a node of a well-formed structure, they find it. -/
theorem representation_kept (V : Vocabulary) :
    (∀ given : Structure V → Prop, (∀ s, given s → s.WellFormed) →
      ∀ t, MadeFrom given t → t.WellFormed) ∧
    ∀ s t : Structure V, s.WellFormed → t.WellFormed →
      (s.sameContents t = true ↔ (∀ n, n ∈ s.nodes ↔ n ∈ t.nodes) ∧
        ∀ p u, s.Admits ⟨p, u⟩ → s.value p u = t.value p u) ∧
      (∀ p u, ¬ s.Admits ⟨p, u⟩ → s.value p u = .ff) ∧
      s.blur? = some s.blur ∧ s.isIsomorphic? t = some (s.isIsomorphic t) ∧
      (∀ mode, merge? mode s t = some (merge mode s t)) ∧
      ∀ combiner, combine? combiner s t = some (combine combiner s t) := by
  constructor
  · intro given hgiven t ht
    exact ht.wellFormed hgiven
  · intro s t hs ht
    exact ⟨hs.sameContents_iff ht, fun p u hu => hs.value_eq_ff hu, hs.blur?_eq,
      hs.isIsomorphic?_eq, fun mode => hs.merge?_eq ht mode,
      fun combiner => hs.combine?_eq combiner ht⟩

/-- Two copies of two cells, with the cells that look alike merged. -/
def mergedCells : Structure cellVocabulary := (combine Kleene.or twoCells twoCells).blur

theorem representation_kept_cells :
    mergedCells.WellFormed ∧ mergedCells.nodes = twoCells.nodes ∧
      (∃ p u, mergedCells.Admits ⟨p, u⟩ ∧ mergedCells.value p u ≠ twoCells.value p u) ∧
      merge? .pointwise mergedCells twoCells = some (merge .pointwise mergedCells twoCells) := by
  obtain ⟨hmade, hpair⟩ := representation_kept cellVocabulary
  have hnodes : MadeFrom (fun _ => False) (newNodes 2 {} : Structure cellVocabulary) :=
    .newNode (.newNode (.new []))
  have htwo : MadeFrom (fun _ => False) twoCells :=
    .set .tt (.set .tt hnodes (by decide)) (by decide)
  have hgiven : ∀ s : Structure cellVocabulary, False → s.WellFormed := fun _ h => h.elim
  have hmerged : mergedCells.WellFormed :=
    hmade _ hgiven _ (.blur (.combine Kleene.or htwo htwo))
  obtain ⟨hsame, -, -, -, hmerge, -⟩ := hpair _ _ hmerged (hmade _ hgiven _ htwo)
  have hnodes : mergedCells.nodes = twoCells.nodes := by decide
  refine ⟨hmerged, hnodes, ?_, hmerge .pointwise⟩
  -- The structures differ, so they differ at some tuple.
  have hdiffer : mergedCells.sameContents twoCells = false := by decide
  by_contra hnone
  push Not at hnone
  rw [hsame.2 ⟨fun n => by rw [hnodes], hnone⟩] at hdiffer
  cases hdiffer

end Structure

end ShapeAnalysis
