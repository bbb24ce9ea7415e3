import ShapeAnalysis.Proofs.Messages
import ShapeAnalysis.Proofs.Pipeline
import ShapeAnalysis.Proofs.SplitOrder

/-!
# The pipeline does not see the names of nodes

Runs on isomorphic structures go through corresponding branches
(`paired_branches`).  Corresponding branches report the same messages, break
alike and give isomorphic structures.

Messages are kept with one structure for each isomorphism class.  Which one it
is depends on the run, but what is recorded for a class does not
(`Messages.records_foldl_add`).
-/

namespace ShapeAnalysis

namespace Applier

open Structure

variable {V : Vocabulary}

/-! ## Corresponding branches -/

/-- The branches differ only in the names of nodes. -/
structure AlikeBranch (b b' : Structure V × Assignment) : Prop where
  left : b.1.WellFormed
  right : b'.1.WellFormed
  constraints : b.1.constraints = b'.1.constraints
  within : b.2.Within b.1.nodes
  renamed : ∃ f, Iso f b.1 b'.1 ∧ b'.2 = b.2.map f

theorem paired_inputs (ap : Applier) (act : Action PredId) {s s' : Structure V}
    (h : Alike s s') : Paired Alike (ap.inputs act s) (ap.inputs act s') := by
  unfold inputs
  split
  · exact h.focus act.focus
  · exact .singleton h

theorem paired_kept (ap : Applier) {s s' : Structure V} (h : Alike s s') :
    Paired Alike (ap.kept s) (ap.kept s') := by
  obtain ⟨f, hf⟩ := h.isomorphic
  obtain ⟨hsame, hcoerce⟩ := hf.coerce h.left h.right h.constraints
  unfold kept
  split
  · cases htrue : s.coerce.1 with
    | false => simpa [← hsame, htrue] using Paired.nil
    | true =>
      have hsharper := h.left.sharper_coerce
      have hsharper' := h.right.sharper_coerce
      rw [← hsame, htrue, if_pos rfl, if_pos rfl]
      exact .singleton ⟨hsharper.wellFormed, hsharper'.wellFormed,
        (hsharper.constraints.trans h.constraints).trans hsharper'.constraints.symm,
        ⟨f, hcoerce htrue⟩⟩
  · exact .singleton h

/-- Structures that are alike run through corresponding branches. -/
theorem paired_branches (ap : Applier) (act : Action PredId) {s s' : Structure V}
    (h : Alike s s') : Paired AlikeBranch (ap.branches act s) (ap.branches act s') := by
  refine (ap.paired_inputs act h).flatMap fun r _ r' _ hr => ?_
  refine (ap.paired_kept hr).flatMap fun q _ q' _ hq => ?_
  obtain ⟨f, hf⟩ := hq.isomorphic
  have hassign : Paired (fun a a' => a.Within q.nodes ∧ a' = a.map f) (act.assignments q)
      (act.assignments q') :=
    Paired.of_perm_map (hf.assignments_perm hq.left hq.right act)
      fun a ha => ⟨within_of_mem_assignments ha, rfl⟩
  refine hassign.map fun a _ a' _ ha => ?_
  exact ⟨hq.left, hq.right, hq.constraints, ha.1, f, hf, ha.2⟩

section Branch

variable {b b' : Structure V × Assignment} (h : AlikeBranch b b')
include h

theorem AlikeBranch.report_eq (act : Action PredId) :
    act.report b'.1 b'.2 = act.report b.1 b.2 := by
  obtain ⟨f, hf, hmap⟩ := h.renamed
  rw [hmap, hf.report_eq h.left h.right act h.within]

theorem AlikeBranch.frozen_eq (ap : Applier) (act : Action PredId) :
    ap.frozen act b' = ap.frozen act b := by
  rw [frozen, frozen, h.report_eq]

theorem AlikeBranch.updated {act : Action PredId} (hsized : act.Sized V) :
    Alike (updated act b.1 b.2) (updated act b'.1 b'.2) := by
  obtain ⟨f, hf, hmap⟩ := h.renamed
  have hcons : (Applier.updated act b.1 b.2).constraints =
      (Applier.updated act b'.1 b'.2).constraints := by
    rw [constraints_updated, constraints_updated, h.constraints]
  refine ⟨wellFormed_updated hsized h.left b.2, wellFormed_updated hsized h.right b'.2, hcons, ?_⟩
  obtain ⟨g, hg⟩ := hf.update h.left h.right h.within act
  rw [← hmap] at hg
  exact ⟨g, hg.filterNodes (Action.wellFormed_update hsized h.left b.2)
    (Action.wellFormed_update hsized h.right b'.2) Vocabulary.kill⟩

theorem AlikeBranch.breaks_eq (ap : Applier) {act : Action PredId} (hsized : act.Sized V) :
    ap.breaks act b' = ap.breaks act b := by
  have hupdated := h.updated hsized
  obtain ⟨f, hf⟩ := hupdated.isomorphic
  have hsame := (hf.coerce hupdated.left hupdated.right hupdated.constraints).1
  rw [breaks, breaks, h.frozen_eq, hsame]

theorem AlikeBranch.outcome? (ap : Applier) {act : Action PredId} (hsized : act.Sized V) :
    Option.Rel Isomorphic (ap.outcome? act b) (ap.outcome? act b') := by
  have hupdated := h.updated hsized
  obtain ⟨f, hf⟩ := hupdated.isomorphic
  obtain ⟨hsame, hcoerce⟩ := hf.coerce hupdated.left hupdated.right hupdated.constraints
  have hblur : ∀ {r r' : Structure V}, r.WellFormed → r'.WellFormed → Iso f r r' →
      Isomorphic (if ap.policy.blur then r.blur else r)
        (if ap.policy.blur then r'.blur else r') := by
    intro r r' hr hr' hiso
    split
    · exact hiso.blur hr hr'
    · exact ⟨f, hiso⟩
  unfold Applier.outcome?
  dsimp only
  rw [h.frozen_eq]
  cases ap.frozen act b with
  | true => exact .none
  | false =>
    cases ap.policy.coerceAfterUpdate with
    | false => exact .some (hblur hupdated.left hupdated.right hf)
    | true =>
      rw [← hsame]
      cases htrue : (Applier.updated act b.1 b.2).coerce.1 with
      | false => exact .none
      | true =>
        exact .some (hblur hupdated.left.sharper_coerce.wellFormed
          hupdated.right.sharper_coerce.wellFormed (hcoerce htrue))

end Branch

/-! ## Runs -/

/-- Some branch of the one run breaks when some branch of the other does. -/
theorem exists_breaks_iff (ap : Applier) {act : Action PredId} (hsized : act.Sized V)
    {s s' : Structure V} (h : Alike s s') :
    (∃ b ∈ ap.branches act s, ap.breaks act b = true) ↔
      ∃ b ∈ ap.branches act s', ap.breaks act b = true := by
  have hpaired := ap.paired_branches act h
  constructor
  · rintro ⟨b, hb, hbreaks⟩
    obtain ⟨b', hb', hbb'⟩ := hpaired.exists_mem hb
    exact ⟨b', hb', (hbb'.breaks_eq ap hsized).trans hbreaks⟩
  · rintro ⟨b', hb', hbreaks⟩
    obtain ⟨b, hb, hbb'⟩ := hpaired.flip.exists_mem hb'
    exact ⟨b, hb, (hbb'.breaks_eq ap hsized).symm.trans hbreaks⟩

/-- Corresponding branches report the same texts for the same classes. -/
theorem exists_report_iff (ap : Applier) (act : Action PredId) {s s' : Structure V}
    (h : Alike s s') (t : Structure V) (x : String) :
    (∃ b ∈ ap.branches act s, Isomorphic b.1 t ∧ x ∈ act.report b.1 b.2) ↔
      ∃ b ∈ ap.branches act s', Isomorphic b.1 t ∧ x ∈ act.report b.1 b.2 := by
  have hpaired := ap.paired_branches act h
  constructor
  · rintro ⟨b, hb, hiso, hx⟩
    obtain ⟨b', hb', hbb'⟩ := hpaired.exists_mem hb
    obtain ⟨f, hf, -⟩ := hbb'.renamed
    exact ⟨b', hb', .trans (.symm ⟨f, hf⟩) hiso, hbb'.report_eq act ▸ hx⟩
  · rintro ⟨b', hb', hiso, hx⟩
    obtain ⟨b, hb, hbb'⟩ := hpaired.flip.exists_mem hb'
    obtain ⟨f, hf, -⟩ := hbb'.renamed
    exact ⟨b, hb, .trans ⟨f, hf⟩ hiso, hbb'.report_eq act ▸ hx⟩

/-- The pipeline does not see the names of nodes.  Runs on isomorphic structures
both stop, or both answer.  Then the answers can be paired so that each pair is
isomorphic, and the same texts are recorded for the same isomorphism classes. -/
theorem apply_ignores_names (ap : Applier) (i : ActionInstance) (hsized : i.action.Sized V)
    (s s' : Structure V) (hs : s.WellFormed) (hs' : s'.WellFormed)
    (hcons : s.constraints = s'.constraints) (hiso : Isomorphic s s') (location : String)
    (stats : Statistics) :
    (∃ e e', (ap.apply i s location .empty stats).2.2 = .error e ∧
        (ap.apply i s' location .empty stats).2.2 = .error e') ∨
      ∃ rs rs', (ap.apply i s location .empty stats).2.2 = .ok rs ∧
        (ap.apply i s' location .empty stats).2.2 = .ok rs' ∧ Paired Isomorphic rs rs' ∧
        ∀ t x, (ap.apply i s location .empty stats).2.1.Records t x ↔
          (ap.apply i s' location .empty stats).2.1.Records t x := by
  have h : Alike s s' := ⟨hs, hs', hcons, hiso⟩
  cases hskip : i.action.skip with
  | true =>
    right
    refine ⟨[s], [s'], ?_, ?_, .singleton hiso, fun t x => ?_⟩ <;> simp [apply, hskip]
  | false =>
    by_cases hbreaks : ∃ b ∈ ap.branches i.action s, ap.breaks i.action b = true
    · obtain ⟨b, hb, hbreak⟩ := hbreaks
      obtain ⟨b', hb', hbreak'⟩ := (ap.exists_breaks_iff hsized h).1 ⟨b, hb, hbreak⟩
      obtain ⟨e, he, -⟩ := ap.exists_apply_eq_error i s location .empty stats hskip hb hbreak
      obtain ⟨e', he', -⟩ := ap.exists_apply_eq_error i s' location .empty stats hskip hb' hbreak'
      exact .inl ⟨e, e', he, he'⟩
    · have hnone : ∀ b ∈ ap.branches i.action s, ap.breaks i.action b = false := by
        simpa using hbreaks
      have hnone' : ∀ b ∈ ap.branches i.action s', ap.breaks i.action b = false := by
        simpa using fun h' => hbreaks ((ap.exists_breaks_iff hsized h).2 h')
      refine .inr ⟨_, _, ap.apply_eq_ok i s location .empty stats hskip hnone,
        ap.apply_eq_ok i s' location .empty stats hskip hnone', ?_, fun t x => ?_⟩
      · exact (ap.paired_branches i.action h).filterMap fun _ _ _ _ hb => hb.outcome? ap hsized
      · have hempty : (Messages.empty : Messages V).WellFormed := fun e he => by cases he
        rw [ap.messages_apply i s location .empty stats hskip hnone,
          ap.messages_apply i s' location .empty stats hskip hnone',
          Messages.records_foldl_add _ (ap.wellFormed_of_mem_branches i.action hs) hempty,
          Messages.records_foldl_add _ (ap.wellFormed_of_mem_branches i.action hs') hempty,
          ap.exists_report_iff i.action h]

/-- The linked cells with their names exchanged. -/
def swappedCells : Structure cellVocabulary :=
  let s := newNodes 2 { constraints := [.new (.atom 7 [0, 1]) (.neg (.atom 6 [1]))] }
  (((s.set Vocabulary.sm [0] .unknown).set 6 [1] .tt).set 6 [0] .unknown).set 7 [1, 0] .tt

/-- Move `x` to the next cell, with a message where there may be one. -/
def nextCell : ActionInstance :=
  .ofAction {
    title := "x = x.n"
    focus := [.atom 6 [0]]
    precondition := some (.atom 6 [0])
    updates := [⟨6, [1], .atom 7 [0, 1]⟩]
    messages := [⟨.potential, .atom 7 [0, 1], "x has a next cell"⟩] }

theorem apply_ignores_names_cells :
    linkedCells.WellFormed ∧ swappedCells.WellFormed ∧ Isomorphic linkedCells swappedCells ∧
      ∃ rs rs', (strict.apply nextCell linkedCells "p" .empty default).2.2 = .ok rs ∧
        (strict.apply nextCell swappedCells "p" .empty default).2.2 = .ok rs' ∧
        Paired Isomorphic rs rs' ∧
        ∀ t x, (strict.apply nextCell linkedCells "p" .empty default).2.1.Records t x ↔
          (strict.apply nextCell swappedCells "p" .empty default).2.1.Records t x := by
  have hiso : Isomorphic linkedCells swappedCells := ⟨fun n => 1 - n, by decide⟩
  refine ⟨by decide, by decide, hiso, ?_⟩
  refine (apply_ignores_names strict nextCell (by decide) linkedCells swappedCells (by decide)
    (by decide) rfl hiso "p" default).resolve_left ?_
  rintro ⟨e, -, he, -⟩
  rw [apply_eq_ok strict nextCell linkedCells "p" .empty default rfl (by decide)] at he
  cases he

end Applier

end ShapeAnalysis
