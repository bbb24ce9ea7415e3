import ShapeAnalysis.Pipeline.Interpreter
import ShapeAnalysis.Proofs.Abstraction
import ShapeAnalysis.Proofs.Combine
import ShapeAnalysis.Proofs.Method
import ShapeAnalysis.Proofs.Pipeline

/-!
# The names of what a return gives

Blur leaves no two nodes with one canonical name, in any structure at all
(`nodup_canonicalNames_blur`).  Unmarking after a return only drops nodes.  So where a
return action runs through the pipeline, its results have unique names, and as many
nodes as there are names at most.

A skip action hands on the union of call and exit as it is.  The names of its result
are then those of the call followed by those of the exit.
-/

namespace ShapeAnalysis

namespace Structure

variable {V : Vocabulary}

/-! ## Removing nodes keeps the names of the others -/

/-- The names of the nodes that are not killed, in node order. -/
def liveNames (s : Structure V) : List (List Kleene) :=
  (s.nodes.toList.filter fun n => s.value Vocabulary.kill [n] ≠ .tt).map (s.profile V.abstraction)

theorem canonicalNames_filterNodes (s : Structure V) :
    (s.filterNodes Vocabulary.kill).canonicalNames = s.liveNames := by
  rw [canonicalNames_eq, nodes_filterNodes, liveNames]
  refine List.map_congr_left fun n hn => List.map_congr_left fun p _ => ?_
  refine value_filterNodes s _ p fun m hm => ?_
  rw [List.mem_singleton.1 hm, ← SortedSet.mem_toList, nodes_filterNodes]
  exact hn

theorem liveNames_setAll {s : Structure V} {p : PredId} (hp : Vocabulary.isReserved p)
    (hkill : p ≠ Vocabulary.kill) (k : Kleene) : (s.setAll p k).liveNames = s.liveNames := by
  unfold liveNames
  simp only [value_setAll_of_ne s hkill.symm, nodes_setAll]
  rw [setAll_eq_writeAll]
  exact List.map_congr_left fun n _ => profile_writeAll hp _ _ n

/-- Nodes that are found again under new names bring their canonical names. -/
theorem liveNames_of_renamed {s t : Structure V} {f : Node → Node}
    (h : ∀ n ∈ s.nodes, ∀ p, p ∈ V.abstraction ∨ p = Vocabulary.kill →
      t.value p [f n] = s.value p [n]) :
    ((s.nodes.toList.map f).filter fun n => t.value Vocabulary.kill [n] ≠ .tt).map
      (t.profile V.abstraction) = s.liveNames := by
  have hlive : (s.nodes.toList.filter fun n => t.value Vocabulary.kill [f n] ≠ .tt) =
      s.nodes.toList.filter fun n => s.value Vocabulary.kill [n] ≠ .tt :=
    List.filter_congr fun n hn => by rw [h n hn _ (.inr rfl)]
  rw [List.filter_map, List.map_map, liveNames, ← hlive]
  refine List.map_congr_left fun n hn => List.map_congr_left fun p hp => ?_
  exact h n (List.mem_filter.1 hn).1 p (.inl hp)

/-- The names of a union are those of the call, then those of the exit. -/
theorem liveNames_combine (combiner : Kleene → Kleene → Kleene) {call exit : Structure V}
    (hcall : call.WellFormed) (hexit : exit.WellFormed) :
    (combine combiner call exit).liveNames = call.liveNames ++ exit.liveNames := by
  have hunary : ∀ p, p ∈ V.abstraction ∨ p = Vocabulary.kill → V.arity p ≠ 0 := by
    rintro p (hp | rfl)
    · simp [(mem_abstraction hp).2]
    · exact V.arity_ne_zero_of_isReserved rfl
  rw [liveNames, nodes_combine, List.filter_append, List.map_append]
  congr 1
  · refine liveNames_of_renamed fun n hn p hp => ?_
    exact value_combine_call combiner hcall hexit (hunary p hp) (u := [n]) (by simpa using hn)
  · refine liveNames_of_renamed fun n hn p hp => ?_
    exact value_combine_exit combiner hcall hexit (hunary p hp) (u := [n]) (by simpa using hn)

end Structure

/-! ## Results of the pipeline -/

namespace Applier

open Structure

variable {V : Vocabulary} {ap : Applier}

/-- The policies for which there is an applier. -/
theorem new_eq_ok_iff {role : Role} {policy : Policy} :
    Applier.new role policy = .ok ap ↔ ap = ⟨role, policy⟩ ∧ policy.blur = true ∧
      ¬ (role = .ret ∧ policy.coerceAfterFocus = true) ∧
      (policy.breakOnCoerceFailure = true → policy.coerceAfterUpdate = true) := by
  have hret : ¬ (role = .ret ∧ policy.coerceAfterFocus = true) ↔
      (decide (role = .ret) && policy.coerceAfterFocus) = false := by
    simp
  have hok : (.ok ⟨role, policy⟩ : Except Error Applier) = .ok ap ↔ ap = ⟨role, policy⟩ := by
    rw [Except.ok.injEq, eq_comm]
  unfold Applier.new Policy.validateFor
  rw [hret]
  cases policy.blur with
  | false => simp
  | true =>
    cases decide (role = .ret) && policy.coerceAfterFocus with
    | true => simp
    | false =>
      cases policy.breakOnCoerceFailure <;> cases policy.coerceAfterUpdate <;> simp [hok]

/-- With blur on, a branch gives a structure with unique names. -/
theorem nodup_canonicalNames_outcome (hblur : ap.policy.blur = true) {act : Action PredId}
    {b : Structure V × Assignment} {r : Structure V} (h : ap.outcome? act b = some r) :
    r.canonicalNames.Nodup := by
  simp only [outcome?, hblur, if_true] at h
  split at h
  · cases h
  · split at h
    · split at h
      · cases h
        exact nodup_canonicalNames_blur _
      · cases h
    · cases h
      exact nodup_canonicalNames_blur _

end Applier

/-! ## Interpreters -/

namespace Interpreter

open Structure

variable {V : Vocabulary}

/-- An interpreter that was made from a configuration, after any use of it. -/
inductive Started : Interpreter → Prop
  | new {c : Config} {it : Interpreter} : Interpreter.new c = .ok it → Started it
  | addListener {it : Interpreter} : Started it → Started it.addListener
  | apply {it : Interpreter} {V : Vocabulary} (role : Role) (i : ActionInstance)
      (input : Structure V) (point : ProgramPoint) (messages : Messages V) :
      Started it → Started (it.apply role i input point messages).1
  | applyBinary {it : Interpreter} {V : Vocabulary} (combiner : Kleene → Kleene → Kleene)
      (i : ActionInstance) (call exit : Structure V) (point : ProgramPoint)
      (messages : Messages V) :
      Started it → Started (it.applyBinary combiner i call exit point messages).1
  | startAnalysis {it : Interpreter} : Started it → Started it.startAnalysis
  | finishAnalysis {it : Interpreter} : Started it → Started it.finishAnalysis.1

/-- An action in a role changes no applier. -/
theorem ret_apply (it : Interpreter) (role : Role) (i : ActionInstance) (input : Structure V)
    (point : ProgramPoint) (messages : Messages V) :
    (it.apply role i input point messages).1.ret = it.ret := by
  unfold apply
  dsimp only
  split <;> rfl

/-- Count a combination. -/
def counted (it : Interpreter) : Interpreter :=
  { it with statistics := { it.statistics with combines := it.statistics.combines + 1 } }

section Binary

variable (it : Interpreter) (combiner : Kleene → Kleene → Kleene) (i : ActionInstance)
  (call exit : Structure V) (point : ProgramPoint) (messages : Messages V)

theorem applyBinary_fst : (it.applyBinary combiner i call exit point messages).1 =
    (it.counted.apply .ret i (joined combiner call exit) point messages).1 :=
  rfl

theorem applyBinary_snd_snd : (it.applyBinary combiner i call exit point messages).2.2 =
    (it.counted.apply .ret i (joined combiner call exit) point messages).2.2.map
      (·.map unmarked) :=
  rfl

end Binary

/-- Returns are blurred in every interpreter. -/
theorem Started.blur {it : Interpreter} (h : it.Started) : it.ret.policy.blur = true := by
  induction h with
  | new hnew =>
    obtain ⟨intra, -, hnew⟩ := bind_eq_ok.1 hnew
    obtain ⟨guard, -, hnew⟩ := bind_eq_ok.1 hnew
    obtain ⟨call, -, hnew⟩ := bind_eq_ok.1 hnew
    obtain ⟨ret, hret, hnew⟩ := bind_eq_ok.1 hnew
    cases hnew
    obtain ⟨rfl, hblur, -⟩ := Applier.new_eq_ok_iff.1 hret
    exact hblur
  | addListener _ ih => exact ih
  | apply role i input point messages _ ih => rwa [ret_apply]
  | applyBinary combiner i call exit point messages _ ih =>
    rw [applyBinary_fst, ret_apply]
    exact ih
  | startAnalysis _ ih => exact ih
  | finishAnalysis _ ih => exact ih

theorem apply_snd_snd (it : Interpreter) (role : Role) (i : ActionInstance) (input : Structure V)
    (point : ProgramPoint) (messages : Messages V) :
    (it.apply role i input point messages).2.2 =
      ((it.applier role).apply i input point.label Messages.empty it.statistics).2.2 := by
  unfold apply
  dsimp only
  split <;> simp_all

theorem canonicalNames_unmarked (s : Structure V) : (unmarked s).canonicalNames = s.liveNames := by
  rw [unmarked, setAll_eq_writeAll, canonicalNames_writeAll (p := Vocabulary.kill) rfl,
    canonicalNames_filterNodes, liveNames_setAll (p := Vocabulary.inUx) rfl (by decide),
    liveNames_setAll (p := Vocabulary.inUc) rfl (by decide)]

theorem liveNames_joined (combiner : Kleene → Kleene → Kleene) {call exit : Structure V}
    (hcall : call.WellFormed) (hexit : exit.WellFormed) :
    (joined combiner call exit).liveNames = call.liveNames ++ exit.liveNames := by
  rw [joined, liveNames_combine combiner (hcall.setAll_of_isReserved (p := Vocabulary.inUc) rfl .tt)
      (hexit.setAll_of_isReserved (p := Vocabulary.inUx) rfl .tt),
    liveNames_setAll (p := Vocabulary.inUc) rfl (by decide),
    liveNames_setAll (p := Vocabulary.inUx) rfl (by decide)]

/-- What a return answers with are the unmarked results of the return applier. -/
theorem applyBinary_eq_ok {it : Interpreter} {combiner : Kleene → Kleene → Kleene}
    {i : ActionInstance} {call exit : Structure V} {point : ProgramPoint} {messages : Messages V}
    {rs : List (Structure V)}
    (hok : (it.applyBinary combiner i call exit point messages).2.2 = .ok rs) :
    ∃ outs, (it.ret.apply i (joined combiner call exit) point.label Messages.empty
        it.counted.statistics).2.2 = .ok outs ∧ rs = outs.map unmarked := by
  rw [applyBinary_snd_snd, apply_snd_snd] at hok
  cases hrun : (it.ret.apply i (joined combiner call exit) point.label Messages.empty
      it.counted.statistics).2.2 with
  | error e =>
    rw [show it.counted.applier .ret = it.ret from rfl, hrun] at hok
    cases hok
  | ok outs =>
    rw [show it.counted.applier .ret = it.ret from rfl, hrun] at hok
    cases hok
    exact ⟨outs, rfl, rfl⟩

/-- Returns give bounded structures, except where the action skips the pipeline.  Unless
the action is a skip, no two nodes of a result have the same canonical name, and so there
are at most as many nodes as names.  A skip gives one structure, and its names are those of
the call followed by those of the exit. -/
theorem applyBinary_names {it : Interpreter} (hit : it.Started)
    (combiner : Kleene → Kleene → Kleene) (i : ActionInstance) (call exit : Structure V)
    (hcall : call.WellFormed) (hexit : exit.WellFormed) (point : ProgramPoint)
    (messages : Messages V) (rs : List (Structure V))
    (hok : (it.applyBinary combiner i call exit point messages).2.2 = .ok rs) :
    (i.action.skip = false → ∀ r ∈ rs,
        r.canonicalNames.Nodup ∧ r.nodes.size ≤ 3 ^ V.abstraction.length) ∧
      (i.action.skip = true → ∃ r, rs = [r] ∧
        r.canonicalNames = call.liveNames ++ exit.liveNames) := by
  obtain ⟨outs, hrun, rfl⟩ := applyBinary_eq_ok hok
  constructor
  · intro hskip r hr
    obtain ⟨out, hout, rfl⟩ := List.mem_map.1 hr
    rw [Applier.eq_outcomes_of_apply hskip hrun] at hout
    obtain ⟨b, -, hb⟩ := List.mem_filterMap.1 hout
    have hnodup : (unmarked out).canonicalNames.Nodup := by
      have hout := Applier.nodup_canonicalNames_outcome hit.blur hb
      rw [canonicalNames_eq] at hout
      rw [canonicalNames_unmarked]
      exact hout.sublist (List.filter_sublist.map _)
    exact ⟨hnodup, length_nodes_le hnodup⟩
  · intro hskip
    obtain rfl : [joined combiner call exit] = outs := by
      simpa [Applier.apply, hskip] using hrun
    exact ⟨_, rfl, by rw [canonicalNames_unmarked, liveNames_joined combiner hcall hexit]⟩

/-- A return that forgets where `x` points. -/
def forgetCell : ActionInstance :=
  .ofAction { title := "x = null", updates := [⟨6, [0], .const .ff⟩] }

theorem applyBinary_names_cells :
    ∃ it rs, Interpreter.new .standard = .ok it ∧
      (Applier.oneCell .tt).WellFormed ∧ (Applier.oneCell .ff).WellFormed ∧
      (it.applyBinary Kleene.or forgetCell (Applier.oneCell .tt) (Applier.oneCell .ff) ⟨"p", []⟩
        .empty).2.2 = .ok rs ∧ rs ≠ [] ∧
      ∀ r ∈ rs, r.canonicalNames.Nodup ∧ r.nodes.size ≤ 3 := by
  obtain ⟨it, hit⟩ : ∃ it, Interpreter.new .standard = .ok it := ⟨_, rfl⟩
  obtain ⟨rs, hrs, hne⟩ : ∃ rs, (it.applyBinary Kleene.or forgetCell (Applier.oneCell .tt)
      (Applier.oneCell .ff) ⟨"p", []⟩ .empty).2.2 = .ok rs ∧ rs ≠ [] := by
    cases hit
    exact ⟨_, rfl, List.cons_ne_nil _ _⟩
  have htt : (Applier.oneCell .tt).WellFormed := by decide
  have hff : (Applier.oneCell .ff).WellFormed := by decide
  exact ⟨it, rs, hit, htt, hff, hrs, hne,
    (applyBinary_names (.new hit) Kleene.or forgetCell _ _ htt hff _ _ rs hrs).1 rfl⟩

/-- One node, and no predicate that could name it. -/
def loneNode : Structure Vocabulary.empty := newNodes 1 {}

/-- A skip on two structures of one node gives a structure of two nodes, which share the
only name there is. -/
theorem applyBinary_skip_grows :
    ∃ it, Interpreter.new .standard = .ok it ∧ loneNode.WellFormed ∧
      loneNode.canonicalNames.Nodup ∧
      ∃ r, (it.applyBinary Kleene.or .skip loneNode loneNode ⟨"p", []⟩ .empty).2.2 = .ok [r] ∧
        ¬ r.canonicalNames.Nodup ∧ ¬ r.nodes.size ≤ 3 ^ Vocabulary.empty.abstraction.length := by
  refine ⟨_, rfl, by decide, by decide, _, rfl, by decide, by decide⟩

end Interpreter

end ShapeAnalysis
