import ShapeAnalysis.Proofs.Returns

/-!
# Every branch is accounted for

A branch has one of three fates: it is frozen, coerce drops it, or it gives a structure
(`fate_cases`).  A run that answers has counted each of its branches under its fate, and
each focused structure that coerce dropped.

A run stops exactly if the policy says so and some branch breaks a constraint.  It then
stops with the error of the first such branch.  An interpreter hands that error on.  Of the
run it keeps the statistics, but no message, and it tells no listener.
-/

namespace ShapeAnalysis

namespace Applier

variable {V : Vocabulary}

/-! ## What becomes of a branch -/

section Fates

variable (ap : Applier) (act : Action PredId)

/-- A branch gives a structure, or coerce drops it, or it is frozen. -/
theorem fate_cases (b : Structure V × Assignment) :
    ((∃ r, ap.outcome? act b = some r) ∧ ap.breached act b = false ∧ ap.frozen act b = false) ∨
      (ap.outcome? act b = none ∧ ap.breached act b = true ∧ ap.frozen act b = false) ∨
      (ap.outcome? act b = none ∧ ap.breached act b = false ∧ ap.frozen act b = true) := by
  unfold outcome? breached
  cases ap.frozen act b with
  | true => simp
  | false =>
    cases ap.policy.coerceAfterUpdate with
    | false => simp
    | true => cases hfeasible : (updated act b.1 b.2).coerce.1 <;> simp [hfeasible]

theorem length_eq_fates (bs : List (Structure V × Assignment)) :
    bs.length = (bs.filterMap (ap.outcome? act)).length + bs.countP (ap.breached act) +
      bs.countP (ap.frozen act) := by
  induction bs with
  | nil => rfl
  | cons b bs ih =>
    rw [List.length_cons, List.filterMap_cons, List.countP_cons, List.countP_cons, ih]
    rcases ap.fate_cases act b with ⟨⟨r, hr⟩, hbreached, hfrozen⟩ |
      ⟨hout, hbreached, hfrozen⟩ | ⟨hout, hbreached, hfrozen⟩
    · simp only [hr, hbreached, hfrozen, List.length_cons, Bool.false_eq_true, if_false]
      omega
    · simp only [hout, hbreached, hfrozen, Bool.false_eq_true, if_false, if_true]
      omega
    · simp only [hout, hbreached, hfrozen, Bool.false_eq_true, if_false, if_true]
      omega

/-- Coerce after focus keeps a structure or drops it. -/
theorem length_eq_kept (ss : List (Structure V)) :
    ss.length = (ss.flatMap ap.kept).length + ss.countP ap.refused := by
  have hone : ∀ s : Structure V, (ap.kept s).length + (if ap.refused s then 1 else 0) = 1 := by
    intro s
    unfold refused kept
    cases ap.policy.coerceAfterFocus with
    | false => rfl
    | true => cases s.coerce.1 <;> rfl
  induction ss with
  | nil => rfl
  | cons s ss ih =>
    have hs := hone s
    rw [List.length_cons, List.flatMap_cons, List.length_append, List.countP_cons, ih]
    omega

end Fates

/-! ## The answer of a run -/

/-- What a run has counted when it answers. -/
structure Answered (ap : Applier) (act : Action PredId) (input : Structure V)
    (stats stats' : Statistics) (rs : List (Structure V)) : Prop where
  /-- One more action was applied. -/
  actions : stats'.actionsApplied = stats.actionsApplied + 1
  /-- A focused structure is kept, or it is counted. -/
  focused : stats.constraintBreaches + (ap.inputs act input).length =
    stats'.constraintBreaches + ((ap.inputs act input).flatMap ap.kept).length
  /-- The answer holds what the branches give, in order. -/
  results : rs = (ap.branches act input).filterMap (ap.outcome? act)
  /-- The structures of the answer are counted. -/
  structures : stats'.structures = stats.structures + rs.length
  /-- Branches that coerce dropped are counted. -/
  breaches : stats'.breachesAfterUpdate =
    stats.breachesAfterUpdate + (ap.branches act input).countP (ap.breached act)
  /-- Frozen branches are counted. -/
  frozen : stats'.messages = stats.messages + (ap.branches act input).countP (ap.frozen act)
  /-- There are no other branches. -/
  branches :
    stats.structures + stats.breachesAfterUpdate + stats.messages +
        (ap.branches act input).length =
      stats'.structures + stats'.breachesAfterUpdate + stats'.messages

/-- The counters where a run starts. -/
theorem counters_start (ap : Applier) (i : ActionInstance) (input : Structure V)
    (messages : Messages V) (stats : Statistics) :
    (ap.start i input messages stats).stats.counters =
      { stats with actionsApplied := stats.actionsApplied + 1 }.counters := by
  unfold start focused
  dsimp only
  split <;> rfl

section Run

variable {ap : Applier} {i : ActionInstance} {input : Structure V} {location : String}
  {messages : Messages V} {stats : Statistics}

theorem answered_of_accounts {q : Progress V}
    (h : ap.Accounts i.action (ap.inputs i.action input) (ap.branches i.action input)
      (ap.start i input messages stats) q) :
    ap.Answered i.action input stats q.stats q.results := by
  have hstart := ap.counters_start i input messages stats
  simp only [Statistics.counters, List.cons.injEq, Prod.mk.injEq, true_and, and_true] at hstart
  obtain ⟨hdropped, hbreaches, hfrozen, hstructures, hactions, -⟩ := hstart
  have hresults : q.results = (ap.branches i.action input).filterMap (ap.outcome? i.action) :=
    h.results
  have hkept := ap.length_eq_kept (ap.inputs i.action input)
  have hfates := ap.length_eq_fates i.action (ap.branches i.action input)
  rw [← hresults] at hfates
  have hsum := h.structures
  rw [hstructures, ← hresults] at hsum
  constructor
  case actions => rw [h.actions, hactions]
  case focused =>
    rw [h.dropped, hdropped]
    omega
  case results => exact hresults
  case structures => exact hsum
  case breaches => rw [h.breaches, hbreaches]
  case frozen => rw [h.frozen, hfrozen]
  case branches =>
    rw [hsum, h.breaches, hbreaches, h.frozen, hfrozen]
    omega

/-- The update of a branch that no message froze breaks a constraint. -/
def Faulty (ap : Applier) (act : Action PredId) (b : Structure V × Assignment) : Prop :=
  ap.frozen act b = false ∧ (updated act b.1 b.2).coerce.1 = false

/-- Where coerce is on whenever a failure stops the run, the branches that stop a run are
the faulty ones. -/
theorem breaks_iff (hcoerce : ap.policy.breakOnCoerceFailure = true →
    ap.policy.coerceAfterUpdate = true) {b : Structure V × Assignment} :
    ap.breaks i.action b = true ↔
      ap.policy.breakOnCoerceFailure = true ∧ ap.Faulty i.action b := by
  simp only [breaks, Faulty, Bool.and_eq_true, Bool.not_eq_true']
  constructor
  · rintro ⟨⟨⟨hbreak, -⟩, hfrozen⟩, hfails⟩
    exact ⟨hbreak, hfrozen, hfails⟩
  · rintro ⟨hbreak, hfrozen, hfails⟩
    exact ⟨⟨⟨hbreak, hcoerce hbreak⟩, hfrozen⟩, hfails⟩

/-- A run that stops does so at its first faulty branch. -/
theorem exists_first_faulty (hskip : i.action.skip = false)
    (hcoerce : ap.policy.breakOnCoerceFailure = true → ap.policy.coerceAfterUpdate = true)
    {e : Error} (h : (ap.apply i input location messages stats).2.2 = .error e) :
    ap.policy.breakOnCoerceFailure = true ∧
      ∃ before b after, ap.branches i.action input = before ++ b :: after ∧
        (∀ c ∈ before, ¬ ap.Faulty i.action c) ∧ ap.Faulty i.action b ∧
        e = .coerceAfterUpdate i.action.title location input.render
          (updated i.action b.1 b.2).coerce.2.render := by
  have hfirst : (ap.branches i.action input).findSome? (ap.breach? i input location) = some e := by
    rcases ap.apply_cases i input location messages stats hskip with
      ⟨e', he', herror⟩ | ⟨-, q, hq, -⟩
    · rw [herror] at h
      cases h
      exact he'
    · rw [hq] at h
      cases h
  obtain ⟨before, b, after, hsplit, hb, hbefore⟩ := List.findSome?_eq_some_iff.1 hfirst
  obtain ⟨hbreaks, he⟩ := ap.breach?_eq_some i input location hb
  obtain ⟨hflag, hfaulty⟩ := (breaks_iff hcoerce).1 hbreaks
  refine ⟨hflag, before, b, after, hsplit, fun c hc hfaulty' => ?_, hfaulty, he⟩
  have hc' := (ap.breach?_eq_none_iff i input location).1 (hbefore c hc)
  rw [(breaks_iff hcoerce).2 ⟨hflag, hfaulty'⟩] at hc'
  cases hc'

/-- A run that answers has counted everything. -/
theorem answered_of_apply (hskip : i.action.skip = false) {rs : List (Structure V)}
    (h : (ap.apply i input location messages stats).2.2 = .ok rs) :
    ap.Answered i.action input stats (ap.apply i input location messages stats).1 rs := by
  rcases ap.apply_cases i input location messages stats hskip with
    ⟨e, -, herror⟩ | ⟨-, q, hq, haccounts⟩
  · rw [herror] at h
    cases h
  · rw [hq] at h ⊢
    cases h
    exact answered_of_accounts haccounts

end Run

end Applier

/-! ## What an interpreter makes of a stop -/

namespace Interpreter

variable {V : Vocabulary}

/-- Where the pipeline stops, only the statistics of the interpreter change. -/
theorem apply_of_error {it : Interpreter} {role : Role} {i : ActionInstance}
    {input : Structure V} {point : ProgramPoint} {messages : Messages V} {e : Error}
    (h : ((it.applier role).apply i input point.label .empty it.statistics).2.2 = .error e) :
    it.apply role i input point messages =
      ({ it with statistics :=
          ((it.applier role).apply i input point.label .empty it.statistics).1 },
        messages, .error e) := by
  unfold apply
  dsimp only
  rw [h]

/-- A return stops where its pipeline does. -/
theorem applyBinary_eq_error_iff {it : Interpreter} {combiner : Kleene → Kleene → Kleene}
    {i : ActionInstance} {call exit : Structure V} {point : ProgramPoint}
    {messages : Messages V} {e : Error} :
    (it.applyBinary combiner i call exit point messages).2.2 = .error e ↔
      (it.ret.apply i (joined combiner call exit) point.label .empty
        it.counted.statistics).2.2 = .error e := by
  rw [applyBinary_snd_snd, apply_snd_snd, show it.counted.applier .ret = it.ret from rfl]
  cases (it.ret.apply i (joined combiner call exit) point.label .empty
    it.counted.statistics).2.2 with
  | error e' => exact Iff.rfl
  | ok outs => constructor <;> intro h <;> cases h

theorem applyBinary_of_error {it : Interpreter} {combiner : Kleene → Kleene → Kleene}
    {i : ActionInstance} {call exit : Structure V} {point : ProgramPoint}
    {messages : Messages V} {e : Error}
    (h : (it.ret.apply i (joined combiner call exit) point.label .empty
      it.counted.statistics).2.2 = .error e) :
    it.applyBinary combiner i call exit point messages =
      ({ it with statistics := (it.ret.apply i (joined combiner call exit) point.label .empty
          it.counted.statistics).1 }, messages, .error e) := by
  have happly : it.counted.apply .ret i (joined combiner call exit) point messages =
      ({ it with statistics := (it.ret.apply i (joined combiner call exit) point.label .empty
          it.counted.statistics).1 }, messages, .error e) := apply_of_error h
  unfold applyBinary
  exact congrArg (fun r => (r.1, r.2.1, r.2.2.map (·.map unmarked))) happly

end Interpreter

namespace Applier

open Structure Interpreter

variable {V : Vocabulary}

/-- No branch of a run disappears unaccounted.  A run stops exactly if the policy says so
and some branch is faulty, and then with the error of the first faulty branch.  A run that
answers has counted every focused structure that was dropped, and every branch under what
became of it.  An interpreter that runs the applier hands the error on and changes nothing
but its statistics. -/
theorem branches_accounted {role : Role} {policy : Policy} {ap : Applier}
    (hap : Applier.new role policy = .ok ap) (i : ActionInstance)
    (hskip : i.action.skip = false) (input : Structure V) (location : String)
    (messages : Messages V) (stats : Statistics) :
    ((∃ e, (ap.apply i input location messages stats).2.2 = .error e) ↔
        ap.policy.breakOnCoerceFailure = true ∧
          ∃ b ∈ ap.branches i.action input, ap.Faulty i.action b) ∧
      (∀ e, (ap.apply i input location messages stats).2.2 = .error e →
        ∃ before b after, ap.branches i.action input = before ++ b :: after ∧
          (∀ c ∈ before, ¬ ap.Faulty i.action c) ∧ ap.Faulty i.action b ∧
          e = .coerceAfterUpdate i.action.title location input.render
            (updated i.action b.1 b.2).coerce.2.render) ∧
      (∀ rs, (ap.apply i input location messages stats).2.2 = .ok rs →
        ap.Answered i.action input stats (ap.apply i input location messages stats).1 rs) ∧
      ∀ it : Interpreter,
        (∀ r, it.applier r = ap → ∀ point (told : Messages V) e,
          ((it.apply r i input point told).2.2 = .error e ↔
            (ap.apply i input point.label .empty it.statistics).2.2 = .error e) ∧
          ((it.apply r i input point told).2.2 = .error e →
            it.apply r i input point told =
              ({ it with statistics :=
                  (ap.apply i input point.label .empty it.statistics).1 }, told, .error e))) ∧
        (it.ret = ap → ∀ combiner (call exit : Structure V) point (told : Messages V) e,
          ((it.applyBinary combiner i call exit point told).2.2 = .error e ↔
            (ap.apply i (joined combiner call exit) point.label .empty
              it.counted.statistics).2.2 = .error e) ∧
          ((it.applyBinary combiner i call exit point told).2.2 = .error e →
            it.applyBinary combiner i call exit point told =
              ({ it with statistics := (ap.apply i (joined combiner call exit) point.label .empty
                  it.counted.statistics).1 }, told, .error e))) := by
  obtain ⟨rfl, -, -, hcoerce⟩ := new_eq_ok_iff.1 hap
  refine ⟨⟨?_, ?_⟩, fun e he => (exists_first_faulty hskip hcoerce he).2,
    fun rs hrs => answered_of_apply hskip hrs, fun it => ⟨?_, ?_⟩⟩
  · rintro ⟨e, he⟩
    obtain ⟨hflag, before, b, after, hsplit, -, hfaulty, -⟩ :=
      exists_first_faulty hskip hcoerce he
    refine ⟨hflag, b, ?_, hfaulty⟩
    rw [hsplit]
    exact List.mem_append_right _ List.mem_cons_self
  · rintro ⟨hflag, b, hb, hfaulty⟩
    obtain ⟨e, he, -⟩ := exists_apply_eq_error _ i input location messages stats hskip hb
      ((breaks_iff hcoerce).2 ⟨hflag, hfaulty⟩)
    exact ⟨e, he⟩
  · intro r hr point told e
    have hiff : (it.apply r i input point told).2.2 = .error e ↔
        ((it.applier r).apply i input point.label .empty it.statistics).2.2 = .error e := by
      rw [apply_snd_snd]
    rw [← hr]
    exact ⟨hiff, fun he => apply_of_error (hiff.1 he)⟩
  · intro hret combiner call exit point told e
    rw [← hret]
    exact ⟨applyBinary_eq_error_iff, fun he =>
      applyBinary_of_error (applyBinary_eq_error_iff.1 he)⟩

/-- Two cells with loops, where a constraint gives a loop to the cell of `x`. -/
def loopedCells : Structure cellVocabulary :=
  let s := newNodes 2 { constraints := [.new (.atom 6 [0]) (.atom 7 [0, 0])] }
  ((s.set 6 [1] .tt).set 7 [0, 0] .tt).set 7 [1, 1] .tt

/-- Cut the link of a cell that has a loop. -/
def unlinkCell : ActionInstance :=
  .ofAction {
    title := "cut"
    precondition := some (.atom 7 [0, 0])
    updates := [⟨7, [1, 2], .and (.atom 7 [1, 2]) (.neg (.eq 1 0))⟩] }

/-- There is a branch for either cell, and the one that cuts the link of `x` is faulty. -/
theorem branches_accounted_cells :
    ∃ tolerant strict rs, Applier.new .intra {} = .ok tolerant ∧
      Applier.new .intra { breakOnCoerceFailure := true } = .ok strict ∧
      unlinkCell.action.skip = false ∧
      (tolerant.apply unlinkCell loopedCells "p" .empty {}).2.2 = .ok rs ∧ rs.length = 1 ∧
      (tolerant.apply unlinkCell loopedCells "p" .empty {}).1.structures = 1 ∧
      (tolerant.apply unlinkCell loopedCells "p" .empty {}).1.breachesAfterUpdate = 1 ∧
      (tolerant.branches unlinkCell.action loopedCells).length = 2 ∧
      ∃ e, (strict.apply unlinkCell loopedCells "p" .empty {}).2.2 = .error e := by
  obtain ⟨tolerant, htolerant⟩ : ∃ ap, Applier.new .intra {} = .ok ap := ⟨_, rfl⟩
  obtain ⟨strict, hstrict⟩ :
      ∃ ap, Applier.new .intra { breakOnCoerceFailure := true } = .ok ap := ⟨_, rfl⟩
  obtain ⟨hstops, -⟩ := branches_accounted hstrict unlinkCell rfl loopedCells "p" .empty {}
  obtain ⟨hgoes, -, hanswers, -⟩ :=
    branches_accounted htolerant unlinkCell rfl loopedCells "p" .empty {}
  cases htolerant
  cases hstrict
  obtain ⟨rs, hrs⟩ : ∃ rs, (Applier.apply ⟨.intra, {}⟩ unlinkCell loopedCells "p" .empty
      {}).2.2 = .ok rs := by
    cases h : (Applier.apply ⟨.intra, {}⟩ unlinkCell loopedCells "p" .empty {}).2.2 with
    | error e => exact absurd (hgoes.1 ⟨e, h⟩).1 (by decide)
    | ok rs => exact ⟨rs, rfl⟩
  have hanswer := hanswers rs hrs
  have hlength : rs.length = 1 := by
    rw [hanswer.results]
    decide
  refine ⟨_, _, rs, rfl, rfl, rfl, hrs, hlength, ?_, ?_, by decide, hstops.2 ⟨rfl, ?_⟩⟩
  · rw [hanswer.structures, hlength]
  · rw [hanswer.breaches]
    decide
  · unfold Faulty
    decide

end Applier

end ShapeAnalysis
