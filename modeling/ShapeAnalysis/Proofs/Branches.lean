import Mathlib.Data.List.Basic
import ShapeAnalysis.Pipeline.Applier

/-!
# The branches of a run

A *branch* is a structure that was focused and passed coerce, with one of the
assignments of the precondition there.  A run of the pipeline goes through its branches
in order.  It stops at the first one that breaks a constraint after its update, when the
policy says so.  Every branch before reports its messages and then is frozen, is dropped,
or gives one structure.

`Accounts` says what a part of a run adds to the progress: results, messages and counters,
all in terms of the branches it went through.  It is proved for one branch
(`branch_cases`).  Runs of parts add up (`runAll_cases`), so it holds for the branches of
a focused structure, and for the whole run (`apply_cases`).
-/

namespace ShapeAnalysis

namespace Applier

variable {V : Vocabulary}

/-! ## Branches -/

/-- The structures that the input is split into. -/
def inputs (ap : Applier) (act : Action PredId) (input : Structure V) : List (Structure V) :=
  if ap.policy.focus && !act.focus.isEmpty then input.focus act.focus else [input]

/-- What coerce after focus leaves of a structure. -/
def kept (ap : Applier) (s : Structure V) : List (Structure V) :=
  if ap.policy.coerceAfterFocus then (if s.coerce.1 then [s.coerce.2] else []) else [s]

/-- Whether coerce after focus drops a structure. -/
def refused (ap : Applier) (s : Structure V) : Bool := (ap.kept s).isEmpty

/-- The branches of a structure that was focused. -/
def branchesOf (ap : Applier) (act : Action PredId) (s : Structure V) :
    List (Structure V × Assignment) :=
  (ap.kept s).flatMap fun s => (act.assignments s).map (s, ·)

/-- The branches of a run, in order. -/
def branches (ap : Applier) (act : Action PredId) (input : Structure V) :
    List (Structure V × Assignment) :=
  (ap.inputs act input).flatMap (ap.branchesOf act)

/-- Whether a message drops a branch. -/
def frozen (ap : Applier) (act : Action PredId) (b : Structure V × Assignment) : Bool :=
  ap.policy.freezeOnMessages && !(act.report b.1 b.2).isEmpty

/-- Whether coerce after update drops a branch. -/
def breached (ap : Applier) (act : Action PredId) (b : Structure V × Assignment) : Bool :=
  ap.policy.coerceAfterUpdate && !ap.frozen act b && !(updated act b.1 b.2).coerce.1

/-- Whether a run stops at a branch. -/
def breaks (ap : Applier) (act : Action PredId) (b : Structure V × Assignment) : Bool :=
  ap.policy.breakOnCoerceFailure && ap.policy.coerceAfterUpdate && !ap.frozen act b &&
    !(updated act b.1 b.2).coerce.1

/-- The error that a run stops with at a branch, if it does. -/
def breach? (ap : Applier) (i : ActionInstance) (input : Structure V) (location : String)
    (b : Structure V × Assignment) : Option Error :=
  if ap.breaks i.action b then
    some (.coerceAfterUpdate i.action.title location input.render
      (updated i.action b.1 b.2).coerce.2.render)
  else none

/-- The structure that a branch gives, if any. -/
def outcome? (ap : Applier) (act : Action PredId) (b : Structure V × Assignment) :
    Option (Structure V) :=
  let blurred (s : Structure V) := if ap.policy.blur then s.blur else s
  let post := updated act b.1 b.2
  if ap.frozen act b then none
  else if ap.policy.coerceAfterUpdate then
    (if post.coerce.1 then some (blurred post.coerce.2) else none)
  else some (blurred post)

/-! ## Accounts -/

/-- What is added between two moments of a run that went through the focused structures
`ss` and the branches `bs` without a stop. -/
structure Accounts (ap : Applier) (act : Action PredId) (ss : List (Structure V))
    (bs : List (Structure V × Assignment)) (p q : Progress V) : Prop where
  /-- A branch adds the structure it gives. -/
  results : q.results = p.results ++ bs.filterMap (ap.outcome? act)
  /-- A branch reports its messages, whatever becomes of it. -/
  messages : q.messages = bs.foldl (fun m b => m.add b.1 (act.report b.1 b.2)) p.messages
  /-- Structures that were given are counted. -/
  structures : q.stats.structures =
    p.stats.structures + (bs.filterMap (ap.outcome? act)).length
  /-- Branches that coerce drops are counted. -/
  breaches : q.stats.breachesAfterUpdate =
    p.stats.breachesAfterUpdate + bs.countP (ap.breached act)
  /-- Frozen branches are counted. -/
  frozen : q.stats.messages = p.stats.messages + bs.countP (ap.frozen act)
  /-- Focused structures that coerce drops are counted. -/
  dropped : q.stats.constraintBreaches = p.stats.constraintBreaches + ss.countP ap.refused
  /-- No other action is applied. -/
  actions : q.stats.actionsApplied = p.stats.actionsApplied

namespace Accounts

variable {ap : Applier} {act : Action PredId} {p q r : Progress V} {ss ss' : List (Structure V)}
  {bs bs' : List (Structure V × Assignment)}

theorem refl (p : Progress V) : ap.Accounts act [] [] p p := by
  constructor <;> simp

theorem trans (h : ap.Accounts act ss bs p q) (h' : ap.Accounts act ss' bs' q r) :
    ap.Accounts act (ss ++ ss') (bs ++ bs') p r where
  results := by rw [h'.results, h.results, List.filterMap_append, List.append_assoc]
  messages := by rw [h'.messages, h.messages, List.foldl_append]
  structures := by
    rw [h'.structures, h.structures, List.filterMap_append, List.length_append, Nat.add_assoc]
  breaches := by rw [h'.breaches, h.breaches, List.countP_append, Nat.add_assoc]
  frozen := by rw [h'.frozen, h.frozen, List.countP_append, Nat.add_assoc]
  dropped := by rw [h'.dropped, h.dropped, List.countP_append, Nat.add_assoc]
  actions := h'.actions.trans h.actions

end Accounts

section Run

variable (ap : Applier) (i : ActionInstance) (input : Structure V) (location : String)

/-! ## One branch -/

theorem breach?_eq_none_iff {b : Structure V × Assignment} :
    ap.breach? i input location b = none ↔ ap.breaks i.action b = false := by
  simp [breach?]

theorem breach?_eq_some {b : Structure V × Assignment} {e : Error}
    (h : ap.breach? i input location b = some e) :
    ap.breaks i.action b = true ∧ e = .coerceAfterUpdate i.action.title location input.render
      (updated i.action b.1 b.2).coerce.2.render := by
  unfold breach? at h
  split at h
  · cases h
    exact ⟨‹_›, rfl⟩
  · cases h

/-- A branch records its messages and then is frozen or finished. -/
theorem branch_eq (b : Structure V × Assignment) (p : Progress V) :
    ap.branch i input location b.1 b.2 p =
      let q : Progress V := { p with messages := p.messages.add b.1 (i.action.report b.1 b.2) }
      if ap.frozen i.action b then
        ({ q with stats := { q.stats with messages := q.stats.messages + 1 } }, none)
      else ap.finishBranch i input location b.1 b.2 q := by
  unfold branch frozen
  cases hfired : i.action.report b.1 b.2 with
  | nil => simp [Messages.add]
  | cons text texts => simp

/-- What is left after the update is blurred and counted. -/
theorem accounts_emit {act : Action PredId} {b : Structure V × Assignment} {p q : Progress V}
    {s : Structure V} (hresults : q.results = p.results)
    (hmessages : q.messages = p.messages.add b.1 (act.report b.1 b.2))
    (hcounts : q.stats.counters = p.stats.counters) (hfrozen : ap.frozen act b = false)
    (hbreached : ap.breached act b = false)
    (hout : ap.outcome? act b = some (if ap.policy.blur then s.blur else s)) :
    ap.Accounts act [] [b] p (ap.emit q s) := by
  simp only [Statistics.counters, List.cons.injEq, Prod.mk.injEq, true_and, and_true] at hcounts
  obtain ⟨hdropped, hbreaches, hmessages', hstructures, hactions, -⟩ := hcounts
  unfold emit
  cases hblur : ap.policy.blur <;>
    constructor <;>
    simp_all [Statistics.tick, Statistics.record]

/-- A branch either stops the run or is accounted for. -/
theorem branch_cases (b : Structure V × Assignment) (p : Progress V) :
    (ap.branch i input location b.1 b.2 p).2 = ap.breach? i input location b ∧
      (ap.breach? i input location b = none →
        ap.Accounts i.action [] [b] p (ap.branch i input location b.1 b.2 p).1) := by
  rw [branch_eq]
  dsimp only
  cases hfrozen : ap.frozen i.action b with
  | true =>
    have hnone : ap.breach? i input location b = none := by simp [breach?, breaks, hfrozen]
    rw [if_pos rfl, hnone]
    refine ⟨rfl, fun _ => ?_⟩
    constructor <;> simp [outcome?, breached, hfrozen]
  | false =>
    rw [if_neg Bool.false_ne_true]
    unfold finishBranch
    dsimp only
    cases hcoerce : ap.policy.coerceAfterUpdate with
    | false =>
      have hnone : ap.breach? i input location b = none := by simp [breach?, breaks, hcoerce]
      rw [hnone]
      refine ⟨rfl, fun _ => ap.accounts_emit rfl rfl rfl hfrozen ?_ ?_⟩
      · simp [breached, hcoerce]
      · simp [outcome?, hfrozen, hcoerce]
    | true =>
      rcases hpost : (updated i.action b.1 b.2).coerce with ⟨feasible, post⟩
      cases feasible with
      | true =>
        have hnone : ap.breach? i input location b = none := by simp [breach?, breaks, hpost]
        rw [hnone]
        refine ⟨rfl, fun _ => ap.accounts_emit rfl rfl rfl hfrozen ?_ ?_⟩
        · simp [breached, hpost]
        · simp [outcome?, hfrozen, hcoerce, hpost]
      | false =>
        have hbreached : ap.breached i.action b = true := by
          simp [breached, hfrozen, hcoerce, hpost]
        cases hbreak : ap.policy.breakOnCoerceFailure with
        | true => simp [breach?, breaks, hfrozen, hcoerce, hpost, hbreak]
        | false =>
          have hnone : ap.breach? i input location b = none := by simp [breach?, breaks, hbreak]
          rw [hnone]
          refine ⟨rfl, fun _ => ?_⟩
          constructor <;> simp [outcome?, hbreached, hfrozen, hcoerce, hpost, Statistics.tick,
            Statistics.record]

/-! ## Runs add up -/

/-- Where every step stops with its error or is accounted for, a run stops with the first
error or is accounted for as a whole. -/
theorem runAll_cases {α : Type} {act : Action PredId}
    {step : α → Progress V → Progress V × Option Error} {stop : α → Option Error}
    {ss : α → List (Structure V)} {bs : α → List (Structure V × Assignment)}
    (xs : List α)
    (h : ∀ x p, (step x p).2 = stop x ∧
      (stop x = none → ap.Accounts act (ss x) (bs x) p (step x p).1)) (p : Progress V) :
    (runAll step xs p).2 = xs.findSome? stop ∧
      (xs.findSome? stop = none →
        ap.Accounts act (xs.flatMap ss) (xs.flatMap bs) p (runAll step xs p).1) := by
  induction xs generalizing p with
  | nil => exact ⟨rfl, fun _ => .refl p⟩
  | cons x xs ih =>
    obtain ⟨hstop, haccounts⟩ := h x p
    rcases hstep : step x p with ⟨q, o⟩
    rw [hstep] at hstop haccounts
    dsimp only at hstop haccounts
    rw [runAll, hstep, List.findSome?_cons, ← hstop]
    cases o with
    | some e => exact ⟨rfl, fun hnone => nomatch hnone⟩
    | none =>
      obtain ⟨hrest, haccounts'⟩ := ih q
      exact ⟨hrest, fun hnone => (haccounts hstop.symm).trans (haccounts' hnone)⟩

/-- The branches of a focused structure run in order, once it is kept. -/
theorem runBranches_cases {s s' : Structure V} (hkept : ap.kept s = [s']) {p q : Progress V}
    (hq : ap.Accounts i.action [s] [] p q) :
    (runAll (ap.branch i input location s') (i.action.assignments s') q).2 =
        (ap.branchesOf i.action s).findSome? (ap.breach? i input location) ∧
      ((ap.branchesOf i.action s).findSome? (ap.breach? i input location) = none →
        ap.Accounts i.action [s] (ap.branchesOf i.action s) p
          (runAll (ap.branch i input location s') (i.action.assignments s') q).1) := by
  have hbranches : ap.branchesOf i.action s = (i.action.assignments s').map (s', ·) := by
    rw [branchesOf, hkept, List.flatMap_singleton]
  obtain ⟨hstop, haccounts⟩ := ap.runAll_cases (i.action.assignments s')
    (fun a q => ap.branch_cases i input location (s', a) q) q
  have hnil : ((i.action.assignments s').flatMap fun _ => []) = ([] : List (Structure V)) :=
    List.flatMap_eq_nil_iff.2 fun _ _ => rfl
  rw [hnil, ← List.map_eq_flatMap] at haccounts
  rw [hbranches, List.findSome?_map]
  exact ⟨hstop, fun hnone => hq.trans (haccounts hnone)⟩

/-- A focused structure is dropped, or its branches run in order. -/
theorem runFocused_cases (s : Structure V) (p : Progress V) :
    (ap.runFocused i input location s p).2 =
        (ap.branchesOf i.action s).findSome? (ap.breach? i input location) ∧
      ((ap.branchesOf i.action s).findSome? (ap.breach? i input location) = none →
        ap.Accounts i.action [s] (ap.branchesOf i.action s) p
          (ap.runFocused i input location s p).1) := by
  unfold runFocused
  dsimp only
  cases hcoerce : ap.policy.coerceAfterFocus with
  | false =>
    have hkept : ap.kept s = [s] := by simp [kept, hcoerce]
    refine ap.runBranches_cases i input location hkept ?_
    constructor <;> simp [refused, hkept, Statistics.tick, Statistics.record]
  | true =>
    rcases hfeasible : s.coerce with ⟨feasible, s'⟩
    cases feasible with
    | true =>
      have hkept : ap.kept s = [s'] := by simp [kept, hcoerce, hfeasible]
      refine ap.runBranches_cases i input location hkept ?_
      constructor <;> simp [refused, hkept, Statistics.tick, Statistics.record]
    | false =>
      have hkept : ap.kept s = [] := by simp [kept, hcoerce, hfeasible]
      have hbranches : ap.branchesOf i.action s = [] := by simp [branchesOf, hkept]
      rw [hbranches]
      refine ⟨rfl, fun _ => ?_⟩
      constructor <;> simp [refused, hkept, Statistics.tick, Statistics.record]

/-! ## The whole run -/

theorem findSome?_flatMap {α β γ : Type} (f : α → List β) (g : β → Option γ) (xs : List α) :
    (xs.flatMap f).findSome? g = xs.findSome? fun x => (f x).findSome? g := by
  induction xs with
  | nil => rfl
  | cons x xs ih =>
    rw [List.flatMap_cons, List.findSome?_append, List.findSome?_cons, ih]
    cases (f x).findSome? g <;> rfl

variable (messages : Messages V) (stats : Statistics)

/-- Where a run starts. -/
def start : Progress V where
  stats := (ap.focused i.action input
    { stats with actionsApplied := stats.actionsApplied + 1 }).1
  messages := messages

/-- A run stops with the first error of its branches, or it goes through all of them. -/
theorem apply_cases (hskip : i.action.skip = false) :
    (∃ e, (ap.branches i.action input).findSome? (ap.breach? i input location) = some e ∧
        (ap.apply i input location messages stats).2.2 = .error e) ∨
      (ap.branches i.action input).findSome? (ap.breach? i input location) = none ∧
        ∃ q : Progress V,
          ap.apply i input location messages stats = (q.stats, q.messages, .ok q.results) ∧
          ap.Accounts i.action (ap.inputs i.action input) (ap.branches i.action input)
            (ap.start i input messages stats) q := by
  have hinputs : ∀ st : Statistics,
      (ap.focused i.action input st).2 = ap.inputs i.action input := by
    intro st
    unfold focused inputs
    split <;> rfl
  obtain ⟨hstop, haccounts⟩ := ap.runAll_cases (ap.inputs i.action input)
    (ap.runFocused_cases i input location) (ap.start i input messages stats)
  rw [List.flatMap_singleton', ← branches, ← findSome?_flatMap, ← branches] at haccounts
  rw [← findSome?_flatMap, ← branches] at hstop
  rcases hrun : runAll (ap.runFocused i input location) (ap.inputs i.action input)
    (ap.start i input messages stats) with ⟨q, o⟩
  rw [hrun] at hstop haccounts
  dsimp only at hstop haccounts
  unfold start at hrun
  unfold apply
  rw [if_neg (by simp [hskip])]
  dsimp only
  rw [hinputs, hrun]
  cases o with
  | some e => exact .inl ⟨e, hstop.symm, rfl⟩
  | none => exact .inr ⟨hstop.symm, q, rfl, haccounts hstop.symm⟩

theorem findSome?_breach?_eq_none_iff {bs : List (Structure V × Assignment)} :
    bs.findSome? (ap.breach? i input location) = none ↔
      ∀ b ∈ bs, ap.breaks i.action b = false := by
  rw [List.findSome?_eq_none_iff]
  exact forall₂_congr fun _ _ => ap.breach?_eq_none_iff i input location

/-- Unless a branch breaks, a run goes through all branches. -/
theorem exists_accounts (hskip : i.action.skip = false)
    (h : ∀ b ∈ ap.branches i.action input, ap.breaks i.action b = false) :
    ∃ q : Progress V,
      ap.apply i input location messages stats = (q.stats, q.messages, .ok q.results) ∧
      ap.Accounts i.action (ap.inputs i.action input) (ap.branches i.action input)
        (ap.start i input messages stats) q := by
  rcases ap.apply_cases i input location messages stats hskip with ⟨e, he, -⟩ | ⟨-, hrun⟩
  · rw [(ap.findSome?_breach?_eq_none_iff i input location).2 h] at he
    cases he
  · exact hrun

/-- Unless a branch breaks, a run records the messages of its branches, in order. -/
theorem messages_apply (hskip : i.action.skip = false)
    (h : ∀ b ∈ ap.branches i.action input, ap.breaks i.action b = false) :
    (ap.apply i input location messages stats).2.1 = (ap.branches i.action input).foldl
      (fun m b => m.add b.1 (i.action.report b.1 b.2)) messages := by
  obtain ⟨q, heq, haccounts⟩ := ap.exists_accounts i input location messages stats hskip h
  rw [heq]
  exact haccounts.messages

/-- Unless a branch breaks, a run answers with what its branches give, in order. -/
theorem apply_eq_ok (hskip : i.action.skip = false)
    (h : ∀ b ∈ ap.branches i.action input, ap.breaks i.action b = false) :
    (ap.apply i input location messages stats).2.2 =
      .ok ((ap.branches i.action input).filterMap (ap.outcome? i.action)) := by
  obtain ⟨q, heq, haccounts⟩ := ap.exists_accounts i input location messages stats hskip h
  rw [heq]
  exact congrArg Except.ok haccounts.results

/-- The errors that a run can stop with. -/
def IsBreach (i : ActionInstance) (input : Structure V) (location : String) (e : Error) : Prop :=
  ∃ output, e = .coerceAfterUpdate i.action.title location input.render output

/-- A branch that breaks stops the run. -/
theorem exists_apply_eq_error (hskip : i.action.skip = false) {b : Structure V × Assignment}
    (hb : b ∈ ap.branches i.action input) (h : ap.breaks i.action b = true) :
    ∃ e, (ap.apply i input location messages stats).2.2 = .error e ∧
      IsBreach i input location e := by
  rcases ap.apply_cases i input location messages stats hskip with ⟨e, he, herror⟩ | ⟨hnone, -⟩
  · obtain ⟨b', -, hb'⟩ := List.exists_of_findSome?_eq_some he
    exact ⟨e, herror, _, (ap.breach?_eq_some i input location hb').2⟩
  · rw [ap.findSome?_breach?_eq_none_iff i input location] at hnone
    rw [hnone b hb] at h
    cases h

variable {ap i input location messages stats} in
/-- The structures that a run answers with are what its branches give. -/
theorem eq_outcomes_of_apply (hskip : i.action.skip = false) {rs : List (Structure V)}
    (hok : (ap.apply i input location messages stats).2.2 = .ok rs) :
    rs = (ap.branches i.action input).filterMap (ap.outcome? i.action) := by
  rcases ap.apply_cases i input location messages stats hskip with ⟨e, -, herror⟩ | ⟨-, q, heq, hq⟩
  · rw [hok] at herror
    cases herror
  · rw [heq] at hok
    cases hok
    exact hq.results

end Run

end Applier

end ShapeAnalysis
