import Mathlib.Data.Finset.Max
import ShapeAnalysis.Proofs.Coerce
import ShapeAnalysis.Proofs.Meaning
import ShapeAnalysis.Proofs.Solutions

/-!
# Closed heads

The variables that are free in the head of a constraint and not in its body are quantified
universally, in front of the head.  So the head that is kept is free in variables of the body
only, and it takes the minimum over the ways to bind the others (`isLeast_eval_close`, by
induction on the variables).

Coerce evaluates a head at assignments to the free variables of the body.  `coerce?` is coerce
that refuses a head with an unbound variable, and on constraints that were closed it never
does (`coerce?_eq`).
-/

namespace ShapeAnalysis

/-! ## Free variables -/

theorem Formula.mem_freeVars_of_literal {f : Formula PredId} {l : Formula.Literal PredId}
    (hl : f.literal? = some l) {v : Var} (hv : v ∈ l.vars) : v ∈ f.freeVars := by
  rw [mem_freeVars]
  cases f with
  | atom p vars =>
    cases hl
    exact hv
  | neg g =>
    cases g with
    | atom p vars =>
      cases hl
      exact hv
    | _ => cases hl
  | _ => cases hl

namespace Constraint

/-- The free variables of the head are free in the body. -/
def HeadClosed (k : Constraint) : Prop := ∀ v ∈ k.head.freeVars, v ∈ k.body.freeVars

theorem occurrences_close (vars : List Var) (f : Formula PredId) :
    (close vars f).occurrences = f.occurrences.filter fun v => v ∉ vars := by
  induction vars with
  | nil => simp [close]
  | cons v rest ih =>
    have hcons : close (v :: rest) f = .all v (close rest f) := rfl
    rw [hcons, Formula.occurrences, ih, List.filter_filter]
    refine List.filter_congr fun w _ => ?_
    simp

/-- Of the free variables of a head those stay free that are free in the body. -/
theorem mem_freeVars_head_new {body head : Formula PredId} {v : Var} :
    v ∈ (new body head).head.freeVars ↔ v ∈ head.freeVars ∧ v ∈ body.freeVars := by
  have hhead : (new body head).head =
      close (head.freeVars.filter fun w => w ∉ body.freeVars) head := rfl
  rw [hhead, Formula.mem_freeVars, occurrences_close, List.mem_filter, ← Formula.mem_freeVars]
  refine and_congr_right fun hv => ?_
  simp [hv]

-- A variable of the head alone is quantified, in front of the whole head.
example : (new (.atom 6 [0]) (.neg (.atom 7 [0, 1]))).head = .all 1 (.neg (.atom 7 [0, 1])) := by
  decide

theorem headClosed_new (body head : Formula PredId) : (new body head).HeadClosed :=
  fun _ hv => (mem_freeVars_head_new.1 hv).2

end Constraint

namespace Structure

open Constraint

variable {V : Vocabulary}

/-! ## The value of a closed formula -/

theorem mem_extensions_iff_extends {s : Structure V} {vars : List Var} {a b : Assignment} :
    b ∈ extensions s.nodes.toList vars a ↔ b.Extends a vars s.nodes := by
  rw [mem_extensions]
  exact ⟨fun h => ⟨h.1, h.2⟩, fun h => ⟨h.bound, h.others⟩⟩

theorem eval_all (s : Structure V) (v : Var) (f : Formula PredId) (a : Assignment) :
    s.eval (.all v f) a = s.nodeSet.inf fun n => s.eval f (a.bind v n) := by
  simp only [eval_eq_denote, denote]
  exact Kleene.foldl_and_eq_inf _ _

/-- What lies below the value of a closed formula lies below its value at every way to bind
the variables. -/
theorem le_eval_close_iff (s : Structure V) (vars : List Var) (f : Formula PredId)
    (a : Assignment) (k : Kleene) :
    k ≤ s.eval (close vars f) a ↔
      ∀ b ∈ extensions s.nodes.toList vars a, k ≤ s.eval f b := by
  induction vars generalizing a with
  | nil => simp [close, extensions]
  | cons v rest ih =>
    have hcons : close (v :: rest) f = .all v (close rest f) := rfl
    simp only [hcons, eval_all, Finset.le_inf_iff, nodeSet, List.mem_toFinset, ih, extensions,
      List.forall_mem_flatMap]

/-- A closed formula has the minimum of its values over the ways to bind the variables, true
where there is none. -/
theorem isLeast_eval_close (s : Structure V) (vars : List Var) (f : Formula PredId)
    (a : Assignment) :
    IsLeast (insert .tt {k | ∃ b : Assignment, b.Extends a vars s.nodes ∧ s.eval f b = k})
      (s.eval (close vars f) a) := by
  have hle := s.le_eval_close_iff vars f a
  constructor
  · by_cases hnone : extensions s.nodes.toList vars a = []
    · have htop : .tt ≤ s.eval (close vars f) a := (hle _).2 (by simp [hnone])
      exact .inl (le_antisymm le_top htop)
    · -- The value is attained where it is smallest.
      obtain ⟨b, hb, hmin⟩ := (extensions s.nodes.toList vars a).toFinset.exists_min_image
        (s.eval f) (List.toFinset_nonempty_iff _ |>.2 hnone)
      rw [List.mem_toFinset] at hb
      refine .inr ⟨b, mem_extensions_iff_extends.1 hb, le_antisymm ?_ ((hle _).1 le_rfl b hb)⟩
      exact (hle _).2 fun c hc => hmin c (List.mem_toFinset.2 hc)
  · rintro k (rfl | ⟨b, hb, rfl⟩)
    · exact le_top
    · exact (hle _).1 le_rfl b (mem_extensions_iff_extends.2 hb)

/-! ## Unbound variables of heads -/

/-- Demand a head, unless one of its free variables is unbound. -/
def demand? (s : Structure V) (head : Formula PredId) (a : Assignment) :
    Option (Sharpening × Structure V) :=
  if ∀ v ∈ head.freeVars, (a.get? v).isSome then some (s.demand head a) else none

/-- Demand a head at each assignment of a list, if its free variables are bound. -/
def demandAll? (head : Formula PredId) :
    List Assignment → Sharpening → Structure V → Option (Sharpening × Structure V)
  | [], acc, s => some (acc, s)
  | a :: rest, acc, s => do
    match ← s.demand? head a with
    | (.violated, s') => some (.violated, s')
    | (.stable, s') => demandAll? head rest acc s'
    | (.changed, s') => demandAll? head rest .changed s'

/-- One pass over constraints, if it meets no unbound variable of a head. -/
def coercePass? :
    List Constraint → Sharpening → Structure V → Option (Sharpening × Structure V)
  | [], acc, s => some (acc, s)
  | k :: rest, acc, s => do
    match ← demandAll? k.head (s.triggers k) acc s with
    | (.violated, s') => some (.violated, s')
    | (acc', s') => coercePass? rest acc' s'

/-- Passes until one changes nothing, if none meets an unbound variable of a head. -/
def coerceLoop? : Nat → Structure V → Option (Bool × Structure V)
  | 0, s => some (true, s)
  | fuel + 1, s => do
    match ← coercePass? s.constraints .stable s with
    | (.violated, s') => some (false, s')
    | (.stable, s') => some (true, s')
    | (.changed, s') => coerceLoop? fuel s'

/-- Sharpen a structure, if no head is evaluated with an unbound variable. -/
def coerce? (s : Structure V) : Option (Bool × Structure V) :=
  coerceLoop? (s.unknownAtoms.length + 1) s

theorem demandAll?_eq {head : Formula PredId} {as : List Assignment}
    (h : ∀ a ∈ as, ∀ v ∈ head.freeVars, (a.get? v).isSome) (acc : Sharpening) (s : Structure V) :
    demandAll? head as acc s = some (demandAll head as acc s) := by
  induction as generalizing acc s with
  | nil => rfl
  | cons a rest ih =>
    have hrest := ih fun b hb => h b (List.mem_cons_of_mem _ hb)
    have hdemand : s.demand? head a = some (s.demand head a) := if_pos (h a List.mem_cons_self)
    simp only [demandAll?, demandAll, hdemand, Option.bind_eq_bind, Option.bind_some, hrest]
    obtain ⟨outcome, t⟩ := s.demand head a
    cases outcome <;> rfl

/-- A closed head is evaluated with its variables bound. -/
theorem isSome_of_mem_triggers {k : Constraint} (hk : k.HeadClosed) {s : Structure V}
    {a : Assignment} (ha : a ∈ s.triggers k) : ∀ v ∈ k.head.freeVars, (a.get? v).isSome :=
  fun v hv => ((mem_triggers.1 ha).1.bound v).2 (hk v hv)

theorem coercePass?_eq {ks : List Constraint} (h : ∀ k ∈ ks, k.HeadClosed) (acc : Sharpening)
    (s : Structure V) : coercePass? ks acc s = some (coercePass ks acc s) := by
  induction ks generalizing acc s with
  | nil => rfl
  | cons k rest ih =>
    have hrest := ih fun l hl => h l (List.mem_cons_of_mem _ hl)
    have hall := demandAll?_eq
      (fun a ha => isSome_of_mem_triggers (h k List.mem_cons_self) (s := s) ha) acc s
    simp only [coercePass?, coercePass, hall, Option.bind_eq_bind, Option.bind_some, hrest]
    obtain ⟨outcome, t⟩ := demandAll k.head (s.triggers k) acc s
    cases outcome <;> rfl

theorem coerceLoop?_eq (fuel : Nat) {s : Structure V} (h : ∀ k ∈ s.constraints, k.HeadClosed) :
    coerceLoop? fuel s = some (coerceLoop fuel s) := by
  induction fuel generalizing s with
  | zero => rfl
  | succ fuel ih =>
    have hnext := (coercePass_spec s.constraints .stable s).1.constraints
    simp only [coerceLoop?, coerceLoop, coercePass?_eq h, Option.bind_eq_bind, Option.bind_some]
    cases hpass : coercePass s.constraints .stable s with
    | mk outcome s' =>
      rw [hpass] at hnext
      cases outcome with
      | violated => rfl
      | stable => rfl
      | changed => exact ih (hnext ▸ h)

/-- Coerce meets no unbound variable of a closed head. -/
theorem coerce?_eq {s : Structure V} (h : ∀ k ∈ s.constraints, k.HeadClosed) :
    s.coerce? = some s.coerce :=
  coerceLoop?_eq _ h

end Structure

namespace Constraint

open Structure

/-- The head of a constraint is closed correctly.  The head that is kept has those free
variables of the given one that are free in the body.  It takes the smallest value of the given
head over the ways to bind the others to nodes, and true if there is no way.  If it is a
literal, its variables are free in the body.  So coerce never meets an unbound variable in the
head of a constraint. -/
theorem head_closed :
    (∀ body head : Formula PredId,
      (new body head).body = body ∧
      (∀ v, v ∈ (new body head).head.freeVars ↔ v ∈ head.freeVars ∧ v ∈ body.freeVars) ∧
      (∀ (V : Vocabulary) (s : Structure V) (a : Assignment),
        IsLeast (insert .tt {k | ∃ b : Assignment,
            b.Extends a (head.freeVars.filter fun v => v ∉ body.freeVars) s.nodes ∧
              s.eval head b = k})
          (s.eval (new body head).head a)) ∧
      ∀ l, (new body head).head.literal? = some l → ∀ v ∈ l.vars, v ∈ body.freeVars) ∧
    ∀ (V : Vocabulary) (s : Structure V),
      (∀ k ∈ s.constraints, ∃ body head, k = new body head) → s.coerce? = some s.coerce := by
  constructor
  · intro body head
    refine ⟨rfl, fun v => mem_freeVars_head_new, fun V s a => s.isLeast_eval_close _ head a, ?_⟩
    intro l hl v hv
    exact headClosed_new body head v (Formula.mem_freeVars_of_literal hl hv)
  · intro V s hnew
    refine s.coerce?_eq fun k hk => ?_
    obtain ⟨body, head, rfl⟩ := hnew k hk
    exact headClosed_new body head

/-- What lies behind a link is not pointed to by `x`.  The head is a literal on a variable of
the body. -/
theorem head_closed_linkedCells :
    (new (.atom 7 [0, 1]) (.neg (.atom 6 [1]))).head.literal? = some ⟨6, [1], false⟩ ∧
      1 ∈ (Formula.atom 7 [0, 1] : Formula PredId).freeVars ∧
      (∀ k ∈ linkedCells.constraints, ∃ body head, k = new body head) ∧
      linkedCells.coerce? = some linkedCells.coerce := by
  have hliteral : (new (.atom 7 [0, 1]) (.neg (.atom 6 [1]))).head.literal? =
      some ⟨6, [1], false⟩ := by decide
  have hnew : ∀ k ∈ linkedCells.constraints, ∃ body head, k = new body head :=
    fun k hk => ⟨_, _, List.mem_singleton.1 hk⟩
  obtain ⟨hclosed, hcoerce⟩ := head_closed
  obtain ⟨-, -, -, hbound⟩ := hclosed (.atom 7 [0, 1]) (.neg (.atom 6 [1]))
  exact ⟨hliteral, hbound _ hliteral 1 List.mem_cons_self, hnew, hcoerce _ linkedCells hnew⟩

end Constraint

end ShapeAnalysis
