import Mathlib.Data.Finset.Lattice.Fold
import Mathlib.Logic.Function.Basic
import ShapeAnalysis.Proofs.Embedding
import ShapeAnalysis.Proofs.FreeVars

/-!
# The meaning of formulas

`meaning` gives a formula its value in an *environment*, a function that says which node a
variable has, if any.  It takes both operands of every connective through its table, and the
maximum and minimum over all nodes in the truth order.  Nothing is bound and put back: below
a quantifier the environment is another one.

Evaluation computes the meaning in the environment that its assignment reads as, and hands
the assignment back (`run_eq_meaning`).  The meaning depends on the environment only at the
free variables (`meaning_congr`, by induction on the formula), hence so does evaluation
(`freeVars_exact`).
-/

namespace ShapeAnalysis

/-! ## The truth order -/

namespace Kleene

theorem eq_of_toNat_eq {a b : Kleene} (h : a.toNat = b.toNat) : a = b := by
  revert h
  cases a <;> cases b <;> decide

/-- The truth order `ff < unknown < tt`.  It is not the information order `Kleene.le`. -/
instance : LinearOrder Kleene where
  le a b := a.toNat ≤ b.toNat
  lt a b := a.toNat < b.toNat
  le_refl a := Nat.le_refl a.toNat
  le_trans _ _ _ := Nat.le_trans
  lt_iff_le_not_ge a b := Nat.lt_iff_le_and_not_ge
  le_antisymm _ _ hab hba := eq_of_toNat_eq (Nat.le_antisymm hab hba)
  le_total a b := Nat.le_total a.toNat b.toNat
  toDecidableLE a b := inferInstanceAs (Decidable (a.toNat ≤ b.toNat))
  toDecidableLT a b := inferInstanceAs (Decidable (a.toNat < b.toNat))
  toDecidableEq := inferInstance
  min := and
  max := or
  min_def a b := by cases a <;> cases b <;> rfl
  max_def a b := by cases a <;> cases b <;> rfl
  compare_eq_compareOfLessAndEq a b := by cases a <;> cases b <;> rfl

instance : BoundedOrder Kleene where
  bot := ff
  top := tt
  bot_le a := Nat.zero_le a.toNat
  le_top a := by cases a <;> decide

/-- A fold that takes maxima is the maximum over the nodes of the list. -/
theorem foldl_sup_eq_sup {α : Type} [SemilatticeSup α] [OrderBot α] (g : Node → α)
    (l : List Node) (k : α) : (l.map g).foldl (· ⊔ ·) k = k ⊔ l.toFinset.sup g := by
  induction l generalizing k with
  | nil => exact (sup_bot_eq k).symm
  | cons n rest ih =>
    rw [List.map_cons, List.foldl_cons, ih, List.toFinset_cons, Finset.sup_insert, ← sup_assoc]

theorem foldl_or_eq_sup (g : Node → Kleene) (l : List Node) :
    (l.map g).foldl or .ff = l.toFinset.sup g :=
  (foldl_sup_eq_sup g l .ff).trans (bot_sup_eq _)

/-- In the dual order the minimum is a maximum. -/
theorem foldl_and_eq_inf (g : Node → Kleene) (l : List Node) :
    (l.map g).foldl and .tt = l.toFinset.inf g :=
  (foldl_sup_eq_sup (α := Kleeneᵒᵈ) g l .tt).trans (bot_sup_eq _)

end Kleene

namespace Structure

variable {V : Vocabulary}

/-- The nodes of a structure as a finite set. -/
def nodeSet (s : Structure V) : Finset Node := s.nodes.toList.toFinset

/-! ## Environments -/

/-- The value of an atom in an environment. -/
def atomMeaning (s : Structure V) (p : PredId) (vars : List Var) (env : Var → Option Node) :
    Kleene :=
  match vars.mapM env with
  | some t => s.value p t
  | none => .ff

/-- The value of an equation in an environment. -/
def eqMeaning (s : Structure V) (v w : Var) (env : Var → Option Node) : Kleene :=
  match env v, env w with
  | some m, some n => if m ≠ n then .ff else if s.isSummary m then .unknown else .tt
  | _, _ => .ff

/-- The value of a formula in an environment.  Without nodes a maximum is false and a minimum
is true. -/
def meaning (s : Structure V) : Formula PredId → (Var → Option Node) → Kleene
  | .const k, _ => k
  | .atom p vars, env => s.atomMeaning p vars env
  | .eq v w, env => s.eqMeaning v w env
  | .neg f, env => (meaning s f env).not
  | .and f g, env => (meaning s f env).and (meaning s g env)
  | .or f g, env => (meaning s f env).or (meaning s g env)
  | .imp f g, env => (meaning s f env).implies (meaning s g env)
  | .ex v f, env => s.nodeSet.sup fun n => meaning s f (Function.update env v (some n))
  | .all v f, env => s.nodeSet.inf fun n => meaning s f (Function.update env v (some n))
termination_by structural f => f

theorem get?_bind_eq_update (a : Assignment) (v : Var) (n : Node) :
    (a.bind v n).get? = Function.update a.get? v (some n) := by
  funext w
  rw [Assignment.get?_bind, Function.update_apply]

/-- The plain semantics over assignments reads them as environments. -/
theorem denote_eq_meaning (s : Structure V) (f : Formula PredId) (a : Assignment) :
    s.denote f a = s.meaning f a.get? := by
  induction f generalizing a with
  | const k => rfl
  | atom p vars => rfl
  | eq v w => rfl
  | neg f ih => rw [denote, meaning, ih]
  | and f g ihf ihg => rw [denote, meaning, ihf, ihg]
  | or f g ihf ihg => rw [denote, meaning, ihf, ihg]
  | imp f g ihf ihg => rw [denote, meaning, ihf, ihg]
  | ex v f ih =>
    simp only [denote, meaning, ih, get?_bind_eq_update]
    exact Kleene.foldl_or_eq_sup _ _
  | all v f ih =>
    simp only [denote, meaning, ih, get?_bind_eq_update]
    exact Kleene.foldl_and_eq_inf _ _

/-- Evaluation in one assignment, with its short cuts, computes the meaning of the formula in
the environment of the assignment.  It hands the assignment back as it was. -/
theorem run_eq_meaning (s : Structure V) (f : Formula PredId) (a : Assignment) :
    s.eval f a = s.meaning f a.get? ∧ s.run f a = (s.meaning f a.get?, a) := by
  rw [eval, run_eq, denote_eq_meaning]
  exact ⟨rfl, rfl⟩

-- The first conjunct binds the variable and stops at node 0, the second reads the old binding.
example : twoCells.eval (.and (.ex 0 (.atom 6 [0])) (.atom 6 [0])) (Assignment.empty.bind 0 1) =
    .ff := by
  decide

/-! ## What the meaning depends on -/

theorem mapM_congr {vars : List Var} {e e' : Var → Option Node} (h : ∀ v ∈ vars, e v = e' v) :
    vars.mapM e = vars.mapM e' := by
  induction vars with
  | nil => rfl
  | cons v rest ih =>
    obtain ⟨hv, hrest⟩ := List.forall_mem_cons.1 h
    rw [List.mapM_cons, List.mapM_cons, hv, ih hrest]

/-- Below a quantifier environments agree at the variable of the quantifier as well. -/
theorem update_eq_update {vars : List Var} {v : Var} {e e' : Var → Option Node}
    (h : ∀ w ∈ vars.filter fun w => w ≠ v, e w = e' w) (n : Node) :
    ∀ w ∈ vars, Function.update e v (some n) w = Function.update e' v (some n) w := by
  intro w hw
  by_cases hwv : w = v
  · rw [hwv, Function.update_self, Function.update_self]
  · rw [Function.update_of_ne hwv, Function.update_of_ne hwv]
    exact h w (List.mem_filter.2 ⟨hw, by simpa using hwv⟩)

/-- Environments that agree where a formula has free occurrences give it the same value. -/
theorem meaning_congr (s : Structure V) {f : Formula PredId} {e e' : Var → Option Node}
    (h : ∀ v ∈ f.occurrences, e v = e' v) : s.meaning f e = s.meaning f e' := by
  induction f generalizing e e' with
  | const k => rfl
  | atom p vars =>
    have hvars : vars.mapM e = vars.mapM e' := mapM_congr h
    rw [meaning, meaning, atomMeaning, atomMeaning, hvars]
  | eq v w =>
    have hv : e v = e' v := h v (by simp [Formula.occurrences])
    have hw : e w = e' w := h w (by simp [Formula.occurrences])
    rw [meaning, meaning, eqMeaning, eqMeaning, hv, hw]
  | neg f ih => rw [meaning, meaning, ih h]
  | and f g ihf ihg =>
    obtain ⟨hf, hg⟩ := List.forall_mem_append.1 h
    rw [meaning, meaning, ihf hf, ihg hg]
  | or f g ihf ihg =>
    obtain ⟨hf, hg⟩ := List.forall_mem_append.1 h
    rw [meaning, meaning, ihf hf, ihg hg]
  | imp f g ihf ihg =>
    obtain ⟨hf, hg⟩ := List.forall_mem_append.1 h
    rw [meaning, meaning, ihf hf, ihg hg]
  | ex v f ih =>
    rw [meaning, meaning]
    exact Finset.sup_congr rfl fun n _ => ih (update_eq_update h n)
  | all v f ih =>
    rw [meaning, meaning]
    exact Finset.inf_congr rfl fun n _ => ih (update_eq_update h n)

/-- Assignments that agree on the free variables of a formula give it the same value. -/
theorem eval_congr (s : Structure V) {f : Formula PredId} {a b : Assignment}
    (h : ∀ v ∈ f.freeVars, a.get? v = b.get? v) : s.eval f a = s.eval f b := by
  rw [eval_eq_denote, eval_eq_denote, denote_eq_meaning, denote_eq_meaning]
  exact s.meaning_congr fun v hv => h v (Formula.mem_freeVars.2 hv)

/-- The free variables of a formula are listed without repetition: they are the variables that
occur outside the scope of every quantifier on them, in the order of their first such
occurrences.  Evaluation depends on nothing else of an assignment than on how it binds them,
or leaves them unbound. -/
theorem freeVars_exact :
    (∀ (P : Type) (f : Formula P),
      f.freeVars.Nodup ∧ Formula.ListsFree (f.occurrencesBelow []) f.freeVars) ∧
    ∀ (V : Vocabulary) (s : Structure V) (f : Formula PredId) (a b : Assignment),
      (∀ v ∈ f.freeVars, a.get? v = b.get? v) → s.eval f a = s.eval f b :=
  ⟨fun _ f => ⟨f.nodup_freeVars, f.listsFree_freeVars⟩, fun _ s _ _ _ h => s.eval_congr h⟩

/-- Some cell is linked from `v0`, and `v1` is not linked to `v3`.  Variable 1 is quantified in
the first half and free in the second. -/
def linkedOnce : Formula PredId := .and (.ex 1 (.atom 7 [0, 1])) (.neg (.atom 7 [1, 3]))

theorem freeVars_exact_linkedOnce :
    linkedOnce.freeVars = [0, 1, 3] ∧
      Formula.firstFree (linkedOnce.occurrencesBelow []) 1 = 2 ∧
      (∀ v ∈ linkedOnce.freeVars, ((Assignment.empty.bind 0 0).bind 1 1).get? v =
        (((Assignment.empty.bind 0 0).bind 1 1).bind 2 0).get? v) ∧
      twoCells.eval linkedOnce ((Assignment.empty.bind 0 0).bind 1 1) =
        twoCells.eval linkedOnce (((Assignment.empty.bind 0 0).bind 1 1).bind 2 0) := by
  have hagree : ∀ v ∈ linkedOnce.freeVars, ((Assignment.empty.bind 0 0).bind 1 1).get? v =
      (((Assignment.empty.bind 0 0).bind 1 1).bind 2 0).get? v := by decide
  exact ⟨by decide, by decide, hagree, freeVars_exact.2 _ twoCells _ _ _ hagree⟩

end Structure

end ShapeAnalysis
