import Mathlib.Data.List.Induction
import Mathlib.Data.List.Nodup
import ShapeAnalysis.Formula.Basic

/-!
# Free variables

`freeVars` walks over a formula with the variables that were noted so far and the quantifiers
it is below.  What it notes are the free occurrences, read from left to right, each variable
at its first one (`freeVars_eq`).
-/

namespace ShapeAnalysis

namespace Formula

variable {P : Type}

/-- The free occurrences of variables, from left to right. -/
def occurrences : Formula P → List Var
  | const _ => []
  | atom _ vars => vars
  | eq v w => [v, w]
  | neg f => occurrences f
  | and f g => occurrences f ++ occurrences g
  | or f g => occurrences f ++ occurrences g
  | imp f g => occurrences f ++ occurrences g
  | ex v f => (occurrences f).filter fun w => w ≠ v
  | all v f => (occurrences f).filter fun w => w ≠ v

/-- Below a quantifier nothing but its variable is passed over. -/
theorem foldl_noteVar_cons (v : Var) (bound seen vars : List Var) :
    vars.foldl (noteVar (v :: bound)) seen =
      (vars.filter fun w => w ≠ v).foldl (noteVar bound) seen := by
  rw [List.foldl_filter]
  congr 1
  funext seen w
  by_cases hw : w = v
  · simp [noteVar, hw]
  · simp [noteVar, hw]

theorem noteFree_eq (f : Formula P) (bound seen : List Var) :
    noteFree bound seen f = f.occurrences.foldl (noteVar bound) seen := by
  induction f generalizing bound seen with
  | const k => rfl
  | atom p vars => rfl
  | eq v w => rfl
  | neg f ih => exact ih bound seen
  | and f g ihf ihg => rw [noteFree, ihf, ihg, occurrences, List.foldl_append]
  | or f g ihf ihg => rw [noteFree, ihf, ihg, occurrences, List.foldl_append]
  | imp f g ihf ihg => rw [noteFree, ihf, ihg, occurrences, List.foldl_append]
  | ex v f ih => rw [noteFree, ih, occurrences, foldl_noteVar_cons]
  | all v f ih => rw [noteFree, ih, occurrences, foldl_noteVar_cons]

/-- Noting variables keeps the first occurrence of each one that is new. -/
theorem foldl_noteVar (seen vars : List Var) :
    vars.foldl (noteVar []) seen = seen ++ (vars.filter fun v => v ∉ seen).eraseDups := by
  induction vars generalizing seen with
  | nil => simp
  | cons v rest ih =>
    rw [List.foldl_cons, ih]
    by_cases hv : v ∈ seen
    · simp [noteVar, hv]
    · have hrest : rest.filter (fun w => w ∉ seen ++ [v]) =
          (rest.filter fun w => w ∉ seen).filter fun w => !w == v := by
        rw [List.filter_filter]
        refine List.filter_congr fun w _ => ?_
        by_cases hw : w = v <;> simp [hw]
      have hnote : noteVar [] seen v = seen ++ [v] := by simp [noteVar, hv]
      rw [hnote, hrest, List.filter_cons_of_pos (by simpa using hv), List.eraseDups_cons,
        List.append_assoc, List.singleton_append]

/-- The free variables are the free occurrences without repetition. -/
theorem freeVars_eq (f : Formula P) : f.freeVars = f.occurrences.eraseDups := by
  rw [freeVars, noteFree_eq, foldl_noteVar]
  simp

-- A variable may be free in one place and quantified in another.
example : (and (ex 1 (atom 0 [1, 0])) (atom 0 [1]) : Formula Nat).freeVars = [0, 1] := by
  decide

theorem mem_freeVars {f : Formula P} {v : Var} : v ∈ f.freeVars ↔ v ∈ f.occurrences := by
  rw [freeVars_eq, List.mem_eraseDups]

theorem nodup_noteVar {bound seen : List Var} (h : seen.Nodup) (v : Var) :
    (noteVar bound seen v).Nodup := by
  unfold noteVar
  split
  · exact h
  · rename_i hv
    exact List.nodup_append_comm.1 (List.nodup_cons.2 ⟨fun hs => hv (.inr hs), h⟩)

theorem nodup_freeVars (f : Formula P) : f.freeVars.Nodup := by
  rw [freeVars, noteFree_eq]
  exact List.foldlRecOn _ _ List.nodup_nil fun seen hseen v _ => nodup_noteVar hseen v

/-! ## Occurrences in their scopes -/

/-- An occurrence of a variable as an argument. -/
structure Occurrence where
  /-- The variable. -/
  var : Var
  /-- The variables of the quantifiers around it, innermost first. -/
  scope : List Var

/-- The occurrence is one of `v`, outside the scope of every quantifier on `v`. -/
def Occurrence.FreeAt (o : Occurrence) (v : Var) : Prop := o.var = v ∧ v ∉ o.scope

instance (o : Occurrence) (v : Var) : Decidable (o.FreeAt v) := inferInstanceAs (Decidable (_ ∧ _))

/-- The occurrences of variables, from left to right, in a formula below some quantifiers. -/
def occurrencesBelow (scope : List Var) : Formula P → List Occurrence
  | const _ => []
  | atom _ vars => vars.map fun v => ⟨v, scope⟩
  | eq v w => [⟨v, scope⟩, ⟨w, scope⟩]
  | neg f => occurrencesBelow scope f
  | and f g => occurrencesBelow scope f ++ occurrencesBelow scope g
  | or f g => occurrencesBelow scope f ++ occurrencesBelow scope g
  | imp f g => occurrencesBelow scope f ++ occurrencesBelow scope g
  | ex v f => occurrencesBelow (v :: scope) f
  | all v f => occurrencesBelow (v :: scope) f

/-- Where the first free occurrence of a variable stands in a list. -/
def firstFree (os : List Occurrence) (v : Var) : Nat := os.findIdx fun o => o.FreeAt v

/-- The list `vars` has exactly the variables that occur free in `os`, in the order of their
first free occurrences. -/
structure ListsFree (os : List Occurrence) (vars : List Var) : Prop where
  /-- They are the variables with a free occurrence. -/
  mem_iff : ∀ v, v ∈ vars ↔ ∃ o ∈ os, o.FreeAt v
  /-- Each comes before those whose first free occurrence is later. -/
  ordered : vars.Pairwise fun v w => firstFree os v < firstFree os w

theorem noteFree_eq_foldl (f : Formula P) (bound seen : List Var) :
    noteFree bound seen f =
      (f.occurrencesBelow bound).foldl (fun seen o => noteVar o.scope seen o.var) seen := by
  induction f generalizing bound seen with
  | const k => rfl
  | atom p vars => rw [noteFree, occurrencesBelow, List.foldl_map]
  | eq v w => rfl
  | neg f ih => exact ih bound seen
  | and f g ihf ihg => rw [noteFree, ihf, ihg, occurrencesBelow, List.foldl_append]
  | or f g ihf ihg => rw [noteFree, ihf, ihg, occurrencesBelow, List.foldl_append]
  | imp f g ihf ihg => rw [noteFree, ihf, ihg, occurrencesBelow, List.foldl_append]
  | ex v f ih => exact ih (v :: bound) seen
  | all v f ih => exact ih (v :: bound) seen

theorem firstFree_lt_length {os : List Occurrence} {v : Var} :
    firstFree os v < os.length ↔ ∃ o ∈ os, o.FreeAt v := by
  simp [firstFree, List.findIdx_lt_length]

theorem firstFree_append (os os' : List Occurrence) (v : Var) :
    firstFree (os ++ os') v =
      if ∃ o ∈ os, o.FreeAt v then firstFree os v else firstFree os' v + os.length := by
  simp only [← firstFree_lt_length]
  exact List.findIdx_append

/-- One more occurrence changes the list at most at its end. -/
theorem ListsFree.concat {os : List Occurrence} {vars : List Var} (h : ListsFree os vars)
    (o : Occurrence) : ListsFree (os ++ [o]) (noteVar o.scope vars o.var) := by
  -- What occurred free before has its place from before.
  have hold : ∀ v ∈ vars, firstFree (os ++ [o]) v = firstFree os v := fun v hv => by
    rw [firstFree_append, if_pos ((h.mem_iff v).1 hv)]
  have hordered : vars.Pairwise fun v w => firstFree (os ++ [o]) v < firstFree (os ++ [o]) w :=
    h.ordered.imp_of_mem fun hv hw hlt => by rwa [hold _ hv, hold _ hw]
  have hfree : ∀ v, (∃ d ∈ os ++ [o], d.FreeAt v) ↔ v ∈ vars ∨ o.FreeAt v := fun v => by
    rw [h.mem_iff]
    simp [or_and_right, exists_or]
  unfold noteVar
  split
  · rename_i hnot
    refine ⟨fun v => ?_, hordered⟩
    rw [hfree]
    refine ⟨.inl, fun hv => hv.elim id fun hov => ?_⟩
    obtain ⟨rfl, hscope⟩ := hov
    exact hnot.resolve_left hscope
  · rename_i hnew
    rw [not_or] at hnew
    refine ⟨fun v => ?_, List.pairwise_append.2 ⟨hordered, List.pairwise_singleton _ _, ?_⟩⟩
    · rw [hfree, List.mem_append, List.mem_singleton]
      refine or_congr_right ⟨?_, fun hov => hov.1.symm⟩
      rintro rfl
      exact ⟨rfl, hnew.1⟩
    · -- The new variable has its first free occurrence at the end.
      intro v hv w hw
      rw [List.mem_singleton.1 hw, hold v hv, firstFree_append,
        if_neg fun hos => hnew.2 ((h.mem_iff _).2 hos)]
      exact Nat.lt_add_left _ (firstFree_lt_length.2 ((h.mem_iff v).1 hv))

theorem listsFree_foldl (os : List Occurrence) :
    ListsFree os (os.foldl (fun seen o => noteVar o.scope seen o.var) []) := by
  induction os using List.reverseRecOn with
  | nil => exact ⟨fun v => by simp, .nil⟩
  | append_singleton os o ih =>
    rw [List.foldl_append]
    exact ih.concat o

/-- The free variables are the variables that occur outside the scope of every quantifier on
them, in the order of their first such occurrences. -/
theorem listsFree_freeVars (f : Formula P) : ListsFree (f.occurrencesBelow []) f.freeVars := by
  rw [freeVars, noteFree_eq_foldl]
  exact listsFree_foldl _

end Formula

end ShapeAnalysis
