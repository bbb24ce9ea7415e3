import ShapeAnalysis.Structure.Eval
import ShapeAnalysis.Proofs.Assignment
import ShapeAnalysis.Proofs.Kleene

/-!
# The plain semantics of formulas

`denote` gives a formula its value without short cuts: both operands of a
connective count, and a quantifier takes the maximum or minimum over all nodes.
Evaluation stops early and passes one assignment along, and it still computes
this value and hands the assignment back as it was (`run_eq`).

`solutions` lists the assignments on which a formula is not false.  What it
lists is said by `mem_solutions`, in terms of assignments to the free variables.
-/

namespace ShapeAnalysis

namespace Structure

variable {V : Vocabulary}

/-- The value of a formula by the tables of the connectives, with the maximum
and the minimum over all nodes for the quantifiers. -/
def denote (s : Structure V) : Formula PredId → Assignment → Kleene
  | .const k, _ => k
  | .atom p vars, a => s.atomValue a p vars
  | .eq v w, a => s.equal a v w
  | .neg f, a => (denote s f a).not
  | .and f g, a => (denote s f a).and (denote s g a)
  | .or f g, a => (denote s f a).or (denote s g a)
  | .imp f g, a => (denote s f a).implies (denote s g a)
  | .ex v f, a => (s.nodes.toList.map fun n => denote s f (a.bind v n)).foldl .or .ff
  | .all v f, a => (s.nodes.toList.map fun n => denote s f (a.bind v n)).foldl .and .tt
termination_by structural f => f

/-! ## Evaluation computes the plain semantics -/

/-- A sweep folds the values of all nodes when the body hands its assignment
back and `stop` absorbs.  It may leave another node at its variable, and nothing
else changes. -/
theorem sweep_eq {body : Assignment → Kleene × Assignment} {value : Assignment → Kleene}
    (hbody : ∀ b, body b = (value b, b)) {combine : Kleene → Kleene → Kleene} {stop : Kleene}
    (hstop : ∀ k, combine stop k = stop) {v : Var} {a : Assignment} (nodes : List Node)
    (acc : Kleene) {b : Assignment} (hb : ∀ n, b.bind v n = a.bind v n) :
    (sweep body combine stop v nodes acc b).1 =
        (nodes.map fun n => value (a.bind v n)).foldl combine acc ∧
      ∀ n, (sweep body combine stop v nodes acc b).2.bind v n = a.bind v n := by
  induction nodes generalizing acc b with
  | nil => exact ⟨rfl, hb⟩
  | cons m rest ih =>
    have hkeep : ∀ n, (a.bind v m).bind v n = a.bind v n := fun n => a.bind_bind v m n
    simp only [sweep, hbody, hb m, List.map_cons, List.foldl_cons]
    split
    · rename_i hacc
      refine ⟨?_, hkeep⟩
      -- Once the value is `stop`, the nodes that are left do not change it.
      have hrest : ∀ l : List Kleene, l.foldl combine stop = stop := by
        intro l
        induction l with
        | nil => rfl
        | cons k l ihl => rw [List.foldl_cons, hstop, ihl]
      rw [hacc, hrest]
    · exact ih _ hkeep

theorem restore_eq {v : Var} {a b : Assignment} (hb : ∀ n, b.bind v n = a.bind v n) :
    restore v (a.get? v) b = a := by
  apply Assignment.ext_get?
  intro w
  by_cases hw : w = v
  · subst hw
    cases h : a.get? w <;> simp [restore]
  · -- Away from `v` the two read alike, as any binding of `v` shows.
    have hread := congrArg (fun c => c.get? w) (hb 0)
    simp only [Assignment.get?_bind, hw, if_false] at hread
    cases h : a.get? v <;> simp [restore, hw, hread]

/-- Evaluation gives the plain value and hands back the assignment it got. -/
theorem run_eq (s : Structure V) (f : Formula PredId) (a : Assignment) :
    s.run f a = (s.denote f a, a) := by
  induction f generalizing a with
  | const k => rfl
  | atom p vars => rfl
  | eq v w => rfl
  | neg f ih => simp [run, denote, ih]
  | and f g ihf ihg =>
    simp only [run, denote, ihf, ihg]
    split
    · rename_i h
      rw [h]
      cases s.denote g a <;> rfl
    · rfl
  | or f g ihf ihg =>
    simp only [run, denote, ihf, ihg]
    split
    · rename_i h
      rw [h]
      cases s.denote g a <;> rfl
    · rfl
  | imp f g ihf ihg =>
    simp only [run, denote, ihf, ihg]
    split
    · rename_i h
      rw [h]
      cases s.denote g a <;> rfl
    · rfl
  | ex v f ih =>
    have hstop : ∀ k, Kleene.or .tt k = .tt := fun k => by cases k <;> rfl
    obtain ⟨hval, hkeep⟩ :=
      sweep_eq (fun b => ih b) hstop s.nodes.toList .ff (v := v) (a := a) fun _ => rfl
    simp only [run, denote, hval, restore_eq hkeep]
  | all v f ih =>
    have hstop : ∀ k, Kleene.and .ff k = .ff := fun k => by cases k <;> rfl
    obtain ⟨hval, hkeep⟩ :=
      sweep_eq (fun b => ih b) hstop s.nodes.toList .tt (v := v) (a := a) fun _ => rfl
    simp only [run, denote, hval, restore_eq hkeep]

theorem eval_eq_denote (s : Structure V) (f : Formula PredId) (a : Assignment) :
    s.eval f a = s.denote f a := by
  rw [eval, run_eq]

/-- The value of an atom at a tuple of its variables. -/
theorem denote_atom {s : Structure V} {a : Assignment} {p : PredId} {vars : List Var}
    {t : List Node} (h : a.tuple? vars = some t) : s.denote (.atom p vars) a = s.value p t := by
  simp [denote, atomValue, h]

/-! ## The assignments that are listed -/

theorem mem_extensions {nodes : List Node} {vars : List Var} {a b : Assignment} :
    b ∈ extensions nodes vars a ↔
      (∀ v ∈ vars, ∃ n ∈ nodes, b.get? v = some n) ∧ ∀ v, v ∉ vars → b.get? v = a.get? v := by
  induction vars generalizing a with
  | nil =>
    simp only [extensions, List.mem_singleton, List.not_mem_nil, not_false_eq_true, forall_const]
    constructor
    · rintro rfl
      exact ⟨fun v hv => absurd hv (by simp), fun v => rfl⟩
    · rintro ⟨-, h⟩
      exact Assignment.ext_get? h
  | cons v rest ih =>
    simp only [extensions, List.mem_flatMap, ih]
    constructor
    · rintro ⟨n, hn, hbound, hfree⟩
      refine ⟨fun w hw => ?_, fun w hw => ?_⟩
      · by_cases hwr : w ∈ rest
        · exact hbound w hwr
        · have hwv : w = v := (List.mem_cons.1 hw).resolve_right hwr
          exact ⟨n, hn, by rw [hfree w hwr]; simp [hwv]⟩
      · have hwr : w ∉ rest := fun h => hw (List.mem_cons_of_mem _ h)
        have hwv : w ≠ v := fun h => hw (h ▸ List.mem_cons_self)
        rw [hfree w hwr]
        simp [hwv]
    · rintro ⟨hbound, hfree⟩
      obtain ⟨n, hn, hbv⟩ := hbound v List.mem_cons_self
      refine ⟨n, hn, fun w hw => hbound w (List.mem_cons_of_mem _ hw), fun w hw => ?_⟩
      by_cases hwv : w = v
      · simp [hwv, hbv]
      · rw [hfree w (by simp [hwv, hw])]
        simp [hwv]

theorem within_of_mem_extensions {s : Structure V} {vars : List Var} {a b : Assignment}
    (ha : a.Within s.nodes) (hb : b ∈ extensions s.nodes.toList vars a) : b.Within s.nodes := by
  obtain ⟨hbound, hfree⟩ := mem_extensions.1 hb
  intro v n hn
  by_cases hv : v ∈ vars
  · obtain ⟨m, hm, hvm⟩ := hbound v hv
    rw [hn] at hvm
    cases hvm
    exact hm
  · rw [hfree v hv] at hn
    exact ha v n hn

theorem mem_solutions_iff {s : Structure V} {f : Formula PredId} {a b : Assignment} {k : Kleene} :
    (b, k) ∈ s.solutions f a ↔
      b ∈ extensions s.nodes.toList (f.freeVars.filter fun v => !a.binds v) a ∧
        s.eval f b = k ∧ k ≠ .ff := by
  simp only [solutions, List.mem_filterMap]
  constructor
  · rintro ⟨c, hc, h⟩
    split at h
    · cases h
    · rename_i hne
      cases h
      exact ⟨hc, rfl, hne⟩
  · rintro ⟨hb, rfl, hne⟩
    exact ⟨b, hb, if_neg hne⟩

theorem within_of_mem_solutions {s : Structure V} {f : Formula PredId} {a b : Assignment}
    {k : Kleene} (ha : a.Within s.nodes) (hb : (b, k) ∈ s.solutions f a) : b.Within s.nodes :=
  within_of_mem_extensions ha (mem_solutions_iff.1 hb).1

/-- Where nothing is bound yet, the variables that get bound are those of the list. -/
theorem mem_extensions_empty {nodes : SortedSet Node} {vars : List Var} {a : Assignment} :
    a ∈ extensions nodes.toList vars .empty ↔ a.Assigns vars nodes := by
  rw [mem_extensions]
  constructor
  · rintro ⟨hbound, hfree⟩
    constructor
    · intro v n hn
      by_cases hv : v ∈ vars
      · obtain ⟨m, hm, hvm⟩ := hbound v hv
        rw [hn] at hvm
        cases hvm
        exact hm
      · rw [hfree v hv] at hn
        cases hn
    · intro v
      by_cases hv : v ∈ vars
      · obtain ⟨n, -, hn⟩ := hbound v hv
        simp [hn, hv]
      · simp [hfree v hv, hv]
  · intro h
    refine ⟨fun v hv => ?_, fun v hv => ?_⟩
    · obtain ⟨n, hn⟩ := Option.isSome_iff_exists.1 ((h.bound v).2 hv)
      exact ⟨n, h.within v n hn, hn⟩
    · have hnone := mt (h.bound v).1 hv
      simpa using hnone

theorem mem_solutions {s : Structure V} {f : Formula PredId} {a : Assignment} {k : Kleene} :
    (a, k) ∈ s.solutions f .empty ↔
      a.Assigns f.freeVars s.nodes ∧ s.denote f a = k ∧ k ≠ .ff := by
  have hunbound : (f.freeVars.filter fun v => !Assignment.empty.binds v) = f.freeVars := by
    simp [Assignment.binds]
  rw [mem_solutions_iff, hunbound, mem_extensions_empty, eval_eq_denote]

end Structure

end ShapeAnalysis
