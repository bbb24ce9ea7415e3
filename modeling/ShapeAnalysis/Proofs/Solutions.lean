import ShapeAnalysis.Proofs.FreeVars
import ShapeAnalysis.Proofs.Semantics

/-!
# What is listed for a formula

`solutions` binds the free variables that an assignment leaves unbound.  It lists every way
to bind them on which the formula is not false, once and in lexicographic order.

The listing can be made in a single assignment, in which the quantifiers of the formula
bind and unbind as well, perhaps the same variables.  A call of it hands back the
assignment it was given (`enumerate_eq`), since evaluation does and since the listing only
binds what was unbound.  So what one entry leaves behind does not reach the next one.
-/

namespace ShapeAnalysis

/-- The free variables that an assignment leaves unbound, in the order of their first free
occurrence. -/
def Formula.openVars (f : Formula PredId) (a : Assignment) : List Var :=
  f.occurrences.eraseDups.filter fun v => !a.binds v

theorem Formula.openVars_eq (f : Formula PredId) (a : Assignment) :
    f.openVars a = f.freeVars.filter fun v => !a.binds v := by
  rw [openVars, freeVars_eq]

theorem Formula.nodup_openVars (f : Formula PredId) (a : Assignment) : (f.openVars a).Nodup := by
  rw [openVars_eq]
  exact f.nodup_freeVars.filter _

theorem Formula.get?_of_mem_openVars {f : Formula PredId} {a : Assignment} {v : Var}
    (h : v ∈ f.openVars a) : a.get? v = none := by
  simpa [Assignment.binds] using (List.mem_filter.1 h).2

namespace Assignment

/-- The nodes of some variables are lexicographically smaller. -/
def Before (vars : List Var) (a b : Assignment) : Prop :=
  ∃ t u, a.tuple? vars = some t ∧ b.tuple? vars = some u ∧ t < u

theorem Before.ne {vars : List Var} {a b : Assignment} (h : Before vars a b) : a ≠ b := by
  rintro rfl
  obtain ⟨t, u, ht, hu, hlt⟩ := h
  rw [ht] at hu
  cases hu
  exact List.lt_irrefl t hlt

/-- The assignment binds some variables to nodes of a set.  Otherwise it reads like
another one. -/
structure Extends (b a : Assignment) (vars : List Var) (nodes : SortedSet Node) : Prop where
  /-- The variables are bound to nodes of the set. -/
  bound : ∀ v ∈ vars, ∃ n ∈ nodes, b.get? v = some n
  /-- Nothing else is changed. -/
  others : ∀ v, v ∉ vars → b.get? v = a.get? v

theorem tuple?_cons {a : Assignment} {v : Var} {vars : List Var} {n : Node} {t : List Node}
    (hv : a.get? v = some n) (ht : a.tuple? vars = some t) :
    a.tuple? (v :: vars) = some (n :: t) := by
  rw [tuple?_eq_some_iff] at ht ⊢
  rw [List.map_cons, List.map_cons, hv, ht]

end Assignment

namespace Structure

open Assignment

variable {V : Vocabulary}

/-! ## The order of the list -/

/-- The ways to bind variables to increasing nodes increase lexicographically. -/
theorem pairwise_extensions {nodes : List Node} (hnodes : nodes.Pairwise (· < ·))
    {vars : List Var} (hvars : vars.Nodup) (a : Assignment) :
    (extensions nodes vars a).Pairwise (Before vars) := by
  induction vars generalizing a with
  | nil => exact List.pairwise_singleton _ _
  | cons v rest ih =>
    obtain ⟨hv, hrest⟩ := List.nodup_cons.1 hvars
    have hhead : ∀ n, ∀ b ∈ extensions nodes rest (a.bind v n), b.get? v = some n := by
      intro n b hb
      rw [(mem_extensions.1 hb).2 v hv]
      simp
    rw [extensions, List.pairwise_flatMap]
    constructor
    · intro n _
      -- The nodes at `v` agree, so those of the other variables decide.
      refine (ih hrest (a.bind v n)).imp_of_mem fun hb hc hbefore => ?_
      obtain ⟨t, u, ht, hu, hlt⟩ := hbefore
      exact ⟨n :: t, n :: u, tuple?_cons (hhead n _ hb) ht, tuple?_cons (hhead n _ hc) hu,
        List.cons_lt_cons_iff.2 (.inr ⟨rfl, hlt⟩)⟩
    · refine hnodes.imp fun {m n} hmn b hb c hc => ?_
      have hbound : ∀ d, d ∈ extensions nodes rest (a.bind v m) ∨
          d ∈ extensions nodes rest (a.bind v n) → ∃ t, d.tuple? rest = some t := by
        intro d hd
        refine exists_tuple? fun w hw => ?_
        rcases hd with hd | hd
        · obtain ⟨k, -, hk⟩ := (mem_extensions.1 hd).1 w hw
          exact ⟨k, hk⟩
        · obtain ⟨k, -, hk⟩ := (mem_extensions.1 hd).1 w hw
          exact ⟨k, hk⟩
      obtain ⟨t, ht⟩ := hbound b (.inl hb)
      obtain ⟨u, hu⟩ := hbound c (.inr hc)
      exact ⟨m :: t, n :: u, tuple?_cons (hhead m b hb) ht, tuple?_cons (hhead n c hc) hu,
        List.cons_lt_cons_iff.2 (.inl hmn)⟩

/-! ## Listing in one assignment -/

/-- What is listed for an assignment. -/
def answer? (s : Structure V) (f : Formula PredId) (b : Assignment) :
    Option (Assignment × Kleene) :=
  if s.eval f b = .ff then none else some (b, s.eval f b)

theorem solutions_eq (s : Structure V) (f : Formula PredId) (a : Assignment) :
    s.solutions f a = (extensions s.nodes.toList (f.openVars a) a).filterMap (s.answer? f) := by
  rw [Formula.openVars_eq]
  rfl

theorem fst_of_answer? {s : Structure V} {f : Formula PredId} {b : Assignment}
    {d : Assignment × Kleene} (h : s.answer? f b = some d) : d.1 = b := by
  unfold answer? at h
  split at h
  · cases h
  · cases h
    rfl

/-- Listing adds the answers and hands the assignment back. -/
theorem enumerate_eq (s : Structure V) (f : Formula PredId) {vars : List Var}
    (hvars : vars.Nodup) (out : List (Assignment × Kleene)) {a : Assignment}
    (hfree : ∀ v ∈ vars, a.get? v = none) :
    s.enumerate f vars out a =
      (out ++ (extensions s.nodes.toList vars a).filterMap (s.answer? f), a) := by
  induction vars generalizing out a with
  | nil =>
    simp only [enumerate, extensions, run_eq, ← eval_eq_denote, List.filterMap_cons,
      List.filterMap_nil, answer?]
    split
    · simp
    · simp
  | cons v rest ih =>
    obtain ⟨hv, hrest⟩ := List.nodup_cons.1 hvars
    have hstep : ∀ out n, s.enumerate f rest out (a.bind v n) =
        (out ++ (extensions s.nodes.toList rest (a.bind v n)).filterMap (s.answer? f),
          a.bind v n) := by
      intro out n
      refine ih hrest out fun w hw => ?_
      have hwv : w ≠ v := fun h => hv (h ▸ hw)
      rw [get?_bind, if_neg hwv]
      exact hfree w (List.mem_cons_of_mem _ hw)
    -- Along the nodes the assignment differs from the given one at most at `v`.
    have hloop : ∀ (nodes : List Node) (out : List (Assignment × Kleene)) (b : Assignment),
        (∀ n, b.bind v n = a.bind v n) →
        (nodes.foldl (fun r n => s.enumerate f rest r.1 (r.2.bind v n)) (out, b)).1 =
            out ++ nodes.flatMap (fun n =>
              (extensions s.nodes.toList rest (a.bind v n)).filterMap (s.answer? f)) ∧
          ∀ n, (nodes.foldl (fun r n =>
            s.enumerate f rest r.1 (r.2.bind v n)) (out, b)).2.bind v n = a.bind v n := by
      intro nodes
      induction nodes with
      | nil => exact fun out b hb => ⟨by simp, hb⟩
      | cons m nodes ihnodes =>
        intro out b hb
        simp only [List.foldl_cons, hb m, hstep, List.flatMap_cons]
        rw [← List.append_assoc]
        exact ihnodes _ _ fun n => a.bind_bind v m n
    obtain ⟨hout, hkeep⟩ := hloop s.nodes.toList out a fun _ => rfl
    have hunbind := restore_eq hkeep
    rw [hfree v List.mem_cons_self] at hunbind
    rw [extensions, List.filterMap_flatMap]
    exact Prod.ext hout hunbind

/-- For a formula and an assignment exactly the answers that are not false are listed.
They are the ways to bind the open variables to nodes, each with the value of the formula,
none of them twice and in lexicographic order.  Listing them in one assignment gives the
same list and leaves that assignment as it was. -/
theorem solutions_exact (s : Structure V) (f : Formula PredId) (a : Assignment) :
    s.solve f a = (s.solutions f a, a) ∧
      (s.solutions f a).Nodup ∧
      ((s.solutions f a).map Prod.fst).Pairwise (Before (f.openVars a)) ∧
      ∀ b k, (b, k) ∈ s.solutions f a ↔
        b.Extends a (f.openVars a) s.nodes ∧ s.eval f b = k ∧ k ≠ .ff := by
  have hordered : (s.solutions f a).Pairwise fun d e => Before (f.openVars a) d.1 e.1 := by
    rw [solutions_eq]
    have hnodes : s.nodes.toList.Pairwise (· < ·) := s.nodes.sorted.imp Nat.compare_eq_lt.1
    refine (pairwise_extensions hnodes (f.nodup_openVars a) a).filterMap _
      fun b c hbc d hd e he => ?_
    rw [fst_of_answer? hd, fst_of_answer? he]
    exact hbc
  refine ⟨?_, ?_, ?_, fun b k => ?_⟩
  · rw [solve, ← Formula.openVars_eq, solutions_eq]
    exact s.enumerate_eq f (f.nodup_openVars a) [] fun v hv => Formula.get?_of_mem_openVars hv
  · exact hordered.imp fun hde heq => hde.ne (congrArg Prod.fst heq)
  · exact List.pairwise_map.2 hordered
  · rw [mem_solutions_iff, ← Formula.openVars_eq, mem_extensions]
    exact and_congr_left fun _ => ⟨fun h => ⟨h.1, h.2⟩, fun h => ⟨h.bound, h.others⟩⟩

end Structure

end ShapeAnalysis
