import ShapeAnalysis.Proofs.Update

/-!
# Updates are simultaneous

All update formulas read one structure, the *preliminary* structure: the one before the
action or, when the action allocates, that with one node more, on which `isNew` is true
(`Preliminary`).  An update writes every tuple of nodes.  So of several updates of a
predicate the last one counts, and the others leave no trace (`value_foldl_applyUpdate`,
by induction on the updates).

The main statement gives every value after an action from the preliminary structure
(`update_simultaneous`).
-/

namespace ShapeAnalysis

namespace Action

open Structure

variable {V : Vocabulary}

/-! ## The structure that formulas read -/

/-- The structure `pre` is `s` with the node `n` more, on which `isNew` is true and no
other change. -/
structure Allocated (s pre : Structure V) (n : Node) : Prop where
  /-- The node is new. -/
  fresh : n ∉ s.nodes
  /-- It is the only new one. -/
  mem_nodes : ∀ m, m ∈ pre.nodes ↔ m = n ∨ m ∈ s.nodes
  /-- The constraints stay. -/
  constraints : pre.constraints = s.constraints
  /-- Only `isNew` changes, and only on the new node. -/
  value : ∀ p t, pre.value p t = if p = Vocabulary.isNew ∧ t = [n] then .tt else s.value p t

/-- The structure and the assignment under which an action evaluates its formulas. -/
inductive Preliminary (act : Action PredId) (s : Structure V) (a : Assignment) :
    Structure V → Assignment → Prop
  | plain : act.newVar = none → Preliminary act s a s a
  | allocated {v : Var} {n : Node} {pre : Structure V} : act.newVar = some v →
      Allocated s pre n → Preliminary act s a pre (a.bind v n)

theorem allocated_set_newNode {s : Structure V} (hs : s.WellFormed) :
    Allocated s (s.newNode.1.set Vocabulary.isNew [s.nextNode] .tt) s.nextNode where
  fresh := hs.nextNode_not_mem
  mem_nodes m := by
    rw [nodes_set]
    exact s.mem_nodes_newNode m
  constraints := rfl
  value p t := by rw [value_set, value_newNode]

theorem preliminary_allocate (act : Action PredId) {s : Structure V} (hs : s.WellFormed)
    (a : Assignment) : Preliminary act s a (act.allocate s a).1 (act.allocate s a).2 := by
  cases h : act.newVar with
  | none =>
    rw [allocate_eq_none h]
    exact .plain h
  | some v =>
    rw [allocate_eq_some h]
    exact .allocated h (allocated_set_newNode hs)

/-! ## The last update of a predicate -/

/-- The last update of a predicate, if it has one. -/
def lastUpdate? (us : List (Update PredId)) (p : PredId) : Option (Update PredId) :=
  (us.filter (·.pred = p)).getLast?

theorem lastUpdate?_cons (u : Update PredId) (us : List (Update PredId)) (p : PredId) :
    lastUpdate? (u :: us) p =
      if u.pred = p then some ((lastUpdate? us p).getD u) else lastUpdate? us p := by
  unfold lastUpdate?
  by_cases hp : u.pred = p
  · rw [if_pos hp, List.filter_cons_of_pos (by simpa using hp), List.getLast?_cons]
  · rw [if_neg hp, List.filter_cons_of_neg (by simpa using hp)]

theorem value_applyUpdate (pre : Structure V) (a : Assignment) (post : Structure V)
    (u : Update PredId) (p : PredId) (t : List Node) :
    (applyUpdate pre a post u).value p t =
      if p = u.pred ∧ t.length = u.vars.length ∧ ∀ n ∈ t, n ∈ pre.nodes then
        pre.eval u.formula (a.bindAll u.vars t)
      else post.value p t := by
  rw [applyUpdate_eq_writeAll, value_writeAll]
  simp only [List.mem_reverse, mem_tuples, SortedSet.mem_toList]

@[simp] theorem nodes_foldl_applyUpdate (pre : Structure V) (a : Assignment)
    (us : List (Update PredId)) (post : Structure V) :
    (us.foldl (applyUpdate pre a) post).nodes = post.nodes := by
  induction us generalizing post with
  | nil => rfl
  | cons u us ih => rw [List.foldl_cons, ih, nodes_applyUpdate]

/-- After a list of updates a predicate has the values of its last update. -/
theorem value_foldl_applyUpdate (pre : Structure V) (a : Assignment) (p : PredId) {t : List Node}
    (ht : ∀ n ∈ t, n ∈ pre.nodes) (us : List (Update PredId))
    (hus : ∀ u ∈ us, u.pred = p → t.length = u.vars.length) (post : Structure V) :
    (us.foldl (applyUpdate pre a) post).value p t =
      match lastUpdate? us p with
      | some u => pre.eval u.formula (a.bindAll u.vars t)
      | none => post.value p t := by
  induction us generalizing post with
  | nil => rfl
  | cons u us ih =>
    rw [List.foldl_cons, ih fun w hw => hus w (List.mem_cons_of_mem _ hw), lastUpdate?_cons,
      value_applyUpdate]
    by_cases hp : u.pred = p
    · -- A later update of the predicate overwrites what this one writes.
      rw [if_pos hp, if_pos ⟨hp.symm, hus u List.mem_cons_self hp, ht⟩]
      cases lastUpdate? us p <;> rfl
    · rw [if_neg hp, if_neg fun h => hp h.1.symm]

/-! ## Every value after an action -/

/-- An action updates all its predicates at once, and nothing else.  Its formulas read the
preliminary structure, whose nodes the result has.  A predicate with an update has the
values of its last update, with the variables of the update bound to the tuple; one without
keeps its values.  When the action allocates, `isNew` is false in the result. -/
theorem update_simultaneous (act : Action PredId) (hsized : act.Sized V) {s : Structure V}
    (hs : s.WellFormed) (a : Assignment) :
    (act.update s a).WellFormed ∧ (act.update s a).constraints = s.constraints ∧
      ∃ pre b, Preliminary act s a pre b ∧ (act.update s a).nodes = pre.nodes ∧
        ∀ p t, pre.Admits ⟨p, t⟩ → (act.update s a).value p t =
          if act.newVar.isSome ∧ p = Vocabulary.isNew then .ff
          else match lastUpdate? act.updates p with
            | some u => pre.eval u.formula (b.bindAll u.vars t)
            | none => pre.value p t := by
  refine ⟨wellFormed_update hsized hs a, constraints_update act s a, _, _,
    preliminary_allocate act hs a, ?_, fun p t ht => ?_⟩
  · rw [update_eq]
    split
    · rw [nodes_setAll, nodes_foldl_applyUpdate]
    · rw [nodes_foldl_applyUpdate]
  · have hvalue := value_foldl_applyUpdate (act.allocate s a).1 (act.allocate s a).2 p ht.2.2
      act.updates (fun u hu hp => by rw [(hsized u hu).2, hp]; exact ht.2.1) (act.allocate s a).1
    rw [update_eq]
    by_cases hnew : act.newVar.isSome
    · rw [if_pos hnew]
      by_cases hp : p = Vocabulary.isNew
      · subst hp
        obtain ⟨n, rfl⟩ := List.length_eq_one_iff.1 (ht.2.1.trans (V.arity_of_isReserved rfl))
        have hn : n ∈ (act.allocate s a).1.nodes := ht.2.2 n List.mem_cons_self
        rw [if_pos ⟨hnew, rfl⟩, value_setAll_self _ _ (by simpa using hn)]
      · rw [if_neg fun h => hp h.2, value_setAll_of_ne _ hp, hvalue]
    · rw [if_neg hnew, if_neg fun h => hnew h.1, hvalue]

/-- A new cell is put in front, and `x` points to it.  The links read the old `x`, and the
first update of `x` does not count. -/
def pushCell : Action PredId where
  title := "x = new Cell(x)"
  updates := [⟨6, [0], .const .unknown⟩, ⟨6, [0], .atom Vocabulary.isNew [0]⟩,
    ⟨7, [0, 1], .or (.atom 7 [0, 1]) (.and (.atom Vocabulary.isNew [0]) (.atom 6 [1]))⟩]
  newVar := some 2

theorem update_simultaneous_pushCell :
    pushCell.Sized cellVocabulary ∧ twoCells.WellFormed ∧
      ∃ pre b, Preliminary pushCell twoCells .empty pre b ∧ pre.nodes.toList = [0, 1, 2] ∧
        (pushCell.update twoCells .empty).value 6 [0] =
          pre.eval (.atom Vocabulary.isNew [0]) (b.bindAll [0] [0]) ∧
        (pushCell.update twoCells .empty).value 6 [0] = .ff ∧
        (pushCell.update twoCells .empty).value 7 [2, 0] = .tt := by
  have hsized : pushCell.Sized cellVocabulary := by decide
  have hs : twoCells.WellFormed := by decide
  obtain ⟨-, -, pre, b, hpre, hnodes, hvalue⟩ :=
    update_simultaneous pushCell hsized hs Assignment.empty
  have hlist : pre.nodes.toList = [0, 1, 2] := by
    rw [← hnodes]
    decide
  have hzero : (0 : Node) ∈ pre.nodes := by
    rw [← SortedSet.mem_toList, hlist]
    decide
  have hadmits : pre.Admits ⟨6, [0]⟩ := ⟨by decide, by decide, by simpa using hzero⟩
  exact ⟨hsized, hs, pre, b, hpre, hlist, hvalue 6 [0] hadmits, by decide, by decide⟩

end Action

end ShapeAnalysis
