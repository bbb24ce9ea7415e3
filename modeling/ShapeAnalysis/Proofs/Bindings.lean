import Mathlib.Data.List.Forall2
import Mathlib.Data.List.Induction
import ShapeAnalysis.Formula.Bindings
import ShapeAnalysis.Proofs.Assignment
import ShapeAnalysis.Proofs.BinarySearch

/-!
# Histories of assignments

A call changes one of the assignments that there are in place, or makes a copy of one and
changes the copy.  What every assignment went through is its *history*.

On a sorted vector the operations in place do what those of `Assignment` do
(`bind_ofAssignment`, `unbind_ofAssignment`), so a vector is always the one of the
assignment with the same history (`assignments_eq`).  From this everything is read off
(`assignments_canonical`): a vector is a map with one vector for each map, a variable has
the node of its last change, and no call shows in another assignment than its own.
-/

namespace ShapeAnalysis

/-! ## Behind the bindings of smaller variables -/

namespace Assignment

variable {v : Var} {n : Node} {before after : List (Var × Node)}

theorem find_append (h : ∀ b ∈ before, b.1 < v) : find v (before ++ after) = find v after := by
  induction before with
  | nil => rfl
  | cons b before ih =>
    obtain ⟨hb, hbefore⟩ := List.forall_mem_cons.1 h
    have hne : v ≠ b.1 := Nat.ne_of_gt hb
    simp [find, hne, Nat.lt_asymm hb, ih hbefore]

theorem put_append (h : ∀ b ∈ before, b.1 < v) :
    put v n (before ++ after) = before ++ put v n after := by
  induction before with
  | nil => rfl
  | cons b before ih =>
    obtain ⟨hb, hbefore⟩ := List.forall_mem_cons.1 h
    have hne : v ≠ b.1 := Nat.ne_of_gt hb
    simp [put, hne, Nat.lt_asymm hb, ih hbefore]

theorem drop_append (h : ∀ b ∈ before, b.1 < v) :
    drop v (before ++ after) = before ++ drop v after := by
  induction before with
  | nil => rfl
  | cons b before ih =>
    obtain ⟨hb, hbefore⟩ := List.forall_mem_cons.1 h
    have hne : v ≠ b.1 := Nat.ne_of_gt hb
    simp [drop, hne, Nat.lt_asymm hb, ih hbefore]

theorem find_of_forall_lt (h : ∀ b ∈ after, v < b.1) : find v after = none := by
  cases after with
  | nil => rfl
  | cons b after =>
    have hb := h b List.mem_cons_self
    simp [find, hb, Nat.ne_of_lt hb]

theorem put_of_forall_lt (h : ∀ b ∈ after, v < b.1) : put v n after = (v, n) :: after := by
  cases after with
  | nil => rfl
  | cons b after => simp [put, h b List.mem_cons_self]

theorem drop_of_forall_lt (h : ∀ b ∈ after, v < b.1) : drop v after = after := by
  cases after with
  | nil => rfl
  | cons b after => simp [drop, h b List.mem_cons_self]

end Assignment

namespace Bindings

/-! ## Operations on sorted vectors -/

/-- The vector of an assignment. -/
def ofAssignment (a : Assignment) : Bindings := ⟨a.bindings⟩

/-- What a search for a variable finds: a binding of it behind those of the smaller
variables, or no binding between those of the smaller and the larger ones. -/
theorem place_cases {bs : List (Var × Node)} (hs : bs.Pairwise fun b c => b.1 < c.1) (v : Var) :
    (∃ (before : List (Var × Node)) (m : Node) (after : List (Var × Node))
        (h : before.length < bs.length), bs = before ++ (v, m) :: after ∧
        (∀ b ∈ before, b.1 < v) ∧ place ⟨bs⟩ v = .taken ⟨before.length, h⟩) ∨
      ∃ (before after : List (Var × Node)) (h : before.length < bs.length + 1),
        bs = before ++ after ∧ (∀ b ∈ before, b.1 < v) ∧ (∀ b ∈ after, v < b.1) ∧
        place ⟨bs⟩ v = .free ⟨before.length, h⟩ := by
  have hordered : Place.Ordered (fun b => compare b.1 v) bs := by
    refine hs.imp fun {b c} hlt => ?_
    rw [Nat.compare_eq_lt, Nat.compare_eq_gt]
    by_cases hb : b.1 < v
    · exact .inl hb
    · exact .inr (Nat.lt_of_le_of_lt (Nat.not_lt.1 hb) hlt)
  have hfits := (Place.search_eq_iff hordered).1 rfl
  unfold place
  cases hplace : Place.search (fun b => compare b.1 v) bs with
  | taken i =>
    rw [hplace] at hfits
    have hi : bs[i.val].1 = v := Nat.compare_eq_eq.1 hfits
    have hlength : (bs.take i).length = i := by simp
    refine .inl ⟨bs.take i, bs[i.val].2, bs.drop (i + 1), by simp, ?_, fun b hb => ?_, ?_⟩
    · rw [← hi, ← List.drop_eq_getElem_cons i.isLt, List.take_append_drop]
    · exact Nat.compare_eq_lt.1 (hordered.lt_of_mem_take i.isLt (by simp [hi]) b hb)
    · simp only [hlength]
  | free i =>
    rw [hplace] at hfits
    have hlength : (bs.take i).length = i := by simp; omega
    refine .inr ⟨bs.take i, bs.drop i, by omega, (List.take_append_drop _ _).symm,
      fun b hb => Nat.compare_eq_lt.1 (hfits.1 b hb),
      fun b hb => Nat.compare_eq_gt.1 (hfits.2 b hb), ?_⟩
    simp only [hlength]

theorem insertIdx_length_append (b : Var × Node) (before after : List (Var × Node)) :
    (before ++ after).insertIdx before.length b = before ++ b :: after := by
  induction before with
  | nil => rfl
  | cons c before ih => simp [ih]

theorem get?_ofAssignment (a : Assignment) (v : Var) : (ofAssignment a).get? v = a.get? v := by
  obtain ⟨bs, hs⟩ := a
  simp only [ofAssignment, get?, Assignment.get?]
  rcases place_cases hs v with
    ⟨before, m, after, h, rfl, hbefore, hplace⟩ | ⟨before, after, h, rfl, hbefore, hafter, hplace⟩
  · rw [hplace, Assignment.find_append hbefore]
    simp [Assignment.find]
  · rw [hplace, Assignment.find_append hbefore, Assignment.find_of_forall_lt hafter]

theorem bind_ofAssignment (a : Assignment) (v : Var) (n : Node) :
    (ofAssignment a).bind v n = ofAssignment (a.bind v n) := by
  obtain ⟨bs, hs⟩ := a
  simp only [ofAssignment, bind, Assignment.bind]
  rcases place_cases hs v with
    ⟨before, m, after, h, rfl, hbefore, hplace⟩ | ⟨before, after, h, rfl, hbefore, hafter, hplace⟩
  · rw [hplace, Assignment.put_append hbefore]
    simp [Assignment.put]
  · rw [hplace, Assignment.put_append hbefore, Assignment.put_of_forall_lt hafter]
    simp [insertIdx_length_append]

theorem unbind_ofAssignment (a : Assignment) (v : Var) :
    (ofAssignment a).unbind v = ofAssignment (a.unbind v) := by
  obtain ⟨bs, hs⟩ := a
  simp only [ofAssignment, unbind, Assignment.unbind]
  rcases place_cases hs v with
    ⟨before, m, after, h, rfl, hbefore, hplace⟩ | ⟨before, after, h, rfl, hbefore, hafter, hplace⟩
  · rw [hplace, Assignment.drop_append hbefore]
    simp [Assignment.drop, List.eraseIdx_append_of_length_le]
  · rw [hplace, Assignment.drop_append hbefore, Assignment.drop_of_forall_lt hafter]

theorem tuple?_ofAssignment (a : Assignment) (vars : List Var) :
    (ofAssignment a).tuple? vars = a.tuple? vars := by
  rw [tuple?, Assignment.tuple?, funext (get?_ofAssignment a)]

/-! ## Changes and calls -/

/-- A change of one assignment. -/
inductive Change where
  | bind (v : Var) (n : Node)
  | unbind (v : Var)
deriving DecidableEq

/-- The variable that a change is about. -/
def Change.var : Change → Var
  | .bind v _ => v
  | .unbind v => v

/-- A change of a vector in place. -/
def change (b : Bindings) : Change → Bindings
  | .bind v n => b.bind v n
  | .unbind v => b.unbind v

/-- A call on the assignments that there are, which are numbered from the oldest on. -/
inductive Call where
  /-- Change an assignment in place. -/
  | change (i : Nat) (c : Change)
  /-- Make a copy of an assignment, as the newest one, and bind a variable in the copy. -/
  | copy (i : Nat) (v : Var) (n : Node)

section Calls

variable {σ τ : Type}

/-- The effect of a call on cells that are changed in place.  There is no call on a cell
that does not exist. -/
def perform (step : σ → Change → σ) (cells : List σ) : Call → List σ
  | .change i c => cells.modify i (step · c)
  | .copy i v n =>
    match cells[i]? with
    | some a => (cells ++ [a]).modify cells.length (step · (.bind v n))
    | none => cells

/-- The cells after a list of calls that begins with one cell. -/
def run (step : σ → Change → σ) (start : σ) (calls : List Call) : List σ :=
  calls.foldl (perform step) [start]

/-- The assignments after a list of calls, of which the first one begins empty. -/
def assignments (calls : List Call) : List Bindings := run change empty calls

/-- What every assignment went through, oldest change first. -/
def histories (calls : List Call) : List (List Change) := run (fun h c => h ++ [c]) [] calls

section Map

variable {f : σ → τ} {step : σ → Change → σ} {step' : τ → Change → τ}
  (hstep : ∀ a c, f (step a c) = step' (f a) c)
include hstep

theorem map_modify (cells : List σ) (i : Nat) (c : Change) :
    (cells.modify i (step · c)).map f = (cells.map f).modify i (step' · c) := by
  apply List.ext_getElem?
  intro j
  by_cases h : i = j
  · cases hcell : cells[j]? with
    | none => simp [h, hcell]
    | some a => simp [h, hcell, hstep]
  · simp [h]

theorem map_perform (cells : List σ) (call : Call) :
    (perform step cells call).map f = perform step' (cells.map f) call := by
  cases call with
  | change i c => exact map_modify hstep cells i c
  | copy i v n =>
    simp only [perform, List.getElem?_map]
    cases cells[i]? with
    | none => rfl
    | some a =>
      simp only [Option.map_some]
      rw [map_modify hstep, List.map_append, List.length_map]
      rfl

/-- Cells seen through a function that every change goes through. -/
theorem map_run (start : σ) (calls : List Call) :
    (run step start calls).map f = run step' (f start) calls :=
  (List.foldl_hom (List.map f) fun cells call => (map_perform hstep cells call).symm).symm

end Map

end Calls

/-! ## Histories -/

/-- An assignment after a change. -/
def Change.apply (a : Assignment) : Change → Assignment
  | .bind v n => a.bind v n
  | .unbind v => a.unbind v

/-- The assignment with a history. -/
def replay (h : List Change) : Assignment := h.foldl Change.apply .empty

/-- The last change of a variable binds it to a node: it is bound, and after that it is
neither bound again nor unbound. -/
def LastBinds (h : List Change) (v : Var) (n : Node) : Prop :=
  ∃ before after, h = before ++ .bind v n :: after ∧ ∀ c ∈ after, c.var ≠ v

/-- Every assignment there is has the vector that its history makes. -/
theorem assignments_eq (calls : List Call) :
    assignments calls = (histories calls).map fun h => ofAssignment (replay h) := by
  have hstep : ∀ (h : List Change) (c : Change),
      ofAssignment (replay (h ++ [c])) = (ofAssignment (replay h)).change c := by
    intro h c
    rw [replay, List.foldl_append]
    cases c with
    | bind v n => exact (bind_ofAssignment _ v n).symm
    | unbind v => exact (unbind_ofAssignment _ v).symm
  exact (map_run (f := fun h => ofAssignment (replay h)) hstep [] calls).symm

theorem lastBinds_concat {h : List Change} {c : Change} {v : Var} {n : Node} :
    LastBinds (h ++ [c]) v n ↔ c = .bind v n ∨ c.var ≠ v ∧ LastBinds h v n := by
  constructor
  · rintro ⟨before, after, heq, hafter⟩
    rcases List.eq_nil_or_concat after with rfl | ⟨after, d, rfl⟩
    · exact .inl (List.singleton_inj.1 (List.append_inj' heq rfl).2)
    · rw [List.concat_eq_append] at heq hafter
      rw [← List.cons_append, ← List.append_assoc] at heq
      obtain ⟨hh, hc⟩ := List.append_inj' heq rfl
      rw [List.singleton_inj.1 hc]
      exact .inr ⟨hafter d (by simp), before, after, hh, fun e he => hafter e (by simp [he])⟩
  · rintro (rfl | ⟨hc, before, after, rfl, hafter⟩)
    · exact ⟨h, [], rfl, by simp⟩
    · refine ⟨before, after ++ [c], by simp, fun d hd => ?_⟩
      rcases List.mem_append.1 hd with hd | hd
      · exact hafter d hd
      · rwa [List.mem_singleton.1 hd]

theorem get?_replay {h : List Change} {v : Var} {n : Node} :
    (replay h).get? v = some n ↔ LastBinds h v n := by
  induction h using List.reverseRecOn with
  | nil => simp [replay, LastBinds]
  | append_singleton h c ih =>
    rw [lastBinds_concat, ← ih, replay, List.foldl_append]
    show (Change.apply (replay h) c).get? v = some n ↔ _
    cases c with
    | bind w m =>
      by_cases hw : v = w
      · simp [Change.apply, Change.var, hw]
      · simp [Change.apply, Change.var, hw, Ne.symm hw]
    | unbind w =>
      by_cases hw : v = w
      · simp [Change.apply, Change.var, hw]
      · simp [Change.apply, Change.var, hw, Ne.symm hw]

/-- An assignment is what its history says. -/
structure Follows (b : Bindings) (h : List Change) : Prop where
  /-- The bindings are in the order of the variables, each bound once. -/
  sorted : b.entries.Pairwise fun x y => x.1 < y.1
  /-- They are those of the assignment that other parts of the library work with. -/
  entries_eq : b.entries = (replay h).bindings
  /-- A variable has the node of its last change. -/
  get?_eq_some_iff : ∀ v n, b.get? v = some n ↔ LastBinds h v n
  /-- A tuple has the nodes of its variables, in their order. -/
  tuple?_eq_some_iff : ∀ vars ns, b.tuple? vars = some ns ↔ vars.map b.get? = ns.map some
  /-- There is a tuple if every variable is bound. -/
  isSome_tuple?_iff : ∀ vars, (b.tuple? vars).isSome ↔ ∀ v ∈ vars, (b.get? v).isSome

theorem follows_replay (h : List Change) : Follows (ofAssignment (replay h)) h where
  sorted := (replay h).sorted
  entries_eq := rfl
  get?_eq_some_iff v n := by rw [get?_ofAssignment, get?_replay]
  tuple?_eq_some_iff vars ns := by
    rw [tuple?_ofAssignment, Assignment.tuple?_eq_some_iff, funext (get?_ofAssignment _)]
  isSome_tuple?_iff vars := by
    simp only [tuple?_ofAssignment, get?_ofAssignment, Option.isSome_iff_exists]
    constructor
    · rintro ⟨ns, hns⟩ v hv
      have hmem : (replay h).get? v ∈ ns.map some := by
        rw [← Assignment.tuple?_eq_some_iff.1 hns]
        exact List.mem_map_of_mem hv
      obtain ⟨n, -, hn⟩ := List.mem_map.1 hmem
      exact ⟨n, hn.symm⟩
    · exact Assignment.exists_tuple?

/-- A copy comes after the assignments that there are. -/
theorem assignments_concat_copy {calls : List Call} {i : Nat} {b : Bindings}
    (hb : (assignments calls)[i]? = some b) (v : Var) (n : Node) :
    assignments (calls ++ [.copy i v n]) = assignments calls ++ [b.bind v n] := by
  have hperform : assignments (calls ++ [.copy i v n]) =
      perform change (assignments calls) (.copy i v n) := by
    rw [assignments, run, List.foldl_append]
    rfl
  rw [hperform]
  simp [perform, hb, List.modify_eq_take_drop, change]

/-- The vectors of assignments are equal if they are read alike. -/
theorem ofAssignment_eq_iff {a a' : Assignment} : ofAssignment a = ofAssignment a' ↔
    ∀ v, (ofAssignment a).get? v = (ofAssignment a').get? v := by
  constructor
  · intro h v
    rw [h]
  · intro h
    simp only [get?_ofAssignment] at h
    rw [Assignment.ext_get? h]

/-- After any calls the assignments are what their own histories say, a copy leaves the
others as they are, and vectors that are read alike are equal, whatever led to them. -/
theorem assignments_canonical (calls : List Call) :
    List.Forall₂ Follows (assignments calls) (histories calls) ∧
      (∀ i v n b, (assignments calls)[i]? = some b →
        assignments (calls ++ [.copy i v n]) = assignments calls ++ [b.bind v n]) ∧
      ∀ calls', ∀ b ∈ assignments calls, ∀ b' ∈ assignments calls',
        b = b' ↔ ∀ v, b.get? v = b'.get? v := by
  refine ⟨?_, fun i v n b hb => assignments_concat_copy hb v n, ?_⟩
  · rw [assignments_eq, List.forall₂_map_left_iff]
    exact List.forall₂_same.2 fun h _ => follows_replay h
  · intro calls' b hb b' hb'
    rw [assignments_eq] at hb hb'
    obtain ⟨h, -, rfl⟩ := List.mem_map.1 hb
    obtain ⟨h', -, rfl⟩ := List.mem_map.1 hb'
    exact ofAssignment_eq_iff

/-- Variables are bound out of order, and both an assignment and its copy are changed. -/
def sampleCalls : List Call :=
  [.change 0 (.bind 2 5), .change 0 (.bind 0 1), .change 0 (.bind 7 3), .copy 0 2 7,
    .change 0 (.unbind 0), .change 1 (.bind 4 4), .change 0 (.unbind 1)]

theorem assignments_canonical_sampleCalls :
    (assignments sampleCalls)[0]? = some ⟨[(2, 5), (7, 3)]⟩ ∧
      assignments (sampleCalls ++ [.copy 0 4 9]) =
        assignments sampleCalls ++ [⟨[(2, 5), (4, 9), (7, 3)]⟩] ∧
      ⟨[(2, 5), (7, 3)]⟩ ∈ assignments sampleCalls ∧
      ⟨[(0, 1), (2, 7), (4, 4), (7, 3)]⟩ ∈ assignments sampleCalls ∧
      ¬ ∀ v, (⟨[(2, 5), (7, 3)]⟩ : Bindings).get? v =
        (⟨[(0, 1), (2, 7), (4, 4), (7, 3)]⟩ : Bindings).get? v := by
  have hat : (assignments sampleCalls)[0]? = some ⟨[(2, 5), (7, 3)]⟩ := by cbv
  have hmem : ⟨[(2, 5), (7, 3)]⟩ ∈ assignments sampleCalls := List.mem_of_getElem? hat
  have hcopy : ⟨[(0, 1), (2, 7), (4, 4), (7, 3)]⟩ ∈ assignments sampleCalls :=
    List.mem_of_getElem? (i := 1) (by cbv)
  refine ⟨hat, ?_, hmem, hcopy, fun h => ?_⟩
  · rw [(assignments_canonical sampleCalls).2.1 0 4 9 _ hat]
    have hbind : (⟨[(2, 5), (7, 3)]⟩ : Bindings).bind 4 9 = ⟨[(2, 5), (4, 9), (7, 3)]⟩ := by cbv
    rw [hbind]
  · have heq := ((assignments_canonical sampleCalls).2.2 sampleCalls _ hmem _ hcopy).2 h
    exact absurd heq (by decide)

end Bindings

end ShapeAnalysis
