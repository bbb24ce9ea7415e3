import ShapeAnalysis.Structure.Combine
import ShapeAnalysis.Proofs.Isomorphism

/-!
# The union of a call and an exit structure

Combining numbers the nodes of the call from zero on, and then those of the exit.
No node of one side gets the number of a node of the other side.  So a tuple of the
call, or of the exit, is found again in the union under its new names, with the value
it had, and the union is well formed.
-/

namespace ShapeAnalysis

namespace Structure

variable {V : Vocabulary}

/-! ## The nodes -/

theorem insertItem_of_lt {n : Node} {ns : List Node} (h : ∀ m ∈ ns, m < n) :
    SortedSet.insertItem n ns = ns ++ [n] := by
  induction ns with
  | nil => rfl
  | cons m ns ih =>
    have hgt : compare n m = .gt := Nat.compare_eq_gt.2 (h m List.mem_cons_self)
    rw [SortedSet.insertItem, hgt]
    exact congrArg (m :: ·) (ih fun k hk => h k (List.mem_cons_of_mem _ hk))

/-- New nodes are numbered on from those that are there. -/
theorem nodes_newNodes (k : Nat) {s : Structure V} (h : s.nodes.toList = List.range s.nextNode) :
    (newNodes k s).nodes.toList = List.range (s.nextNode + k) := by
  induction k generalizing s with
  | zero => exact h
  | succ k ih =>
    have hlt : ∀ m ∈ s.nodes.toList, m < s.nextNode := by
      intro m hm
      rw [h] at hm
      exact List.mem_range.1 hm
    have hnext : s.newNode.1.nodes.toList = List.range s.newNode.1.nextNode := by
      show SortedSet.insertItem s.nextNode s.nodes.toList = List.range (s.nextNode + 1)
      rw [insertItem_of_lt hlt, h, List.range_succ]
    have hcount : s.newNode.1.nextNode + k = s.nextNode + (k + 1) := by
      show s.nextNode + 1 + k = s.nextNode + (k + 1)
      omega
    rw [newNodes, ih hnext, hcount]

theorem WellFormed.newNodes (k : Nat) {s : Structure V} (hs : s.WellFormed) :
    (newNodes k s).WellFormed := by
  induction k generalizing s with
  | zero => exact hs
  | succ k ih => exact ih hs.newNode

theorem values_newNodes (k : Nat) (s : Structure V) : (newNodes k s).values = s.values := by
  induction k generalizing s with
  | zero => rfl
  | succ k ih => exact ih s.newNode.1

/-- The number that a node of the call gets. -/
def callNode (call : Structure V) (n : Node) : Node := call.nodes.toList.idxOf n

/-- The number that a node of the exit gets. -/
def exitNode (call exit : Structure V) (n : Node) : Node :=
  call.nodes.size + exit.nodes.toList.idxOf n

/-- A node of the call is found in its list. -/
theorem callNode_lt {call : Structure V} {n : Node} (hn : n ∈ call.nodes) :
    call.callNode n < call.nodes.size :=
  List.idxOf_lt_length_of_mem hn

theorem callNode_injOn {call : Structure V} :
    ∀ m ∈ call.nodes, ∀ n ∈ call.nodes, call.callNode m = call.callNode n → m = n :=
  fun _ hm _ _ h => (List.idxOf_inj hm).1 h

theorem exitNode_injOn {call exit : Structure V} :
    ∀ m ∈ exit.nodes, ∀ n ∈ exit.nodes, call.exitNode exit m = call.exitNode exit n → m = n :=
  fun _ hm _ _ h => (List.idxOf_inj hm).1 (Nat.add_left_cancel h)

theorem callNode_ne_exitNode {call exit : Structure V} {m n : Node} (hm : m ∈ call.nodes) :
    call.callNode m ≠ call.exitNode exit n := by
  intro h
  have hlt := callNode_lt hm
  rw [h] at hlt
  exact absurd hlt (Nat.not_lt.2 (Nat.le_add_right _ _))

/-- In order, a list without repetition is numbered from zero on. -/
theorem map_idxOf_self {ns : List Node} (h : ns.Nodup) :
    ns.map ns.idxOf = List.range ns.length := by
  refine List.ext_getElem (by simp) fun i hi _ => ?_
  rw [List.getElem_map, List.getElem_range]
  exact h.idxOf_getElem i (by simpa using hi)

/-! ## The values -/

/-- The entries of the union at predicates with arguments. -/
def sideEntries (call exit : Structure V) : List (Atom × Kleene) :=
  call.renamedEntries call.callNode ++ exit.renamedEntries (call.exitNode exit)

/-- The union before the predicates without arguments are combined. -/
def sideBySide (call exit : Structure V) : Structure V :=
  let union : Structure V :=
    newNodes (call.nodes.size + exit.nodes.size) { constraints := call.constraints }
  { union with values := union.values.insertAll (call.sideEntries exit) }

theorem combine_eq (combiner : Kleene → Kleene → Kleene) (call exit : Structure V) :
    combine combiner call exit = (V.withArity 0).foldl
      (fun s p => s.set p [] (combiner (call.value p []) (exit.value p [])))
      (call.sideBySide exit) :=
  rfl

theorem mem_renamedEntries {s : Structure V} {f : Node → Node} {e : Atom × Kleene} :
    e ∈ s.renamedEntries f ↔ V.arity e.1.pred ≠ 0 ∧
      ∃ u, u.map f = e.1.args ∧ s.values.get? ⟨e.1.pred, u⟩ = some e.2 := by
  obtain ⟨⟨p, t⟩, k⟩ := e
  simp only [renamedEntries, List.mem_map, List.mem_filter, decide_eq_true_eq]
  constructor
  · rintro ⟨⟨⟨q, u⟩, l⟩, ⟨hmem, harity⟩, heq⟩
    cases heq
    exact ⟨harity, u, rfl, SortedMap.mem_entries.1 hmem⟩
  · rintro ⟨harity, u, rfl, hget⟩
    exact ⟨(⟨p, u⟩, k), ⟨SortedMap.mem_entries.2 hget, harity⟩, rfl⟩

/-- Of two sides that keep apart, the first is found again under its new names. -/
theorem get?_insertAll_sides {s t : Structure V} {f g : Node → Node} {es : List (Atom × Kleene)}
    (hs : s.WellFormed) (ht : t.WellFormed)
    (hf : ∀ m ∈ s.nodes, ∀ n ∈ s.nodes, f m = f n → m = n)
    (hfg : ∀ m ∈ s.nodes, ∀ n ∈ t.nodes, f m ≠ g n)
    (hes : ∀ e, e ∈ es ↔ e ∈ s.renamedEntries f ∨ e ∈ t.renamedEntries g) {p : PredId}
    (hp : V.arity p ≠ 0) {u : List Node} (hu : ∀ n ∈ u, n ∈ s.nodes) :
    ((∅ : SortedMap Atom Kleene).insertAll es).get? ⟨p, u.map f⟩ = s.values.get? ⟨p, u⟩ := by
  have hfound : ∀ e ∈ es, e.1 = ⟨p, u.map f⟩ → s.values.get? ⟨p, u⟩ = some e.2 := by
    rintro ⟨-, k⟩ he rfl
    rcases (hes _).1 he with he | he
    · obtain ⟨-, w, hw, hget⟩ := mem_renamedEntries.1 he
      have hwu : w = u := tuple_eq_of_map_eq hf (hs.get? hget).1.2.2 hu hw
      exact hwu ▸ hget
    · -- The tuple has a node, and that is on one side only.
      obtain ⟨-, w, hw, hget⟩ := mem_renamedEntries.1 he
      obtain ⟨-, hlen, hmem⟩ := (ht.get? hget).1
      dsimp only at hw hlen hmem
      cases w with
      | nil => exact absurd hlen.symm hp
      | cons n w =>
        cases u with
        | nil => cases hw
        | cons m u =>
          rw [List.map_cons, List.map_cons, List.cons.injEq] at hw
          exact absurd hw.1.symm (hfg m (hu m List.mem_cons_self) n (hmem n List.mem_cons_self))
  cases hget : s.values.get? ⟨p, u⟩ with
  | none =>
    refine SortedMap.get?_insertAll_of_forall_ne (fun e he hea => ?_) _
    have hsome := hfound e he hea
    rw [hget] at hsome
    cases hsome
  | some k =>
    refine SortedMap.get?_insertAll_of_mem (fun e he hea => ?_) ?_ _
    · have hsome := hfound e he hea
      rw [hget] at hsome
      exact (Option.some.inj hsome).symm
    · exact ⟨(⟨p, u.map f⟩, k), (hes _).2 (.inl (mem_renamedEntries.2 ⟨hp, u, rfl, hget⟩)), rfl⟩

/-- Every entry of the union is one of the call or one of the exit, renamed. -/
theorem get?_sideBySide_cases {call exit : Structure V} {p : PredId} {t : List Node} {k : Kleene}
    (h : (call.sideBySide exit).values.get? ⟨p, t⟩ = some k) :
    (∃ u, u.map call.callNode = t ∧ call.values.get? ⟨p, u⟩ = some k) ∨
      ∃ u, u.map (call.exitNode exit) = t ∧ exit.values.get? ⟨p, u⟩ = some k := by
  simp only [sideBySide, values_newNodes] at h
  rcases SortedMap.get?_or_mem_of_get?_insertAll _ h with hnone | hmem
  · cases hnone
  · exact (List.mem_append.1 hmem).imp (fun hmem => (mem_renamedEntries.1 hmem).2)
      fun hmem => (mem_renamedEntries.1 hmem).2

/-! ## Predicates without arguments -/

section Nullary

variable (g : PredId → Kleene) (ps : List PredId)

theorem nodes_foldl_set (s : Structure V) :
    (ps.foldl (fun s p => s.set p [] (g p)) s).nodes = s.nodes := by
  induction ps generalizing s with
  | nil => rfl
  | cons p ps ih => exact ih _

theorem value_foldl_set (s : Structure V) {q : PredId} (hq : q ∉ ps) (t : List Node) :
    (ps.foldl (fun s p => s.set p [] (g p)) s).value q t = s.value q t := by
  induction ps generalizing s with
  | nil => rfl
  | cons p ps ih =>
    obtain ⟨hne, hps⟩ := not_or.1 fun h => hq (List.mem_cons.2 h)
    rw [List.foldl_cons, ih _ hps, value_set, if_neg fun h => hne h.1]

theorem value_foldl_set_of_mem (s : Structure V) {q : PredId} (hq : q ∈ ps) :
    (ps.foldl (fun s p => s.set p [] (g p)) s).value q [] = g q := by
  induction ps generalizing s with
  | nil => cases hq
  | cons p ps ih =>
    rw [List.foldl_cons]
    by_cases hps : q ∈ ps
    · exact ih _ hps
    · obtain rfl : q = p := (List.mem_cons.1 hq).resolve_right hps
      rw [value_foldl_set _ _ _ hps, value_set, if_pos ⟨rfl, rfl⟩]

variable {ps} in
theorem WellFormed.foldl_set {s : Structure V} (hs : s.WellFormed)
    (hps : ∀ p ∈ ps, p ∈ V.withArity 0) :
    (ps.foldl (fun s p => s.set p [] (g p)) s).WellFormed := by
  induction ps generalizing s with
  | nil => exact hs
  | cons p ps ih =>
    obtain ⟨hlt, harity⟩ := mem_withArity.1 (hps p List.mem_cons_self)
    have hadmits : s.Admits ⟨p, []⟩ := ⟨hlt, harity.symm, by simp⟩
    exact ih (hs.set hadmits _) fun q hq => hps q (List.mem_cons_of_mem _ hq)

end Nullary

/-! ## The union -/

section Union

variable (combiner : Kleene → Kleene → Kleene)

/-- The nodes of the union are those of the call, then those of the exit. -/
theorem nodes_combine (call exit : Structure V) : (combine combiner call exit).nodes.toList =
    call.nodes.toList.map call.callNode ++ exit.nodes.toList.map (call.exitNode exit) := by
  have hexit : exit.nodes.toList.map (call.exitNode exit) =
      (List.range exit.nodes.toList.length).map (call.nodes.size + ·) := by
    rw [← map_idxOf_self exit.nodes.nodup, List.map_map]
    rfl
  have hcall : call.nodes.toList.map call.callNode = List.range call.nodes.toList.length :=
    map_idxOf_self call.nodes.nodup
  rw [combine_eq, nodes_foldl_set, hexit, hcall]
  show (newNodes _ _).nodes.toList = _
  rw [nodes_newNodes _ rfl, Nat.zero_add, List.range_add]
  rfl

theorem mem_nodes_combine (call exit : Structure V) {n : Node} :
    n ∈ (combine combiner call exit).nodes ↔ (∃ m ∈ call.nodes, call.callNode m = n) ∨
      ∃ m ∈ exit.nodes, call.exitNode exit m = n := by
  rw [← SortedSet.mem_toList, nodes_combine]
  simp

/-- A predicate without arguments has the values of both sides combined. -/
theorem value_combine_nil (call exit : Structure V) {p : PredId} (hp : p ∈ V.withArity 0) :
    (combine combiner call exit).value p [] = combiner (call.value p []) (exit.value p []) := by
  rw [combine_eq, value_foldl_set_of_mem _ _ _ hp]

/-- A predicate with arguments has the values of the two sides. -/
theorem value_combine (call exit : Structure V) {p : PredId} (hp : V.arity p ≠ 0)
    (t : List Node) :
    (combine combiner call exit).value p t = (call.sideBySide exit).value p t := by
  rw [combine_eq, value_foldl_set _ _ _ fun h => hp (mem_withArity.1 h).2]

variable {call exit : Structure V} (hcall : call.WellFormed) (hexit : exit.WellFormed)
include hcall hexit

theorem get?_sideBySide_call {p : PredId} (hp : V.arity p ≠ 0) {u : List Node}
    (hu : ∀ n ∈ u, n ∈ call.nodes) :
    (call.sideBySide exit).values.get? ⟨p, u.map call.callNode⟩ = call.values.get? ⟨p, u⟩ := by
  simp only [sideBySide, values_newNodes]
  exact get?_insertAll_sides hcall hexit callNode_injOn
    (fun m hm n _ => callNode_ne_exitNode hm) (fun _ => List.mem_append) hp hu

theorem get?_sideBySide_exit {p : PredId} (hp : V.arity p ≠ 0) {u : List Node}
    (hu : ∀ n ∈ u, n ∈ exit.nodes) :
    (call.sideBySide exit).values.get? ⟨p, u.map (call.exitNode exit)⟩ =
      exit.values.get? ⟨p, u⟩ := by
  simp only [sideBySide, values_newNodes]
  exact get?_insertAll_sides hexit hcall exitNode_injOn
    (fun m _ n hn => (callNode_ne_exitNode hn).symm)
    (fun _ => List.mem_append.trans or_comm) hp hu

/-- Tuples of the call keep their values. -/
theorem value_combine_call {p : PredId} (hp : V.arity p ≠ 0) {u : List Node}
    (hu : ∀ n ∈ u, n ∈ call.nodes) :
    (combine combiner call exit).value p (u.map call.callNode) = call.value p u := by
  rw [value_combine _ _ _ hp, value, value, get?_sideBySide_call hcall hexit hp hu]

/-- Tuples of the exit keep their values. -/
theorem value_combine_exit {p : PredId} (hp : V.arity p ≠ 0) {u : List Node}
    (hu : ∀ n ∈ u, n ∈ exit.nodes) :
    (combine combiner call exit).value p (u.map (call.exitNode exit)) = exit.value p u := by
  rw [value_combine _ _ _ hp, value, value, get?_sideBySide_exit hcall hexit hp hu]

theorem WellFormed.combine : (combine combiner call exit).WellFormed := by
  have hnodes : ∀ n, n ∈ (call.sideBySide exit).nodes ↔
      (∃ m ∈ call.nodes, call.callNode m = n) ∨ ∃ m ∈ exit.nodes, call.exitNode exit m = n := by
    intro n
    rw [← mem_nodes_combine combiner, combine_eq, nodes_foldl_set]
  have hside : (call.sideBySide exit).WellFormed := by
    refine .of_get? (fun a k hget => ?_) ((wellFormed_empty call.constraints).newNodes _).node_lt
    obtain ⟨p, t⟩ := a
    rcases get?_sideBySide_cases hget with ⟨u, rfl, hold⟩ | ⟨u, rfl, hold⟩
    · obtain ⟨hadmits, hne⟩ := hcall.get? hold
      exact ⟨hadmits.map fun n hn => (hnodes _).2 (.inl ⟨n, hn, rfl⟩), hne⟩
    · obtain ⟨hadmits, hne⟩ := hexit.get? hold
      exact ⟨hadmits.map fun n hn => (hnodes _).2 (.inr ⟨n, hn, rfl⟩), hne⟩
  rw [combine_eq]
  exact hside.foldl_set _ fun p hp => hp

/-- A tuple with nodes of both sides is false. -/
theorem value_combine_mixed (p : PredId) {t : List Node}
    (hleft : ∃ m ∈ call.nodes, call.callNode m ∈ t)
    (hright : ∃ n ∈ exit.nodes, call.exitNode exit n ∈ t) :
    (combine combiner call exit).value p t = .ff := by
  obtain ⟨m, hm, hmt⟩ := hleft
  obtain ⟨n, -, hnt⟩ := hright
  by_contra hne
  have hadmits := (WellFormed.combine combiner hcall hexit).admits_of_ne_ff hne
  have harity : V.arity p ≠ 0 := by
    rw [← hadmits.2.1]
    exact Nat.ne_of_gt (List.length_pos_of_mem hmt)
  rw [value_combine _ _ _ harity] at hne
  -- The entry comes from one side, and so do all nodes of its tuple.
  rcases get?_sideBySide_cases (get?_of_value_ne_ff hne) with ⟨u, rfl, hold⟩ | ⟨u, rfl, hold⟩
  · obtain ⟨k, hk, hkn⟩ := List.mem_map.1 hnt
    exact callNode_ne_exitNode ((hcall.get? hold).1.2.2 k hk) hkn
  · obtain ⟨k, -, hkm⟩ := List.mem_map.1 hmt
    exact callNode_ne_exitNode hm hkm.symm

end Union

end Structure

end ShapeAnalysis
