import Mathlib.Data.List.Nodup
import Mathlib.Data.List.Perm.Subperm
import ShapeAnalysis.Structure.Basic
import ShapeAnalysis.Proofs.Order

/-!
# Values and well-formedness

A structure is read through `value` and its set of nodes.  Each operation has
its equation for both here.

A structure is *well formed* when every entry is about a predicate of the
vocabulary, has as many nodes as that predicate has places, mentions only nodes
of the structure and is not false, and the names of nodes are below the next new
one.  So a tuple of the wrong length, or with a foreign node, is false
(`WellFormed.admits_of_ne_ff`), and a new node is really new.

What an update of the wrong number of variables writes has the wrong length, and
the structure is no longer well formed.  It is still *closed*: its entries are at
its nodes and not false.
-/

namespace ShapeAnalysis

/-! ## Reserved predicates -/

namespace Vocabulary

/-- The reserved predicates come first in every vocabulary. -/
theorem predicate?_of_isReserved (V : Vocabulary) {p : PredId} (h : isReserved p) :
    V.predicate? p = reserved[p]? := by
  have hlt : p < reserved.length := by simpa [isReserved] using h
  rw [predicate?, predicates, List.getElem?_append_left hlt]

/-- The reserved predicates are in every vocabulary. -/
theorem lt_size_of_isReserved (V : Vocabulary) {p : PredId} (h : isReserved p) : p < V.size := by
  have hlt : p < reserved.length := by simpa [isReserved] using h
  rw [size, predicates, List.length_append]
  exact Nat.lt_add_right _ hlt

/-- The reserved predicates are unary. -/
theorem arity_of_isReserved (V : Vocabulary) {p : PredId} (h : isReserved p) : V.arity p = 1 := by
  have hlt : p < reserved.length := by simpa [isReserved] using h
  have hall : ∀ q ∈ reserved, q.arity = 1 := by decide
  rw [arity, predicate?_of_isReserved V h, List.getElem?_eq_getElem hlt]
  exact hall _ (List.getElem_mem hlt)

theorem arity_ne_zero_of_isReserved (V : Vocabulary) {p : PredId} (h : isReserved p) :
    V.arity p ≠ 0 := by
  rw [V.arity_of_isReserved h]
  exact Nat.one_ne_zero

end Vocabulary

namespace Structure

variable {V : Vocabulary}

/-! ## Well-formed structures -/

/-- The atom belongs to the vocabulary and to the nodes of the structure. -/
def Admits (s : Structure V) (a : Atom) : Prop :=
  a.pred < V.size ∧ a.args.length = V.arity a.pred ∧ ∀ n ∈ a.args, n ∈ s.nodes

instance (s : Structure V) (a : Atom) : Decidable (s.Admits a) :=
  inferInstanceAs (Decidable (_ ∧ _ ∧ _))

/-- The representation invariant of structures. -/
structure WellFormed (s : Structure V) : Prop where
  /-- Entries are at atoms of the structure. -/
  admits : ∀ e ∈ s.values.entries, s.Admits e.1
  /-- No entry is false. -/
  stored : ∀ e ∈ s.values.entries, e.2 ≠ .ff
  /-- The next new node is none of the nodes. -/
  node_lt : ∀ n ∈ s.nodes.toList, n < s.nextNode

instance (s : Structure V) : Decidable s.WellFormed :=
  decidable_of_iff
    ((∀ e ∈ s.values.entries, s.Admits e.1) ∧ (∀ e ∈ s.values.entries, e.2 ≠ .ff) ∧
      ∀ n ∈ s.nodes.toList, n < s.nextNode)
    ⟨fun h => ⟨h.1, h.2.1, h.2.2⟩, fun h => ⟨h.admits, h.stored, h.node_lt⟩⟩

/-- Well-formedness in terms of the view of the values. -/
theorem WellFormed.of_get? {s : Structure V}
    (hget : ∀ a k, s.values.get? a = some k → s.Admits a ∧ k ≠ .ff)
    (hlt : ∀ n ∈ s.nodes, n < s.nextNode) : s.WellFormed where
  admits e he := (hget e.1 e.2 (SortedMap.mem_entries.1 he)).1
  stored e he := (hget e.1 e.2 (SortedMap.mem_entries.1 he)).2
  node_lt := hlt

/-- Entries are at atoms that the structure admits, and none is false. -/
theorem WellFormed.get? {s : Structure V} (hs : s.WellFormed) {a : Atom} {k : Kleene}
    (h : s.values.get? a = some k) : s.Admits a ∧ k ≠ .ff :=
  ⟨hs.admits _ (SortedMap.mem_entries.2 h), hs.stored _ (SortedMap.mem_entries.2 h)⟩

/-- A value that is not false has an entry. -/
theorem get?_of_value_ne_ff {s : Structure V} {p : PredId} {t : List Node}
    (h : s.value p t ≠ .ff) : s.values.get? ⟨p, t⟩ = some (s.value p t) := by
  cases hg : s.values.get? ⟨p, t⟩ with
  | none => simp [value, hg] at h
  | some k => simp [value, hg]

/-- The entries are at nodes of the structure, and none is false. -/
def Closed (s : Structure V) : Prop :=
  ∀ a k, s.values.get? a = some k → (∀ n ∈ a.args, n ∈ s.nodes) ∧ k ≠ .ff

/-- A well-formed structure has entries at its own nodes only. -/
theorem WellFormed.closed {s : Structure V} (hs : s.WellFormed) : s.Closed := fun _ _ h =>
  ⟨(hs.get? h).1.2.2, (hs.get? h).2⟩

/-- Where a value is not false, the nodes are there. -/
theorem Closed.within_of_ne_ff {s : Structure V} (hs : s.Closed) {p : PredId} {t : List Node}
    (h : s.value p t ≠ .ff) : ∀ n ∈ t, n ∈ s.nodes :=
  (hs _ _ (get?_of_value_ne_ff h)).1

/-- Where a value is not false, the tuple fits its predicate. -/
theorem WellFormed.admits_of_ne_ff {s : Structure V} (hs : s.WellFormed) {p : PredId}
    {t : List Node} (h : s.value p t ≠ .ff) : s.Admits ⟨p, t⟩ :=
  (hs.get? (get?_of_value_ne_ff h)).1

/-- What a structure does not admit is false in it. -/
theorem WellFormed.value_eq_ff {s : Structure V} (hs : s.WellFormed) {p : PredId} {t : List Node}
    (h : ¬ s.Admits ⟨p, t⟩) : s.value p t = .ff := by
  by_contra hne
  exact h (hs.admits_of_ne_ff hne)

theorem WellFormed.admits_of_unknown {s : Structure V} (hs : s.WellFormed) {p : PredId}
    {t : List Node} (h : s.value p t = .unknown) : s.Admits ⟨p, t⟩ :=
  hs.admits_of_ne_ff (by simp [h])

/-- The next name is free. -/
theorem WellFormed.nextNode_not_mem {s : Structure V} (hs : s.WellFormed) :
    s.nextNode ∉ s.nodes :=
  fun h => Nat.lt_irrefl _ (hs.node_lt _ h)

theorem WellFormed.ne_nextNode {s : Structure V} (hs : s.WellFormed) {n : Node}
    (hn : n ∈ s.nodes) : n ≠ s.nextNode := by
  rintro rfl
  exact hs.nextNode_not_mem hn

/-- A structure without nodes is well formed. -/
theorem wellFormed_empty (constraints : List Constraint) :
    ({ constraints } : Structure V).WellFormed :=
  .of_get? (fun _ _ h => by cases h) fun _ h => by cases h

/-! ## Unknown atoms -/

/-- The unknown atoms are those with an unknown value. -/
theorem mem_unknownAtoms {s : Structure V} {a : Atom} :
    a ∈ s.unknownAtoms ↔ s.value a.pred a.args = .unknown := by
  simp only [unknownAtoms, List.mem_filterMap, Prod.exists, Option.ite_none_right_eq_some,
    Option.some.injEq, SortedMap.mem_entries]
  constructor
  · rintro ⟨a', k, hget, rfl, rfl⟩
    rw [value, hget, Option.getD_some]
  · intro h
    have hget := get?_of_value_ne_ff (s := s) (p := a.pred) (t := a.args) (by simp [h])
    exact ⟨a, .unknown, h ▸ hget, rfl, rfl⟩

theorem nodup_unknownAtoms (s : Structure V) : s.unknownAtoms.Nodup := by
  refine s.values.nodup_entries.filterMap ?_
  rintro ⟨a, k⟩ ⟨a', k'⟩ b hb hb'
  simp only [Option.mem_def, Option.ite_none_right_eq_some, Option.some.injEq] at hb hb'
  rw [hb.1, hb.2, hb'.1, hb'.2]

/-- A structure in which one unknown atom became definite, and none unknown, has
fewer unknown atoms. -/
theorem length_filter_unknownAtoms_lt {r s : Structure V} {P : Atom → Bool}
    (hle : ∀ a, P a → r.value a.pred a.args = .unknown → s.value a.pred a.args = .unknown)
    {a : Atom} (ha : P a) (hs : s.value a.pred a.args = .unknown)
    (hr : r.value a.pred a.args ≠ .unknown) :
    (r.unknownAtoms.filter P).length < (s.unknownAtoms.filter P).length := by
  have hnot : a ∉ r.unknownAtoms.filter P := by
    rw [List.mem_filter, mem_unknownAtoms]
    exact fun h => hr h.1
  have hnodup := List.nodup_cons.2 ⟨hnot, r.nodup_unknownAtoms.filter _⟩
  refine (List.subperm_of_subset hnodup fun b hb => ?_).length_le
  rw [List.mem_filter, mem_unknownAtoms]
  rcases List.mem_cons.1 hb with rfl | hb
  · exact ⟨hs, ha⟩
  · rw [List.mem_filter, mem_unknownAtoms] at hb
    exact ⟨hle b hb.2 hb.1, hb.2⟩

/-! ## Setting a value -/

@[simp] theorem nodes_set (s : Structure V) (p : PredId) (t : List Node) (k : Kleene) :
    (s.set p t k).nodes = s.nodes := rfl

@[simp] theorem constraints_set (s : Structure V) (p : PredId) (t : List Node) (k : Kleene) :
    (s.set p t k).constraints = s.constraints := rfl

/-- To set a value changes one entry, and removes it if the value is false. -/
theorem get?_set (s : Structure V) (p : PredId) (t : List Node) (k : Kleene) (a : Atom) :
    (s.set p t k).values.get? a =
      if a = ⟨p, t⟩ then (if k = .ff then none else some k) else s.values.get? a := by
  by_cases hk : k = .ff
  · simp [set, hk]
  · simp [set, hk]

/-- A value that is set is read back, and the others are as before. -/
@[simp] theorem value_set (s : Structure V) (p q : PredId) (t u : List Node) (k : Kleene) :
    (s.set p t k).value q u = if q = p ∧ u = t then k else s.value q u := by
  simp only [value, get?_set, Atom.mk.injEq]
  split
  · cases k <;> rfl
  · rfl

/-- Only `sm` decides which nodes are summaries. -/
theorem isSummary_set {s : Structure V} {p : PredId} (hp : p ≠ Vocabulary.sm) (t : List Node)
    (k : Kleene) (n : Node) : (s.set p t k).isSummary n = s.isSummary n := by
  simp [isSummary, hp.symm]

/-- An entry after setting a value is the new one or one from before. -/
theorem entry_set_cases {s : Structure V} {p : PredId} {t : List Node} {k l : Kleene} {a : Atom}
    (h : (s.set p t k).values.get? a = some l) :
    a = ⟨p, t⟩ ∧ l ≠ .ff ∨ s.values.get? a = some l := by
  rw [get?_set] at h
  split at h
  · rename_i ha
    rw [Option.ite_none_left_eq_some] at h
    obtain ⟨hk, hl⟩ := h
    exact .inl ⟨ha, Option.some.inj hl ▸ hk⟩
  · exact .inr h

/-- A value may be set wherever the structure admits one. -/
theorem WellFormed.set {s : Structure V} (hs : s.WellFormed) {p : PredId} {t : List Node}
    (ht : s.Admits ⟨p, t⟩) (k : Kleene) : (s.set p t k).WellFormed := by
  refine .of_get? (fun a l h => ?_) hs.node_lt
  rcases entry_set_cases h with ⟨rfl, hl⟩ | h
  · exact ⟨ht, hl⟩
  · exact hs.get? h

theorem Closed.set {s : Structure V} (hs : s.Closed) {p : PredId} {t : List Node}
    (ht : ∀ n ∈ t, n ∈ s.nodes) (k : Kleene) : (s.set p t k).Closed := by
  intro a l h
  rcases entry_set_cases h with ⟨rfl, hl⟩ | h
  · exact ⟨ht, hl⟩
  · exact hs a l h

/-! ## Writing many values -/

/-- Write the values of a function at the tuples of a list. -/
def writeAll (s : Structure V) (p : PredId) (ts : List (List Node)) (g : List Node → Kleene) :
    Structure V :=
  ts.foldl (fun s t => s.set p t (g t)) s

section Write

variable (s : Structure V) (p : PredId) (ts : List (List Node)) (g : List Node → Kleene)

/-- A list of values is written at its tuples.  A tuple that comes twice gets the same value
each time. -/
theorem value_writeAll (q : PredId) (w : List Node) :
    (s.writeAll p ts g).value q w = if q = p ∧ w ∈ ts then g w else s.value q w := by
  induction ts generalizing s with
  | nil => simp [writeAll]
  | cons t ts ih =>
    have hstep : s.writeAll p (t :: ts) g = (s.set p t (g t)).writeAll p ts g := rfl
    rw [hstep, ih, value_set]
    by_cases hts : q = p ∧ w ∈ ts
    · rw [if_pos hts, if_pos ⟨hts.1, List.mem_cons_of_mem _ hts.2⟩]
    · rw [if_neg hts]
      by_cases ht : q = p ∧ w = t
      · rw [if_pos ht, if_pos ⟨ht.1, ht.2 ▸ List.mem_cons_self⟩, ht.2]
      · rw [if_neg ht, if_neg]
        rintro ⟨hq, hw⟩
        rcases List.mem_cons.1 hw with hw | hw
        · exact ht ⟨hq, hw⟩
        · exact hts ⟨hq, hw⟩

@[simp] theorem nodes_writeAll : (s.writeAll p ts g).nodes = s.nodes := by
  induction ts generalizing s with
  | nil => rfl
  | cons t ts ih => exact ih _

@[simp] theorem constraints_writeAll : (s.writeAll p ts g).constraints = s.constraints := by
  induction ts generalizing s with
  | nil => rfl
  | cons t ts ih => exact ih _

variable {s p} in
/-- Values may be written wherever the structure admits them. -/
theorem WellFormed.writeAll (hs : s.WellFormed) (hts : ∀ t ∈ ts, s.Admits ⟨p, t⟩) :
    (s.writeAll p ts g).WellFormed := by
  induction ts generalizing s with
  | nil => exact hs
  | cons t ts ih =>
    exact ih (hs.set (hts t List.mem_cons_self) _) fun u hu => hts u (List.mem_cons_of_mem _ hu)

variable {s p} in
theorem Closed.writeAll (hs : s.Closed) (hts : ∀ t ∈ ts, ∀ n ∈ t, n ∈ s.nodes) :
    (s.writeAll p ts g).Closed := by
  induction ts generalizing s with
  | nil => exact hs
  | cons t ts ih =>
    exact ih (hs.set (hts t List.mem_cons_self) _) fun u hu => hts u (List.mem_cons_of_mem _ hu)

end Write

/-- To set a unary predicate on all nodes writes one value at each. -/
theorem setAll_eq_writeAll (s : Structure V) (p : PredId) (k : Kleene) :
    s.setAll p k = s.writeAll p (s.nodes.toList.map fun n => [n]) fun _ => k := by
  rw [setAll, writeAll, List.foldl_map]

@[simp] theorem nodes_setAll (s : Structure V) (p : PredId) (k : Kleene) :
    (s.setAll p k).nodes = s.nodes := by
  rw [setAll_eq_writeAll, nodes_writeAll]

/-- It has that value on every node. -/
theorem value_setAll_self {s : Structure V} (p : PredId) (k : Kleene) {n : Node}
    (hn : n ∈ s.nodes) : (s.setAll p k).value p [n] = k := by
  rw [setAll_eq_writeAll, value_writeAll, if_pos ⟨rfl, List.mem_map_of_mem hn⟩]

/-- No other predicate changes. -/
theorem value_setAll_of_ne (s : Structure V) {p q : PredId} (hq : q ≠ p) (k : Kleene)
    (t : List Node) : (s.setAll p k).value q t = s.value q t := by
  rw [setAll_eq_writeAll, value_writeAll, if_neg fun h => hq h.1]

/-- So the structure stays well-formed. -/
theorem WellFormed.setAll {s : Structure V} (hs : s.WellFormed) {p : PredId} (hp : p < V.size)
    (hunary : V.arity p = 1) (k : Kleene) : (s.setAll p k).WellFormed := by
  rw [setAll_eq_writeAll]
  refine WellFormed.writeAll _ _ hs fun t ht => ?_
  obtain ⟨n, hn, rfl⟩ := List.mem_map.1 ht
  exact ⟨hp, hunary.symm, by simpa using hn⟩

theorem WellFormed.setAll_of_isReserved {s : Structure V} (hs : s.WellFormed) {p : PredId}
    (hp : Vocabulary.isReserved p) (k : Kleene) : (s.setAll p k).WellFormed :=
  hs.setAll (V.lt_size_of_isReserved hp) (V.arity_of_isReserved hp) k

theorem Closed.setAll {s : Structure V} (hs : s.Closed) (p : PredId) (k : Kleene) :
    (s.setAll p k).Closed := by
  rw [setAll_eq_writeAll]
  refine hs.writeAll _ _ fun t ht => ?_
  obtain ⟨n, hn, rfl⟩ := List.mem_map.1 ht
  simpa using hn

/-! ## Adding a node -/

/-- A new node has the next name. -/
@[simp] theorem mem_nodes_newNode (s : Structure V) (n : Node) :
    n ∈ s.newNode.1.nodes ↔ n = s.nextNode ∨ n ∈ s.nodes := by
  simp [newNode]

@[simp] theorem value_newNode (s : Structure V) (p : PredId) (t : List Node) :
    s.newNode.1.value p t = s.value p t := rfl

/-- A well-formed structure with a new node is well-formed. -/
theorem WellFormed.newNode {s : Structure V} (hs : s.WellFormed) : s.newNode.1.WellFormed := by
  refine .of_get? (fun a k h => ?_) (fun n hn => ?_)
  · obtain ⟨⟨hp, hlen, hmem⟩, hk⟩ := hs.get? (a := a) (k := k) h
    exact ⟨⟨hp, hlen, fun n hn => (s.mem_nodes_newNode n).2 (.inr (hmem n hn))⟩, hk⟩
  · rcases (s.mem_nodes_newNode n).1 hn with rfl | hn
    · exact Nat.lt_succ_self _
    · exact Nat.lt_succ_of_lt (hs.node_lt n hn)

theorem Closed.newNode {s : Structure V} (hs : s.Closed) : s.newNode.1.Closed := fun a k h =>
  ⟨fun n hn => (s.mem_nodes_newNode n).2 (.inr ((hs a k h).1 n hn)), (hs a k h).2⟩

/-! ## Removing nodes -/

/-- To remove a node takes it out of the nodes. -/
theorem nodes_removeNode (s : Structure V) (n : Node) :
    (s.removeNode n).nodes.toList = s.nodes.toList.filter (· ≠ n) := by
  unfold removeNode
  split
  · rfl
  · rename_i hn
    refine (List.filter_eq_self.2 fun m hm => ?_).symm
    have hne : m ≠ n := fun h => hn (h ▸ hm)
    simpa using hne

theorem mem_nodes_removeNode {s : Structure V} (n m : Node) :
    m ∈ (s.removeNode n).nodes ↔ m ∈ s.nodes ∧ m ≠ n := by
  rw [← SortedSet.mem_toList, nodes_removeNode]
  simp

/-- Values at tuples without it stay. -/
theorem value_removeNode_of_not_mem (s : Structure V) {n : Node} (p : PredId) {t : List Node}
    (ht : n ∉ t) : (s.removeNode n).value p t = s.value p t := by
  unfold removeNode
  split
  · cases hget : s.values.get? ⟨p, t⟩ <;> simp [value, hget, ht, Option.filter]
  · rfl

/-- An entry after removing a node is one from before that does not mention it,
unless the structure did not have the node. -/
theorem get?_of_removeNode {s : Structure V} {n : Node} {a : Atom} {k : Kleene}
    (h : (s.removeNode n).values.get? a = some k) :
    s.values.get? a = some k ∧ (n ∈ s.nodes → n ∉ a.args) := by
  unfold removeNode at h
  split at h
  · have hkept : s.values.get? a = some k ∧ n ∉ a.args := by
      simpa [Option.filter_eq_some_iff] using h
    exact ⟨hkept.1, fun _ => hkept.2⟩
  · rename_i hn
    exact ⟨h, fun hn' => absurd hn' hn⟩

theorem Closed.removeNode {s : Structure V} (hs : s.Closed) (n : Node) :
    (s.removeNode n).Closed := by
  intro a k h
  obtain ⟨hget, hfree⟩ := get?_of_removeNode h
  obtain ⟨hmem, hk⟩ := hs a k hget
  refine ⟨fun m hm => (mem_nodes_removeNode n m).2 ⟨hmem m hm, ?_⟩, hk⟩
  rintro rfl
  exact hfree (hmem _ hm) hm

/-- The rest of a well-formed structure is well-formed. -/
theorem WellFormed.removeNode {s : Structure V} (hs : s.WellFormed) (n : Node) :
    (s.removeNode n).WellFormed := by
  refine .of_get? (fun a k h => ?_) (fun m hm => ?_)
  · obtain ⟨⟨hp, hlen, -⟩, hk⟩ := hs.get? (get?_of_removeNode h).1
    exact ⟨⟨hp, hlen, (hs.closed.removeNode n a k h).1⟩, hk⟩
  · have hnext : (s.removeNode n).nextNode = s.nextNode := by
      unfold Structure.removeNode
      split <;> rfl
    rw [hnext]
    exact hs.node_lt m ((mem_nodes_removeNode n m).1 hm).1

theorem constraints_removeNode (s : Structure V) (n : Node) :
    (s.removeNode n).constraints = s.constraints := by
  unfold removeNode
  split <;> rfl

/-- To remove nodes one after the other takes them all out. -/
theorem nodes_foldl_removeNode (ns : List Node) (s : Structure V) :
    (ns.foldl removeNode s).nodes.toList = s.nodes.toList.filter (· ∉ ns) := by
  induction ns generalizing s with
  | nil => simp
  | cons n ns ih =>
    rw [List.foldl_cons, ih, nodes_removeNode, List.filter_filter]
    refine List.filter_congr fun m _ => ?_
    simp [Bool.and_comm]

theorem mem_nodes_foldl_removeNode {ns : List Node} {s : Structure V} {m : Node} :
    m ∈ (ns.foldl removeNode s).nodes ↔ m ∈ s.nodes ∧ m ∉ ns := by
  rw [← SortedSet.mem_toList, nodes_foldl_removeNode]
  simp

/-- Values at tuples without any of them stay. -/
theorem value_foldl_removeNode (ns : List Node) (s : Structure V) (p : PredId) {t : List Node}
    (ht : ∀ n ∈ t, n ∉ ns) : (ns.foldl removeNode s).value p t = s.value p t := by
  induction ns generalizing s with
  | nil => rfl
  | cons n ns ih =>
    have hn : n ∉ t := fun h => ht n h List.mem_cons_self
    rw [List.foldl_cons, ih _ fun m hm h => ht m hm (List.mem_cons_of_mem _ h),
      value_removeNode_of_not_mem s p hn]

theorem constraints_foldl_removeNode (ns : List Node) (s : Structure V) :
    (ns.foldl removeNode s).constraints = s.constraints := by
  induction ns generalizing s with
  | nil => rfl
  | cons n ns ih => exact (ih _).trans (s.constraints_removeNode n)

theorem Closed.foldl_removeNode {s : Structure V} (hs : s.Closed) (ns : List Node) :
    (ns.foldl Structure.removeNode s).Closed := by
  induction ns generalizing s with
  | nil => exact hs
  | cons n ns ih => exact ih (hs.removeNode n)

/-- Nodes may be removed one after the other. -/
theorem WellFormed.foldl_removeNode {s : Structure V} (hs : s.WellFormed) (ns : List Node) :
    (ns.foldl Structure.removeNode s).WellFormed := by
  induction ns generalizing s with
  | nil => exact hs
  | cons n ns ih => exact ih (hs.removeNode n)

/-! ## Removing the nodes on which a predicate is true -/

theorem constraints_filterNodes (s : Structure V) (p : PredId) :
    (s.filterNodes p).constraints = s.constraints :=
  constraints_foldl_removeNode _ s

theorem Closed.filterNodes {s : Structure V} (hs : s.Closed) (p : PredId) :
    (s.filterNodes p).Closed :=
  hs.foldl_removeNode _

/-- So the nodes that a predicate holds of may be removed. -/
theorem WellFormed.filterNodes {s : Structure V} (hs : s.WellFormed) (p : PredId) :
    (s.filterNodes p).WellFormed :=
  hs.foldl_removeNode _

/-- They are those on which it is true, and an unknown value keeps its node. -/
theorem nodes_filterNodes (s : Structure V) (p : PredId) :
    (s.filterNodes p).nodes.toList = s.nodes.toList.filter fun n => s.value p [n] ≠ .tt := by
  rw [filterNodes, nodes_foldl_removeNode]
  refine List.filter_congr fun n hn => ?_
  simp [SortedSet.mem_toList.1 hn]

/-- The nodes that are left are those on which the predicate is not true. -/
theorem mem_nodes_filterNodes {s : Structure V} {p : PredId} {m : Node} :
    m ∈ (s.filterNodes p).nodes ↔ m ∈ s.nodes ∧ s.value p [m] ≠ .tt := by
  rw [← SortedSet.mem_toList, nodes_filterNodes]
  simp

/-- Tuples of nodes that are left keep their values. -/
theorem value_filterNodes (s : Structure V) (p q : PredId) {t : List Node}
    (ht : ∀ n ∈ t, n ∈ (s.filterNodes p).nodes) : (s.filterNodes p).value q t = s.value q t := by
  refine value_foldl_removeNode _ s q fun n hn hdoomed => ?_
  have hlive := (mem_nodes_filterNodes.1 (ht n hn)).2
  simp only [List.mem_filter, decide_eq_true_eq] at hdoomed
  exact hlive hdoomed.2

/-! ## Tuples that stay -/

theorem map_eq_self {f : Node → Node} {u : List Node} (h : ∀ n ∈ u, f n = n) : u.map f = u :=
  (List.map_congr_left h).trans (List.map_id u)

theorem map_map_eq_self {f g : Node → Node} {u : List Node} (h : ∀ n ∈ u, g (f n) = n) :
    (u.map f).map g = u := by
  rw [List.map_map]
  exact map_eq_self h

/-! ## Copying a node -/

/-- Put the original `u` back in the place of its copy `c`. -/
def uncopy (c u n : Node) : Node := if n = c then u else n

/-- A variant of a tuple is one that becomes the tuple when the copy is put back. -/
theorem mem_variants {u c : Node} {args t : List Node} (hc : c ∉ args) :
    t ∈ variants u c args ↔ t.map (uncopy c u) = args := by
  induction args generalizing t with
  | nil => simp [variants]
  | cons n rest ih =>
    have hnc : n ≠ c := fun h => hc (h ▸ List.mem_cons_self)
    have hrest : c ∉ rest := fun h => hc (List.mem_cons_of_mem _ h)
    simp only [variants, List.mem_flatMap, ih hrest]
    constructor
    · rintro ⟨t', rfl, ht⟩
      split at ht
      · rename_i hnu
        simp only [List.mem_cons, List.not_mem_nil, or_false] at ht
        rcases ht with rfl | rfl
        · simp [uncopy, hnc]
        · simp [uncopy, hnu]
      · simp only [List.mem_singleton] at ht
        subst ht
        simp [uncopy, hnc]
    · intro ht
      cases t with
      | nil => cases ht
      | cons m ms =>
        rw [List.map_cons, List.cons.injEq] at ht
        refine ⟨ms, ht.2, ?_⟩
        have hm := ht.1
        unfold uncopy at hm
        split at hm
        · rename_i hmc
          simp [hm, hmc]
        · split <;> simp [hm]

@[simp] theorem duplicateNode_snd (s : Structure V) (u : Node) :
    (s.duplicateNode u).2 = s.nextNode := rfl

/-- A copy adds one node, with the next name. -/
@[simp] theorem mem_nodes_duplicateNode (s : Structure V) (u n : Node) :
    n ∈ (s.duplicateNode u).1.nodes ↔ n = s.nextNode ∨ n ∈ s.nodes :=
  s.mem_nodes_newNode n

/-- An entry of a copy is the one of the original, with the copy read as the node it was made
of. -/
theorem WellFormed.get?_duplicateNode {s : Structure V} (hs : s.WellFormed) (u : Node) (p : PredId)
    (t : List Node) : (s.duplicateNode u).1.values.get? ⟨p, t⟩ =
      s.values.get? ⟨p, t.map (uncopy s.nextNode u)⟩ := by
  have hfresh : ∀ {a k}, s.values.get? a = some k → s.nextNode ∉ a.args := fun h hmem =>
    hs.nextNode_not_mem ((hs.get? h).1.2.2 _ hmem)
  -- A copied entry at the tuple comes from the entry with the copy put back.
  have hcopy : ∀ e ∈ s.values.entries.flatMap (fun d =>
      (variants u s.nextNode d.1.args).map fun t => ((⟨d.1.pred, t⟩ : Atom), d.2)), e.1 = ⟨p, t⟩ →
      s.values.get? ⟨p, t.map (uncopy s.nextNode u)⟩ = some e.2 := by
    intro e he heq
    obtain ⟨⟨a, k⟩, ha, he⟩ := List.mem_flatMap.1 he
    obtain ⟨t', ht', rfl⟩ := List.mem_map.1 he
    cases heq
    have hget := SortedMap.mem_entries.1 ha
    rw [(mem_variants (hfresh hget)).1 ht']
    exact hget
  cases hg : s.values.get? ⟨p, t.map (uncopy s.nextNode u)⟩ with
  | some k =>
    refine SortedMap.get?_insertAll_of_mem (fun e he heq => ?_) ?_ _
    · have h := hcopy e he heq
      rw [hg] at h
      exact (Option.some.inj h).symm
    · have hvar := (mem_variants (u := u) (hfresh hg)).2 (rfl : t.map _ = _)
      exact ⟨(⟨p, t⟩, k), List.mem_flatMap.2 ⟨_, SortedMap.mem_entries.2 hg,
        List.mem_map.2 ⟨t, hvar, rfl⟩⟩, rfl⟩
  | none =>
    refine (SortedMap.get?_insertAll_of_forall_ne (fun e he heq => ?_) _).trans ?_
    · have h := hcopy e he heq
      rw [hg] at h
      cases h
    · -- A tuple with the new node has no entry, and without it nothing is put back.
      by_cases hmem : s.nextNode ∈ t
      · refine Option.eq_none_iff_forall_ne_some.2 fun k hk => ?_
        exact hfresh hk hmem
      · have hid : t.map (uncopy s.nextNode u) = t := by
          refine map_eq_self fun n hn => ?_
          have hne : n ≠ s.nextNode := fun h => hmem (h ▸ hn)
          simp [uncopy, hne]
        rw [hid] at hg
        exact hg

/-- A copy looks like the original in every place. -/
theorem WellFormed.value_duplicateNode {s : Structure V} (hs : s.WellFormed) (u : Node)
    (p : PredId) (t : List Node) :
    (s.duplicateNode u).1.value p t = s.value p (t.map (uncopy s.nextNode u)) := by
  simp only [value, hs.get?_duplicateNode]

/-- A well-formed structure with a copy is well-formed. -/
theorem WellFormed.duplicateNode {s : Structure V} (hs : s.WellFormed) (u : Node) :
    (s.duplicateNode u).1.WellFormed := by
  refine .of_get? (fun a k h => ?_) (hs.newNode.node_lt)
  rw [show a = ⟨a.pred, a.args⟩ from rfl, hs.get?_duplicateNode] at h
  obtain ⟨⟨hp, hlen, hmem⟩, hk⟩ := hs.get? h
  refine ⟨⟨hp, by simpa using hlen, fun n hn => ?_⟩, hk⟩
  rw [mem_nodes_duplicateNode]
  by_cases hnc : n = s.nextNode
  · exact .inl hnc
  · have h := hmem _ (List.mem_map_of_mem hn)
    rw [uncopy, if_neg hnc] at h
    exact .inr h

end Structure

end ShapeAnalysis
