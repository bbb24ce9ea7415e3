import ShapeAnalysis.Proofs.Combine
import ShapeAnalysis.Proofs.Returns
import ShapeAnalysis.Proofs.Update

/-!
# Marked unions

A return runs on the union of a call and an exit structure, each node marked by the side
it comes from.  `UnionOn` says what a union is without saying how its nodes are numbered:
the nodes of both sides under new names, with the values they had, and nothing true or
unknown between the sides.  Unions follow embeddings of the two sides
(`UnionOn.embedding`): a tuple of the union is one of the call, one of the exit or a mixed
one, and so is its image.

The main statement is about returns (`applyBinary_marked_union`).  The pipeline runs on a
marked union, which follows embeddings, and no mark and no killed node is left in what a
return answers with.
-/

namespace ShapeAnalysis

namespace Structure

variable {V : Vocabulary}

/-! ## Unions -/

/-- The structure `u` is the disjoint union of a call and an exit structure, whose nodes
are renamed by `f` and `g`.  Predicates with arguments have the values of the two sides,
as far as they are among `P`. -/
structure UnionOn (P : PredId → Prop) (combiner : Kleene → Kleene → Kleene)
    (call exit u : Structure V) (f g : Node → Node) : Prop where
  /-- Nodes of the call keep apart. -/
  call_inj : ∀ m ∈ call.nodes, ∀ n ∈ call.nodes, f m = f n → m = n
  /-- Nodes of the exit keep apart. -/
  exit_inj : ∀ m ∈ exit.nodes, ∀ n ∈ exit.nodes, g m = g n → m = n
  /-- No node comes from both sides. -/
  apart : ∀ m ∈ call.nodes, ∀ n ∈ exit.nodes, f m ≠ g n
  /-- Every node comes from one side. -/
  mem_nodes : ∀ n, n ∈ u.nodes ↔ (∃ m ∈ call.nodes, f m = n) ∨ ∃ m ∈ exit.nodes, g m = n
  /-- Tuples of the call have their values. -/
  call_value : ∀ p, P p → V.arity p ≠ 0 → ∀ t, (∀ n ∈ t, n ∈ call.nodes) →
    u.value p (t.map f) = call.value p t
  /-- Tuples of the exit have their values. -/
  exit_value : ∀ p, P p → V.arity p ≠ 0 → ∀ t, (∀ n ∈ t, n ∈ exit.nodes) →
    u.value p (t.map g) = exit.value p t
  /-- Tuples with nodes of both sides are false. -/
  mixed : ∀ p t, (∃ m ∈ call.nodes, f m ∈ t) → (∃ n ∈ exit.nodes, g n ∈ t) → u.value p t = .ff
  /-- Predicates without arguments are combined. -/
  nullary : ∀ p ∈ V.withArity 0, u.value p [] = combiner (call.value p []) (exit.value p [])

theorem unionOn_combine (combiner : Kleene → Kleene → Kleene) {call exit : Structure V}
    (hcall : call.WellFormed) (hexit : exit.WellFormed) :
    UnionOn (fun _ => True) combiner call exit (combine combiner call exit) call.callNode
      (call.exitNode exit) where
  call_inj := callNode_injOn
  exit_inj := exitNode_injOn
  apart _ hm _ _ := callNode_ne_exitNode hm
  mem_nodes _ := mem_nodes_combine combiner call exit
  call_value _ _ hp _ ht := value_combine_call combiner hcall hexit hp ht
  exit_value _ _ hp _ ht := value_combine_exit combiner hcall hexit hp ht
  mixed p _ hleft hright := value_combine_mixed combiner hcall hexit p hleft hright
  nullary _ hp := value_combine_nil combiner call exit hp

section Sides

variable {P : PredId → Prop} {combiner : Kleene → Kleene → Kleene} {call exit u : Structure V}
  {f g : Node → Node} (hu : UnionOn P combiner call exit u f g)
include hu

/-- The two sides of a union trade places. -/
theorem UnionOn.swap : UnionOn P (fun a b => combiner b a) exit call u g f where
  call_inj := hu.exit_inj
  exit_inj := hu.call_inj
  apart m hm n hn := (hu.apart n hn m hm).symm
  mem_nodes n := (hu.mem_nodes n).trans or_comm
  call_value := hu.exit_value
  exit_value := hu.call_value
  mixed p t hexit hcall := hu.mixed p t hcall hexit
  nullary := hu.nullary

/-- A tuple of a union is one of the call, one of the exit or a mixed one. -/
theorem UnionOn.tuple_cases {t : List Node} (ht : ∀ n ∈ t, n ∈ u.nodes) :
    (∃ w : List Node, (∀ n ∈ w, n ∈ call.nodes) ∧ w.map f = t) ∨
      (∃ w : List Node, (∀ n ∈ w, n ∈ exit.nodes) ∧ w.map g = t) ∨
      (∃ m ∈ call.nodes, f m ∈ t) ∧ ∃ n ∈ exit.nodes, g n ∈ t := by
  by_cases hcall : ∀ n ∈ t, ∃ m ∈ call.nodes, f m = n
  · exact .inl (exists_tuple_of_forall hcall)
  by_cases hexit : ∀ n ∈ t, ∃ m ∈ exit.nodes, g m = n
  · exact .inr (.inl (exists_tuple_of_forall hexit))
  -- Some node of the tuple is not of the call, and some node is not of the exit.
  push Not at hcall hexit
  obtain ⟨n, hn, hncall⟩ := hcall
  obtain ⟨m, hm, hmexit⟩ := hexit
  have hleft := ((hu.mem_nodes m).1 (ht m hm)).resolve_right fun ⟨k, hk, h⟩ => hmexit k hk h
  have hright := ((hu.mem_nodes n).1 (ht n hn)).resolve_left fun ⟨k, hk, h⟩ => hncall k hk h
  obtain ⟨m', hm', rfl⟩ := hleft
  obtain ⟨n', hn', rfl⟩ := hright
  exact .inr (.inr ⟨⟨m', hm', hm⟩, ⟨n', hn', hn⟩⟩)

/-- Maps of the two sides make a map of the union. -/
theorem UnionOn.exists_map (h k : Node → Node) :
    ∃ φ : Node → Node, (∀ n ∈ call.nodes, φ (f n) = h n) ∧ ∀ n ∈ exit.nodes, φ (g n) = k n := by
  have himage : ∀ m, ∃ m', (∀ n ∈ call.nodes, f n = m → m' = h n) ∧
      ∀ n ∈ exit.nodes, g n = m → m' = k n := by
    intro m
    by_cases hcall : ∃ n ∈ call.nodes, f n = m
    · obtain ⟨n, hn, rfl⟩ := hcall
      refine ⟨h n, fun n' hn' heq => ?_, fun n' hn' heq => absurd heq.symm (hu.apart n hn n' hn')⟩
      rw [hu.call_inj n' hn' n hn heq]
    · by_cases hexit : ∃ n ∈ exit.nodes, g n = m
      · obtain ⟨n, hn, rfl⟩ := hexit
        refine ⟨k n, fun n' hn' heq => absurd ⟨n', hn', heq⟩ hcall, fun n' hn' heq => ?_⟩
        rw [hu.exit_inj n' hn' n hn heq]
      · exact ⟨m, fun n hn heq => absurd ⟨n, hn, heq⟩ hcall,
          fun n hn heq => absurd ⟨n, hn, heq⟩ hexit⟩
  choose φ hφ using himage
  exact ⟨φ, fun n hn => (hφ _).1 n hn rfl, fun n hn => (hφ _).2 n hn rfl⟩

end Sides

/-! ## Embeddings of unions -/

section Follow

variable {combiner : Kleene → Kleene → Kleene} {call exit u c d w : Structure V}
  {f g f' g' h k φ : Node → Node} (hu : UnionOn (fun _ => True) combiner call exit u f g)
  (hw : UnionOn (fun _ => True) combiner c d w f' g')
  (hh : Embedding h c call) (hk : Embedding k d exit)
  (hφcall : ∀ n ∈ c.nodes, φ (f' n) = f (h n)) (hφexit : ∀ n ∈ d.nodes, φ (g' n) = g (k n))

include hu hh in
/-- Two nodes of one side meet on summary nodes only. -/
theorem UnionOn.isSummary_of_eq {m n : Node} (hm : m ∈ c.nodes) (hn : n ∈ c.nodes) (hne : m ≠ n)
    (heq : f (h m) = f (h n)) : u.isSummary (f (h m)) := by
  have himage : h m = h n := hu.call_inj _ (hh.maps m hm) _ (hh.maps n hn) heq
  have harity : V.arity Vocabulary.sm ≠ 0 := V.arity_ne_zero_of_isReserved rfl
  have hvalue : u.value Vocabulary.sm [f (h m)] = call.value Vocabulary.sm [h m] :=
    hu.call_value Vocabulary.sm trivial harity [h m] (by simpa using hh.maps m hm)
  rw [isSummary, hvalue]
  exact hh.summary m hm n hn hne himage

include hu hw hh hφcall in
/-- On a tuple of one side values lose precision as they do in that side. -/
theorem UnionOn.value_le_of_side {p : PredId} (hp : V.arity p ≠ 0) {v : List Node}
    (hv : c.Admits ⟨p, v⟩) : (w.value p (v.map f')).le (u.value p ((v.map f').map φ)) := by
  have himage : (v.map f').map φ = (v.map h).map f := by
    rw [List.map_map, List.map_map]
    exact List.map_congr_left fun n hn => hφcall n (hv.2.2 n hn)
  have hmem : ∀ m ∈ v.map h, m ∈ call.nodes :=
    List.forall_mem_map.2 fun n hn => hh.maps n (hv.2.2 n hn)
  rw [himage, hw.call_value p trivial hp v hv.2.2, hu.call_value p trivial hp _ hmem]
  exact hh.value_le p v hv

include hu hw hh hk hφcall hφexit

theorem UnionOn.value_le {p : PredId} (hp : V.arity p ≠ 0) {t : List Node}
    (ht : w.Admits ⟨p, t⟩) : (w.value p t).le (u.value p (t.map φ)) := by
  obtain ⟨hlt, hlen, hmem⟩ := ht
  rcases hw.tuple_cases hmem with ⟨v, hv, rfl⟩ | ⟨v, hv, rfl⟩ | ⟨⟨m, hm, hmt⟩, n, hn, hnt⟩
  · exact hu.value_le_of_side hw hh hφcall hp ⟨hlt, by simpa using hlen, hv⟩
  · exact hu.swap.value_le_of_side hw.swap hk hφexit hp ⟨hlt, by simpa using hlen, hv⟩
  · -- The image of a mixed tuple is mixed.
    have hleft : f (h m) ∈ t.map φ := hφcall m hm ▸ List.mem_map_of_mem hmt
    have hright : g (k n) ∈ t.map φ := hφexit n hn ▸ List.mem_map_of_mem hnt
    rw [hw.mixed p t ⟨m, hm, hmt⟩ ⟨n, hn, hnt⟩,
      hu.mixed p _ ⟨h m, hh.maps m hm, hleft⟩ ⟨k n, hk.maps n hn, hright⟩]
    exact Kleene.le_refl _

theorem UnionOn.isSummary_of_map_eq {m n : Node} (hm : m ∈ w.nodes) (hn : n ∈ w.nodes)
    (hne : m ≠ n) (heq : φ m = φ n) : u.isSummary (φ m) := by
  rcases (hw.mem_nodes m).1 hm with ⟨i, hi, rfl⟩ | ⟨i, hi, rfl⟩ <;>
    rcases (hw.mem_nodes n).1 hn with ⟨j, hj, rfl⟩ | ⟨j, hj, rfl⟩
  · rw [hφcall i hi, hφcall j hj] at heq
    rw [hφcall i hi]
    exact hu.isSummary_of_eq hh hi hj (fun h => hne (congrArg f' h)) heq
  · rw [hφcall i hi, hφexit j hj] at heq
    exact absurd heq (hu.apart _ (hh.maps i hi) _ (hk.maps j hj))
  · rw [hφexit i hi, hφcall j hj] at heq
    exact absurd heq.symm (hu.apart _ (hh.maps j hj) _ (hk.maps i hi))
  · rw [hφexit i hi, hφexit j hj] at heq
    rw [hφexit i hi]
    exact hu.swap.isSummary_of_eq hk hi hj (fun h => hne (congrArg g' h)) heq

/-- A map of unions that goes along embeddings of the two sides is an embedding, when
combining loses precision only. -/
theorem UnionOn.embedding
    (hcombiner : ∀ {a b a' b' : Kleene}, a.le a' → b.le b' → (combiner a b).le (combiner a' b')) :
    Embedding φ w u where
  maps m hm := by
    rcases (hw.mem_nodes m).1 hm with ⟨n, hn, rfl⟩ | ⟨n, hn, rfl⟩
    · rw [hφcall n hn]
      exact (hu.mem_nodes _).2 (.inl ⟨h n, hh.maps n hn, rfl⟩)
    · rw [hφexit n hn]
      exact (hu.mem_nodes _).2 (.inr ⟨k n, hk.maps n hn, rfl⟩)
  onto m hm := by
    rcases (hu.mem_nodes m).1 hm with ⟨l, hl, rfl⟩ | ⟨l, hl, rfl⟩
    · obtain ⟨n, hn, rfl⟩ := hh.onto l hl
      exact ⟨f' n, (hw.mem_nodes _).2 (.inl ⟨n, hn, rfl⟩), hφcall n hn⟩
    · obtain ⟨n, hn, rfl⟩ := hk.onto l hl
      exact ⟨g' n, (hw.mem_nodes _).2 (.inr ⟨n, hn, rfl⟩), hφexit n hn⟩
  value_le p t ht := by
    by_cases hp : V.arity p = 0
    · obtain rfl : t = [] := List.length_eq_zero_iff.1 (ht.2.1.trans hp)
      have hnullary : p ∈ V.withArity 0 := mem_withArity.2 ⟨ht.1, hp⟩
      have hnil : ∀ {s : Structure V}, s.Admits ⟨p, []⟩ := ⟨ht.1, hp.symm, by simp⟩
      rw [List.map_nil, hw.nullary p hnullary, hu.nullary p hnullary]
      exact hcombiner (hh.value_le p [] hnil) (hk.value_le p [] hnil)
    · exact hu.value_le hw hh hk hφcall hφexit hp ht
  summary _ hm _ hn := hu.isSummary_of_map_eq hw hh hk hφcall hφexit hm hn

end Follow

/-- Combining by disjunction follows embeddings. -/
theorem combine_or_embeds {c d call exit : Structure V} (hc : c.WellFormed) (hd : d.WellFormed)
    (hcall : call.WellFormed) (hexit : exit.WellFormed) (hleft : c.Embeds call)
    (hright : d.Embeds exit) : (combine Kleene.or c d).Embeds (combine Kleene.or call exit) := by
  obtain ⟨h, hh⟩ := hleft
  obtain ⟨k, hk⟩ := hright
  have hu := unionOn_combine Kleene.or hcall hexit
  have hw := unionOn_combine Kleene.or hc hd
  obtain ⟨φ, hφcall, hφexit⟩ :=
    hw.exists_map (fun n => call.callNode (h n)) fun n => call.exitNode exit (k n)
  exact ⟨φ, hu.embedding hw hh hk hφcall hφexit Kleene.or_le_or⟩

/-! ## Marks -/

/-- No node is marked as one of a call or of an exit. -/
def Unmarked (s : Structure V) : Prop :=
  ∀ n ∈ s.nodes, s.value Vocabulary.inUc [n] = .ff ∧ s.value Vocabulary.inUx [n] = .ff

/-- The predicate tells of no side. -/
def NoMark (p : PredId) : Prop := p ≠ Vocabulary.inUc ∧ p ≠ Vocabulary.inUx

/-- The structure `u` is the disjoint union of a call and an exit structure, and `inUc`
and `inUx` tell on which side a node is. -/
structure MarkedUnion (combiner : Kleene → Kleene → Kleene) (call exit u : Structure V)
    (f g : Node → Node) : Prop extends UnionOn NoMark combiner call exit u f g where
  /-- Nodes of the call are marked as such. -/
  call_marked : ∀ n ∈ call.nodes,
    u.value Vocabulary.inUc [f n] = .tt ∧ u.value Vocabulary.inUx [f n] = .ff
  /-- Nodes of the exit are marked as such. -/
  exit_marked : ∀ n ∈ exit.nodes,
    u.value Vocabulary.inUc [g n] = .ff ∧ u.value Vocabulary.inUx [g n] = .tt

theorem noMark_of_nullary {p : PredId} (hp : p ∈ V.withArity 0) : NoMark p := by
  have harity := (mem_withArity.1 hp).2
  constructor
  · rintro rfl
    exact V.arity_ne_zero_of_isReserved rfl harity
  · rintro rfl
    exact V.arity_ne_zero_of_isReserved rfl harity

section Marks

variable {combiner : Kleene → Kleene → Kleene} {call exit u : Structure V} {f g : Node → Node}
  (hu : UnionOn (fun _ => True) combiner (call.setAll Vocabulary.inUc .tt)
    (exit.setAll Vocabulary.inUx .tt) u f g)
include hu

/-- At predicates that are no marks, a union of marked sides is one of the sides. -/
theorem UnionOn.unionOn_noMark : UnionOn NoMark combiner call exit u f g where
  call_inj := by simpa only [nodes_setAll] using hu.call_inj
  exit_inj := by simpa only [nodes_setAll] using hu.exit_inj
  apart := by simpa only [nodes_setAll] using hu.apart
  mem_nodes := by simpa only [nodes_setAll] using hu.mem_nodes
  call_value p hp harity t ht := by
    rw [hu.call_value p trivial harity t (by simpa using ht), value_setAll_of_ne _ hp.1]
  exit_value p hp harity t ht := by
    rw [hu.exit_value p trivial harity t (by simpa using ht), value_setAll_of_ne _ hp.2]
  mixed := by simpa only [nodes_setAll] using hu.mixed
  nullary p hp := by
    have hmark := noMark_of_nullary hp
    rw [hu.nullary p hp, value_setAll_of_ne _ hmark.1, value_setAll_of_ne _ hmark.2]

/-- The union of two sides that are marked throughout is a marked union of the two. -/
theorem UnionOn.markedUnion (hcall : call.Unmarked) (hexit : exit.Unmarked) :
    MarkedUnion combiner call exit u f g := by
  have hfromCall : ∀ p, Vocabulary.isReserved p → ∀ n ∈ call.nodes,
      u.value p [f n] = (call.setAll Vocabulary.inUc .tt).value p [n] := fun p hp n hn =>
    hu.call_value p trivial (V.arity_ne_zero_of_isReserved hp) [n] (by simpa using hn)
  have hfromExit : ∀ p, Vocabulary.isReserved p → ∀ n ∈ exit.nodes,
      u.value p [g n] = (exit.setAll Vocabulary.inUx .tt).value p [n] := fun p hp n hn =>
    hu.exit_value p trivial (V.arity_ne_zero_of_isReserved hp) [n] (by simpa using hn)
  refine ⟨hu.unionOn_noMark, fun n hn => ⟨?_, ?_⟩, fun n hn => ⟨?_, ?_⟩⟩
  · rw [hfromCall _ rfl n hn, value_setAll_self _ _ hn]
  · rw [hfromCall _ rfl n hn, value_setAll_of_ne _ (by decide), (hcall n hn).2]
  · rw [hfromExit _ rfl n hn, value_setAll_of_ne _ (by decide), (hexit n hn).1]
  · rw [hfromExit _ rfl n hn, value_setAll_self _ _ hn]

end Marks

end Structure

/-! ## Returns -/

namespace Interpreter

open Structure

variable {V : Vocabulary}

section Joined

variable {call exit : Structure V} (hcall : call.WellFormed) (hexit : exit.WellFormed)
include hcall hexit

theorem wellFormed_joined (combiner : Kleene → Kleene → Kleene) :
    (joined combiner call exit).WellFormed :=
  WellFormed.combine combiner (hcall.setAll_of_isReserved rfl .tt)
    (hexit.setAll_of_isReserved rfl .tt)

/-- A return runs on a marked union. -/
theorem exists_markedUnion_joined (combiner : Kleene → Kleene → Kleene) (hc : call.Unmarked)
    (hx : exit.Unmarked) : ∃ f g, MarkedUnion combiner call exit (joined combiner call exit) f g :=
  have hunion := unionOn_combine combiner
    (hcall.setAll_of_isReserved (p := Vocabulary.inUc) rfl .tt)
    (hexit.setAll_of_isReserved (p := Vocabulary.inUx) rfl .tt)
  ⟨_, _, hunion.markedUnion hc hx⟩

/-- Marking both sides and combining them by disjunction follows embeddings. -/
theorem joined_or_embeds {c d : Structure V} (hc : c.WellFormed) (hd : d.WellFormed)
    (hleft : c.Embeds call) (hright : d.Embeds exit) :
    (joined Kleene.or c d).Embeds (joined Kleene.or call exit) := by
  obtain ⟨h, hh⟩ := hleft
  obtain ⟨k, hk⟩ := hright
  exact combine_or_embeds (hc.setAll_of_isReserved rfl .tt) (hd.setAll_of_isReserved rfl .tt)
    (hcall.setAll_of_isReserved rfl .tt) (hexit.setAll_of_isReserved rfl .tt)
    ⟨h, hh.setAll (by decide) .tt⟩ ⟨k, hk.setAll (by decide) .tt⟩

end Joined

/-- No mark and no killed node is left in what a return answers with. -/
theorem unmarked_clean (s : Structure V) : (unmarked s).Unmarked ∧
    ∀ n ∈ (unmarked s).nodes, (unmarked s).value Vocabulary.kill [n] = .ff := by
  have hstays : ∀ n ∈ (unmarked s).nodes,
      n ∈ (((s.setAll Vocabulary.inUc .ff).setAll Vocabulary.inUx .ff).filterNodes
        Vocabulary.kill).nodes := fun n hn => by simpa [unmarked] using hn
  have hold : ∀ n ∈ (unmarked s).nodes, n ∈ s.nodes := fun n hn => by
    simpa using (mem_nodes_filterNodes.1 (hstays n hn)).1
  -- What is done about `kill` leaves the marks.
  have hmark : ∀ p, p ≠ Vocabulary.kill → ∀ n ∈ (unmarked s).nodes, (unmarked s).value p [n] =
      ((s.setAll Vocabulary.inUc .ff).setAll Vocabulary.inUx .ff).value p [n] := by
    intro p hp n hn
    rw [unmarked, value_setAll_of_ne _ hp, value_filterNodes _ _ _ (by simpa using hstays n hn)]
  refine ⟨fun n hn => ⟨?_, ?_⟩, fun n hn => ?_⟩
  · rw [hmark _ (by decide) n hn, value_setAll_of_ne _ (by decide),
      value_setAll_self _ _ (hold n hn)]
  · rw [hmark _ (by decide) n hn, value_setAll_self _ _ (by simpa using hold n hn)]
  · exact value_setAll_self _ _ (hstays n hn)

/-- A return runs on the disjoint union of call and exit, nodes marked by their side, and
leaves no mark behind.  With predicates without arguments combined by disjunction the union
follows embeddings of the two sides. -/
theorem applyBinary_marked_union (it : Interpreter) (combiner : Kleene → Kleene → Kleene)
    (i : ActionInstance) {call exit : Structure V} (hcall : call.WellFormed)
    (hexit : exit.WellFormed) (hc : call.Unmarked) (hx : exit.Unmarked) (point : ProgramPoint)
    (messages : Messages V) :
    ((it.applyBinary combiner i call exit point messages).2.2 =
        (it.ret.apply i (joined combiner call exit) point.label Messages.empty
          it.counted.statistics).2.2.map (·.map unmarked) ∧
      (joined combiner call exit).WellFormed ∧
      ∃ f g, MarkedUnion combiner call exit (joined combiner call exit) f g) ∧
      (∀ c d : Structure V, c.WellFormed → d.WellFormed → c.Embeds call → d.Embeds exit →
        (combine Kleene.or c d).Embeds (combine Kleene.or call exit) ∧
          (joined Kleene.or c d).Embeds (joined Kleene.or call exit)) ∧
      ∀ rs, (it.applyBinary combiner i call exit point messages).2.2 = .ok rs → ∀ r ∈ rs,
        r.Unmarked ∧ ∀ n ∈ r.nodes, r.value Vocabulary.kill [n] = .ff := by
  refine ⟨⟨?_, wellFormed_joined hcall hexit combiner,
    exists_markedUnion_joined hcall hexit combiner hc hx⟩, fun c d hcwf hdwf hleft hright => ?_,
    fun rs hok r hr => ?_⟩
  · rw [applyBinary_snd_snd, apply_snd_snd]
    rfl
  · exact ⟨combine_or_embeds hcwf hdwf hcall hexit hleft hright,
      joined_or_embeds hcall hexit hcwf hdwf hleft hright⟩
  · obtain ⟨outs, -, rfl⟩ := applyBinary_eq_ok hok
    obtain ⟨out, -, rfl⟩ := List.mem_map.1 hr
    exact unmarked_clean out

theorem applyBinary_marked_union_cells :
    ∃ it f g, Interpreter.new .standard = .ok it ∧
      twoCells.WellFormed ∧ (Applier.oneCell .tt).WellFormed ∧
      twoCells.Unmarked ∧ (Applier.oneCell .tt).Unmarked ∧
      MarkedUnion Kleene.and twoCells (Applier.oneCell .tt)
        (joined Kleene.and twoCells (Applier.oneCell .tt)) f g ∧
      ∃ r, (it.applyBinary Kleene.and Applier.freeCell twoCells (Applier.oneCell .tt) ⟨"p", []⟩
          .empty).2.2 = .ok [r] ∧ r.nodes.toList = [1] ∧ r.value Vocabulary.inUc [1] = .ff := by
  obtain ⟨it, hit⟩ : ∃ it, Interpreter.new .standard = .ok it := ⟨_, rfl⟩
  have hcall : twoCells.WellFormed := by decide
  have hexit : (Applier.oneCell .tt).WellFormed := by decide
  have hc : twoCells.Unmarked := by
    show ∀ n ∈ twoCells.nodes.toList, _
    decide
  have hx : (Applier.oneCell .tt).Unmarked := by
    show ∀ n ∈ (Applier.oneCell .tt).nodes.toList, _
    decide
  obtain ⟨⟨-, -, f, g, hunion⟩, -, hclean⟩ := applyBinary_marked_union it Kleene.and
    Applier.freeCell hcall hexit hc hx ⟨"p", []⟩ .empty
  obtain ⟨r, hr, hnodes⟩ : ∃ r, (it.applyBinary Kleene.and Applier.freeCell twoCells
      (Applier.oneCell .tt) ⟨"p", []⟩ .empty).2.2 = .ok [r] ∧ r.nodes.toList = [1] := by
    cases hit
    exact ⟨_, rfl, by decide⟩
  have hone : 1 ∈ r.nodes := by
    rw [← SortedSet.mem_toList, hnodes]
    exact List.mem_singleton_self _
  exact ⟨it, f, g, hit, hcall, hexit, hc, hx, hunion, r, hr, hnodes,
    ((hclean [r] hr r (List.mem_singleton_self _)).1 1 hone).1⟩

end Interpreter

end ShapeAnalysis
