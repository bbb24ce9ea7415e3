import Mathlib.Logic.Function.Basic
import ShapeAnalysis.Action.Basic
import ShapeAnalysis.Proofs.Embedding

/-!
# Updates follow embeddings

An update writes the values of its formula at every tuple of nodes, so it keeps
an embedding: the formula is at least as precise in the embedded structure, and
a tuple of the one is written where its image is written in the other.  A new
node goes to the new node.
-/

namespace ShapeAnalysis

namespace Structure

variable {V : Vocabulary}

/-! ## Writing on both sides -/

/-- An embedding carries over to structures with the same nodes when the values
still lose precision only. -/
theorem Embedding.change {f : Node → Node} {c s c' s' : Structure V} (hf : Embedding f c s)
    (hc : c'.nodes = c.nodes) (hs : s'.nodes = s.nodes)
    (hsum : ∀ n, s'.isSummary n = s.isSummary n)
    (hle : ∀ p u, c'.Admits ⟨p, u⟩ → (c'.value p u).le (s'.value p (u.map f))) :
    Embedding f c' s' where
  maps n hn := hs ▸ hf.maps n (hc ▸ hn)
  onto m hm := by
    rw [hc]
    exact hf.onto m (hs ▸ hm)
  value_le := hle
  summary m hm n hn hne heq := by
    rw [hsum]
    exact hf.summary m (hc ▸ hm) n (hc ▸ hn) hne heq

/-- Writing at tuples and at their images keeps an embedding when the written
values lose precision only. -/
theorem Embedding.writeAll {f : Node → Node} {c s : Structure V} (hf : Embedding f c s)
    {p : PredId} (hp : p ≠ Vocabulary.sm) {ts ts' : List (List Node)}
    {g g' : List Node → Kleene}
    (hts : ∀ u : List Node, (∀ n ∈ u, n ∈ c.nodes) → (u ∈ ts ↔ u.map f ∈ ts'))
    (hle : ∀ u : List Node, (∀ n ∈ u, n ∈ c.nodes) → u ∈ ts → (g u).le (g' (u.map f))) :
    Embedding f (c.writeAll p ts g) (s.writeAll p ts' g') := by
  refine hf.change (by simp) (by simp) (fun n => ?_) fun q u hu => ?_
  · simp [Structure.isSummary, value_writeAll, hp.symm]
  · have hmem : ∀ n ∈ u, n ∈ c.nodes := by simpa using hu.2.2
    have hadm : c.Admits ⟨q, u⟩ := ⟨hu.1, hu.2.1, hmem⟩
    rw [value_writeAll, value_writeAll]
    by_cases h : q = p ∧ u ∈ ts
    · rw [if_pos h, if_pos ⟨h.1, (hts u hmem).1 h.2⟩]
      exact hle u hmem h.2
    · rw [if_neg h, if_neg fun h' => h ⟨h'.1, (hts u hmem).2 h'.2⟩]
      exact hf.value_le q u hadm

/-- Writing one value at every node keeps an embedding. -/
theorem Embedding.setAll {f : Node → Node} {c s : Structure V} (hf : Embedding f c s) {p : PredId}
    (hp : p ≠ Vocabulary.sm) (k : Kleene) : Embedding f (c.setAll p k) (s.setAll p k) := by
  rw [setAll_eq_writeAll, setAll_eq_writeAll]
  refine hf.writeAll hp (fun u hu => ?_) fun _ _ _ => Kleene.le_refl k
  rw [List.mem_map, List.mem_map]
  constructor
  · rintro ⟨n, hn, rfl⟩
    exact ⟨f n, hf.maps n hn, rfl⟩
  · rintro ⟨m, hm, hmu⟩
    obtain ⟨n, rfl, -⟩ := List.map_eq_singleton_iff.1 hmu.symm
    exact ⟨n, hu n List.mem_cons_self, rfl⟩

/-- An embedding takes the new node to the new node. -/
theorem Embedding.newNode {f : Node → Node} {c s : Structure V} (hf : Embedding f c s)
    (hc : c.WellFormed) (hs : s.WellFormed) :
    Embedding (Function.update f c.nextNode s.nextNode) c.newNode.1 s.newNode.1 := by
  have hold : ∀ n ∈ c.nodes, Function.update f c.nextNode s.nextNode n = f n := by
    intro n hn
    exact Function.update_of_ne (hc.ne_nextNode hn) _ _
  have hnew : Function.update f c.nextNode s.nextNode c.nextNode = s.nextNode :=
    Function.update_self _ _ _
  have hfresh : ∀ n ∈ c.nodes, f n ≠ s.nextNode := fun n hn => hs.ne_nextNode (hf.maps n hn)
  refine ⟨fun n hn => ?_, fun m hm => ?_, fun p u hu => ?_, fun m hm n hn hne heq => ?_⟩
  · rcases (c.mem_nodes_newNode n).1 hn with rfl | hn
    · exact (s.mem_nodes_newNode _).2 (.inl hnew)
    · rw [hold n hn]
      exact (s.mem_nodes_newNode _).2 (.inr (hf.maps n hn))
  · rcases (s.mem_nodes_newNode m).1 hm with rfl | hm
    · exact ⟨c.nextNode, (c.mem_nodes_newNode _).2 (.inl rfl), hnew⟩
    · obtain ⟨n, hn, rfl⟩ := hf.onto m hm
      exact ⟨n, (c.mem_nodes_newNode _).2 (.inr hn), hold n hn⟩
  · rw [value_newNode, value_newNode]
    by_cases hfit : c.Admits ⟨p, u⟩
    · rw [List.map_congr_left fun n hn => hold n (hfit.2.2 n hn)]
      exact hf.value_le p u hfit
    · -- Every predicate is false at a tuple with the new node, on both sides.
      have hmem : c.nextNode ∈ u := by
        by_contra hno
        refine hfit ⟨hu.1, hu.2.1, fun n hn => ?_⟩
        refine ((c.mem_nodes_newNode n).1 (hu.2.2 n hn)).resolve_left ?_
        rintro rfl
        exact hno hn
      have hright : s.value p (u.map (Function.update f c.nextNode s.nextNode)) = .ff := by
        refine hs.value_eq_ff fun hadm => hs.nextNode_not_mem ?_
        exact hadm.2.2 _ (List.mem_map.2 ⟨_, hmem, hnew⟩)
      rw [hc.value_eq_ff hfit, hright]
      exact Kleene.le_refl _
  · rcases (c.mem_nodes_newNode m).1 hm with rfl | hm
    · rcases (c.mem_nodes_newNode n).1 hn with rfl | hn
      · exact absurd rfl hne
      · rw [hnew, hold n hn] at heq
        exact absurd heq.symm (hfresh n hn)
    · rcases (c.mem_nodes_newNode n).1 hn with rfl | hn
      · rw [hnew, hold m hm] at heq
        exact absurd heq (hfresh m hm)
      · rw [hold m hm, hold n hn] at heq
        rw [hold m hm]
        exact hf.summary m hm n hn hne heq

end Structure

namespace Action

open Structure

variable {V : Vocabulary}

/-! ## Updates -/

theorem applyUpdate_eq_writeAll (pre : Structure V) (a : Assignment) (post : Structure V)
    (u : Update PredId) : applyUpdate pre a post u =
      post.writeAll u.pred (tuples pre.nodes.toList u.vars.length).reverse fun t =>
        pre.eval u.formula (a.bindAll u.vars t) := by
  rw [applyUpdate, List.foldr_eq_foldl_reverse, writeAll]

/-- The updates are of predicates of the vocabulary, other than `sm`, with as
many variables as the predicate has arguments. -/
def Fits (act : Action PredId) (V : Vocabulary) : Prop :=
  ∀ u ∈ act.updates,
    u.pred ≠ Vocabulary.sm ∧ u.pred < V.size ∧ u.vars.length = V.arity u.pred

instance (act : Action PredId) (V : Vocabulary) : Decidable (act.Fits V) :=
  inferInstanceAs (Decidable (∀ u ∈ act.updates, _ ∧ _ ∧ _))

/-- The updates are of predicates of the vocabulary, with as many variables as
the predicate has arguments. -/
def Sized (act : Action PredId) (V : Vocabulary) : Prop :=
  ∀ u ∈ act.updates, u.pred < V.size ∧ u.vars.length = V.arity u.pred

instance (act : Action PredId) (V : Vocabulary) : Decidable (act.Sized V) :=
  inferInstanceAs (Decidable (∀ u ∈ act.updates, _ ∧ _))

@[simp] theorem nodes_applyUpdate (pre : Structure V) (a : Assignment) (post : Structure V)
    (u : Update PredId) : (applyUpdate pre a post u).nodes = post.nodes := by
  rw [applyUpdate_eq_writeAll, nodes_writeAll]

theorem constraints_foldl_applyUpdate (pre : Structure V) (a : Assignment)
    (us : List (Update PredId)) (post : Structure V) :
    (us.foldl (applyUpdate pre a) post).constraints = post.constraints := by
  induction us generalizing post with
  | nil => rfl
  | cons u us ih => rw [List.foldl_cons, ih, applyUpdate_eq_writeAll, constraints_writeAll]

/-- Updates keep a structure well formed. -/
theorem wellFormed_foldl_applyUpdate {pre : Structure V} (a : Assignment)
    (us : List (Update PredId))
    (hus : ∀ u ∈ us, u.pred < V.size ∧ u.vars.length = V.arity u.pred)
    {post : Structure V} (hpost : post.WellFormed) (hnodes : post.nodes = pre.nodes) :
    (us.foldl (applyUpdate pre a) post).WellFormed := by
  induction us generalizing post with
  | nil => exact hpost
  | cons u us ih =>
    obtain ⟨hsize, hlen⟩ := hus u List.mem_cons_self
    refine ih (fun u hu => hus u (List.mem_cons_of_mem _ hu)) ?_ (by simpa using hnodes)
    rw [applyUpdate_eq_writeAll]
    refine WellFormed.writeAll _ _ hpost fun t ht => ?_
    obtain ⟨htlen, hmem⟩ := mem_tuples.1 (List.mem_reverse.1 ht)
    exact ⟨hsize, htlen.trans hlen, fun n hn => hnodes ▸ hmem n hn⟩

section Follow

variable {f : Node → Node} {c s : Structure V} (hf : Embedding f c s) (hc : c.WellFormed)
  (hs : s.WellFormed) {a : Assignment} (ha : a.Within c.nodes)
include hf hc hs ha

end Follow

theorem allocate_eq_some {act : Action PredId} {v : Var} (h : act.newVar = some v)
    (s : Structure V) (a : Assignment) : act.allocate s a =
      (s.newNode.1.set Vocabulary.isNew [s.nextNode] .tt, a.bind v s.nextNode) := by
  simp only [allocate, h, newNode]

theorem allocate_eq_none {act : Action PredId} (h : act.newVar = none) (s : Structure V)
    (a : Assignment) : act.allocate s a = (s, a) := by
  simp only [allocate, h]

theorem constraints_allocate (act : Action PredId) (s : Structure V) (a : Assignment) :
    (act.allocate s a).1.constraints = s.constraints := by
  cases h : act.newVar with
  | none => rw [allocate_eq_none h]
  | some v =>
    rw [allocate_eq_some h]
    rfl

theorem wellFormed_allocate (act : Action PredId) {s : Structure V} (hs : s.WellFormed)
    (a : Assignment) : (act.allocate s a).1.WellFormed := by
  cases h : act.newVar with
  | none =>
    rw [allocate_eq_none h]
    exact hs
  | some v =>
    rw [allocate_eq_some h]
    have hmem : s.nextNode ∈ s.newNode.1.nodes := (s.mem_nodes_newNode _).2 (.inl rfl)
    exact hs.newNode.set (admits_of_isReserved rfl hmem) _

theorem update_eq (act : Action PredId) (s : Structure V) (a : Assignment) :
    act.update s a =
      if act.newVar.isSome then
        (act.updates.foldl (applyUpdate (act.allocate s a).1 (act.allocate s a).2)
          (act.allocate s a).1).setAll Vocabulary.isNew .ff
      else act.updates.foldl (applyUpdate (act.allocate s a).1 (act.allocate s a).2)
        (act.allocate s a).1 := rfl

section Whole

variable {act : Action PredId}

theorem constraints_update (act : Action PredId) (s : Structure V) (a : Assignment) :
    (act.update s a).constraints = s.constraints := by
  rw [update_eq]
  split
  · rw [setAll_eq_writeAll, constraints_writeAll, constraints_foldl_applyUpdate,
      constraints_allocate]
  · rw [constraints_foldl_applyUpdate, constraints_allocate]

theorem wellFormed_update (hsized : act.Sized V) {s : Structure V} (hs : s.WellFormed)
    (a : Assignment) : (act.update s a).WellFormed := by
  have hwf := wellFormed_foldl_applyUpdate (act.allocate s a).2 act.updates hsized
    (wellFormed_allocate act hs a) rfl
  rw [update_eq]
  split
  · exact hwf.setAll_of_isReserved rfl .ff
  · exact hwf

end Whole

end Action

end ShapeAnalysis
