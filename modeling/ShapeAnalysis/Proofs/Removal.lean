import ShapeAnalysis.Proofs.Embedding

/-!
# Removing nodes

Removing nodes on both sides keeps an embedding when the nodes that stay go to nodes
that stay and reach all of them (`Embedding.foldl_removeNode`).

Removing the nodes on which `kill` is true does not always come to that.  Where `kill`
is unknown the node stays, and then some node behind it has to stay as well (`Spares`).
A node is *stranded* when it stays and no node behind it does.  What is left of a
configuration embeds in what is left of a structure that describes it, less the
stranded nodes.
-/

namespace ShapeAnalysis

namespace Structure

variable {V : Vocabulary}

/-! ## Nodes that go and nodes that stay -/

/-- Behind every node on which the predicate is unknown there is one on which it
is not true. -/
def Spares (f : Node → Node) (c s : Structure V) (p : PredId) : Prop :=
  ∀ m ∈ s.nodes, s.value p [m] = .unknown → ∃ n ∈ c.nodes, f n = m ∧ c.value p [n] ≠ .tt

/-- The nodes that `filterNodes` removes. -/
def killed (s : Structure V) (p : PredId) : List Node :=
  s.nodes.toList.filter fun n => s.value p [n] = .tt

/-- The nodes that stay because the predicate is unknown on them, while it is true
on every node behind them. -/
def stranded (f : Node → Node) (c s : Structure V) (p : PredId) : List Node :=
  s.nodes.toList.filter fun m =>
    s.value p [m] = .unknown ∧ ∀ n ∈ c.nodes.toList, f n = m → c.value p [n] = .tt

theorem mem_killed {s : Structure V} {p : PredId} {n : Node} :
    n ∈ s.killed p ↔ n ∈ s.nodes ∧ s.value p [n] = .tt := by
  simp [killed]

theorem mem_stranded {f : Node → Node} {c s : Structure V} {p : PredId} {m : Node} :
    m ∈ stranded f c s p ↔ m ∈ s.nodes ∧ s.value p [m] = .unknown ∧
      ∀ n ∈ c.nodes, f n = m → c.value p [n] = .tt := by
  simp [stranded]

theorem stranded_eq_nil_iff {f : Node → Node} {c s : Structure V} {p : PredId} :
    stranded f c s p = [] ↔ Spares f c s p := by
  simp only [stranded, Spares, List.filter_eq_nil_iff, decide_eq_true_eq, not_and, not_forall,
    exists_prop, SortedSet.mem_toList, ne_eq]

/-! ## What an embedding keeps -/

section Removal

variable {f : Node → Node} {c s : Structure V} (hf : Embedding f c s)
include hf

/-- Removing nodes on both sides keeps an embedding when the nodes that stay go to
nodes that stay, and reach all of them. -/
theorem Embedding.foldl_removeNode {ns ms : List Node}
    (hstay : ∀ n ∈ c.nodes, n ∉ ns → f n ∉ ms)
    (hreach : ∀ m ∈ s.nodes, m ∉ ms → ∃ n ∈ c.nodes, n ∉ ns ∧ f n = m) :
    Embedding f (ns.foldl removeNode c) (ms.foldl removeNode s) := by
  refine ⟨fun n hn => ?_, fun m hm => ?_, fun q u hu => ?_, fun m hm n hn hne heq => ?_⟩
  · obtain ⟨hn, hfree⟩ := mem_nodes_foldl_removeNode.1 hn
    exact mem_nodes_foldl_removeNode.2 ⟨hf.maps n hn, hstay n hn hfree⟩
  · obtain ⟨hm, hfree⟩ := mem_nodes_foldl_removeNode.1 hm
    obtain ⟨n, hn, hnfree, hnm⟩ := hreach m hm hfree
    exact ⟨n, mem_nodes_foldl_removeNode.2 ⟨hn, hnfree⟩, hnm⟩
  · have hmem : ∀ n ∈ u, n ∈ c.nodes ∧ n ∉ ns := fun n hn =>
      mem_nodes_foldl_removeNode.1 (hu.2.2 n hn)
    have himage : ∀ m ∈ u.map f, m ∉ ms := by
      intro m hm
      obtain ⟨n, hn, rfl⟩ := List.mem_map.1 hm
      exact hstay n (hmem n hn).1 (hmem n hn).2
    rw [value_foldl_removeNode _ _ _ fun n hn => (hmem n hn).2, value_foldl_removeNode _ _ _ himage]
    exact hf.value_le q u ⟨hu.1, hu.2.1, fun n hn => (hmem n hn).1⟩
  · obtain ⟨hm, hmfree⟩ := mem_nodes_foldl_removeNode.1 hm
    have hsum := hf.summary m hm n (mem_nodes_foldl_removeNode.1 hn).1 hne heq
    rw [Structure.isSummary, value_foldl_removeNode _ _ _ (by simpa using hstay m hm hmfree)]
    exact hsum

variable (hc : c.WellFormed) (hs : s.WellFormed) {p : PredId}
include hc hs

/-- A node that stays goes to a node that stays, and that is not stranded. -/
theorem Embedding.not_mem_killed {n : Node} (hn : n ∈ c.nodes) (hlive : n ∉ c.killed p) :
    f n ∉ s.killed p ++ stranded f c s p := by
  have hntt : c.value p [n] ≠ .tt := fun htt => hlive (mem_killed.2 ⟨hn, htt⟩)
  have hle : (c.value p [n]).le (s.value p [f n]) :=
    hf.le hc hs p (u := [n]) (by simpa using hn)
  intro hmem
  rcases List.mem_append.1 hmem with hmem | hmem
  · rw [(mem_killed.1 hmem).2] at hle
    exact hntt (Kleene.eq_of_le hle (by decide))
  · exact hntt ((mem_stranded.1 hmem).2.2 n hn rfl)

/-- A node that stays and is not stranded has a node behind it that stays. -/
theorem Embedding.exists_live {m : Node} (hm : m ∈ s.nodes)
    (hlive : m ∉ s.killed p ++ stranded f c s p) : ∃ n ∈ c.nodes, n ∉ c.killed p ∧ f n = m := by
  rw [List.mem_append, not_or] at hlive
  cases hval : s.value p [m] with
  | tt => exact absurd (mem_killed.2 ⟨hm, hval⟩) hlive.1
  | unknown =>
    by_contra hnone
    push Not at hnone
    refine hlive.2 (mem_stranded.2 ⟨hm, hval, fun n hn hnm => ?_⟩)
    by_contra hntt
    exact hnone n hn (fun hmem => hntt (mem_killed.1 hmem).2) hnm
  | ff =>
    obtain ⟨n, hn, rfl⟩ := hf.onto m hm
    have hle : (c.value p [n]).le (s.value p [f n]) :=
      hf.le hc hs p (u := [n]) (by simpa using hn)
    rw [hval] at hle
    have hff := Kleene.eq_of_le hle (by decide)
    exact ⟨n, hn, fun hmem => by simp [(mem_killed.1 hmem).2] at hff, rfl⟩

/-- What is left of the one embeds in what is left of the other, less the stranded
nodes. -/
theorem Embedding.filterNodes_stranded :
    Embedding f (c.filterNodes p) ((stranded f c s p).foldl removeNode (s.filterNodes p)) := by
  have hboth : (stranded f c s p).foldl removeNode (s.filterNodes p) =
      (s.killed p ++ stranded f c s p).foldl removeNode s := by
    rw [List.foldl_append]
    rfl
  rw [hboth]
  exact hf.foldl_removeNode (fun _ hn => hf.not_mem_killed hc hs hn)
    fun _ hm => hf.exists_live hc hs hm

theorem Embedding.filterNodes (hspares : Spares f c s p) :
    Embedding f (c.filterNodes p) (s.filterNodes p) := by
  have hleft := hf.filterNodes_stranded hc hs (p := p)
  rwa [stranded_eq_nil_iff.2 hspares] at hleft

end Removal

/-! ## The kill filter -/

/-- The kill filter follows an embedding exactly as far as nodes stay.  What is left of a
configuration embeds in what is left of a structure that describes it, less the stranded
nodes, and it reaches these too exactly when there are none: when behind every node on
which `kill` is unknown there is one on which it is not true. -/
theorem filterNodes_kill_exact {s c : Structure V} (hs : s.WellFormed) (hc : c.Concrete)
    {f : Node → Node} (hf : Embedding f c s) :
    Embedding f (c.filterNodes Vocabulary.kill)
        ((stranded f c s Vocabulary.kill).foldl removeNode (s.filterNodes Vocabulary.kill)) ∧
      (Embedding f (c.filterNodes Vocabulary.kill) (s.filterNodes Vocabulary.kill) ↔
        Spares f c s Vocabulary.kill) := by
  have hcwf := hc.toWellFormed
  refine ⟨hf.filterNodes_stranded hcwf hs, fun hleft => ?_, hf.filterNodes hcwf hs⟩
  intro m hm hval
  have hstays : m ∈ (s.filterNodes Vocabulary.kill).nodes :=
    mem_nodes_filterNodes.2 ⟨hm, by simp [hval]⟩
  obtain ⟨n, hn, hnm⟩ := hleft.onto m hstays
  obtain ⟨hn, hlive⟩ := mem_nodes_filterNodes.1 hn
  exact ⟨n, hn, hnm, hlive⟩

/-- Two cells, the first of which is killed. -/
def killedHead : Structure cellVocabulary := twoCells.set Vocabulary.kill [0] .tt

/-- Any number of cells, each of which may be killed. -/
def doomedCells : Structure cellVocabulary := anyCells.set Vocabulary.kill [0] .unknown

theorem filterNodes_kill_exact_doomedCells :
    doomedCells.WellFormed ∧ killedHead.Concrete ∧ Embedding (fun _ => 0) killedHead doomedCells ∧
      Embedding (fun _ => 0) (killedHead.filterNodes Vocabulary.kill)
        (doomedCells.filterNodes Vocabulary.kill) := by
  have hs : doomedCells.WellFormed := by decide
  have hc : killedHead.Concrete := by decide
  have hf : Embedding (fun _ => 0) killedHead doomedCells := by decide
  -- The second cell is behind the node and stays.
  have hspares : Spares (fun _ => 0) killedHead doomedCells Vocabulary.kill := by
    intro m hm _
    have hzero : ∀ m ∈ doomedCells.nodes.toList, m = 0 := by decide
    exact ⟨1, by decide, (hzero m hm).symm, by decide⟩
  exact ⟨hs, hc, hf, (filterNodes_kill_exact hs hc hf).2.2 hspares⟩

/-- A cell, with a value for `kill`. -/
def markedCell (k : Kleene) : Structure cellVocabulary := (newNodes 1 {}).set Vocabulary.kill [0] k

/-- Where a cell may be killed the filter leaves it, and the configuration in which it is
gone has no node to reach it. -/
theorem filterNodes_kill_strands :
    (markedCell .unknown).WellFormed ∧ (markedCell .tt).Concrete ∧
      (markedCell .tt).Embeds (markedCell .unknown) ∧
      ¬ ((markedCell .tt).filterNodes Vocabulary.kill).Embeds
        ((markedCell .unknown).filterNodes Vocabulary.kill) := by
  refine ⟨by decide, by decide, ⟨id, by decide⟩, ?_⟩
  rintro ⟨f, hf⟩
  have hstays : 0 ∈ ((markedCell .unknown).filterNodes Vocabulary.kill).nodes := by decide
  have hgone : ((markedCell .tt).filterNodes Vocabulary.kill).nodes.toList = [] := by decide
  obtain ⟨n, hn, -⟩ := hf.onto 0 hstays
  rw [hgone] at hn
  cases hn

end Structure

end ShapeAnalysis
