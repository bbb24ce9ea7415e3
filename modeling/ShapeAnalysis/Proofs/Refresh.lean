import ShapeAnalysis.Proofs.Changes
import ShapeAnalysis.Proofs.Facts
import ShapeAnalysis.Proofs.Method
import ShapeAnalysis.Proofs.Summary

/-!
# Grown exits are refreshed

Beside a run of a method we keep its *history*: the pairs it has reported, the
facts that changed at its exit since the last update, and the store at that
update.  The refreshed pairs of an update are the reported pairs whose exit fact
is among these facts (`refreshed_exact`).

The exploded graph does not keep these facts, only those of them that it knew
already.  For a reported pair this is no difference, since its exit fact is known
at the exit (`Tracks.addFact`).

Where all structures are well formed, a fact is among them just when the store
has another structure behind it than at the last update (`Grounded`).  A structure
that changed once does not come back, since each change makes more of its values
unknown.
-/

namespace ShapeAnalysis

namespace ExplodedGraph

/-! ## Refreshed pairs -/

/-- The pairs that the next change holds as refreshed. -/
def refreshed (g : ExplodedGraph) : List FactPair := (g.delta.2.map (·.refreshed)).getD []

theorem readded_refresh (g : ExplodedGraph) : g.refresh.readded = g.readded := by
  unfold refresh
  split <;> rfl

theorem refreshed_eq (g : ExplodedGraph) :
    g.refreshed = g.known.toList.filter fun p => p.snd ∈ g.readded := by
  simp only [refreshed, delta, SummaryDelta.pairs, known_refresh, readded_refresh]
  split
  · rename_i hnone
    simp_all
  · rfl

theorem nodup_refreshed (g : ExplodedGraph) : g.refreshed.Nodup := by
  rw [refreshed_eq]
  exact (SortedSet.nodup _).filter _

theorem mem_refreshed {g : ExplodedGraph} {p : FactPair} :
    p ∈ g.refreshed ↔ p ∈ g.known ∧ p.snd ∈ g.readded := by
  rw [refreshed_eq, List.mem_filter, SortedSet.mem_toList, decide_eq_true_eq]

/-- There is no change if nothing is new and nothing is refreshed. -/
theorem delta_eq_none_iff (g : ExplodedGraph) :
    g.delta.2 = none ↔ g.added .delta = [] ∧ g.refreshed = [] := by
  rw [added_delta, refreshed_eq]
  simp [delta, SummaryDelta.pairs, known_refresh, readded_refresh]

theorem mem_readded_addFact {g : ExplodedGraph} {n : Site} {f f' : Fact} :
    f' ∈ (g.addFact n f).1.readded ↔
      f' ∈ g.readded ∨ n = g.sink ∧ f ∈ g.factsAt n ∧ f' = f := by
  unfold addFact
  by_cases hf : f ∈ g.factsAt n
  · rw [if_pos (hasFact_iff.2 hf)]
    by_cases hn : n = g.sink
    · simp [hn, hn ▸ hf, or_comm]
    · simp [hn]
  · rw [if_neg (mt hasFact_iff.1 hf)]
    simp [hf]

/-- The graph follows what was reported and what changed at the sink. -/
structure Tracks (g : ExplodedGraph) (reported : List FactPair) (grown : List Fact) : Prop where
  valid : g.Valid
  reported : HandedOut g reported
  grown : ∀ p ∈ g.known, p.snd ∈ g.readded ↔ p.snd ∈ grown

section Tracks

variable {g : ExplodedGraph} {reported : List FactPair} {grown : List Fact}
  (hg : g.Tracks reported grown)
include hg

theorem Tracks.keeps {g' : ExplodedGraph} (h : Keeps g g') (hreadded : g'.readded = g.readded) :
    g'.Tracks reported grown := by
  refine ⟨hg.valid.keeps h, ⟨hg.reported.nodup, fun p => ?_⟩, fun p hp => ?_⟩
  · rw [h.known]
    exact hg.reported.mem_iff p
  · rw [h.known] at hp
    rw [hreadded]
    exact hg.grown p hp

/-- A fact that changed at the sink is remembered, or no pair has it. -/
theorem Tracks.addFact (n : Site) (f : Fact) :
    (g.addFact n f).1.Tracks reported (if n = g.sink then grown ++ [f] else grown) := by
  have h := keeps_addFact g n f
  refine ⟨hg.valid.keeps h, ⟨hg.reported.nodup, fun p => ?_⟩, fun p hp => ?_⟩
  · rw [h.known]
    exact hg.reported.mem_iff p
  · rw [h.known] at hp
    rw [mem_readded_addFact, hg.grown p hp]
    by_cases hn : n = g.sink
    · -- The exit fact of a pair that was handed out is known.
      have hexit : p.snd = f → f ∈ g.factsAt n := by
        intro hf
        rw [hn, ← hf]
        exact (hg.valid.known p hp).exit
      simp only [hn, if_true, true_and, List.mem_append, List.mem_singleton]
      rw [hn] at hexit
      tauto
    · simp [hn]

/-- To report the changes forgets what grew before. -/
theorem Tracks.delta : g.delta.1.Tracks (reported ++ g.added .delta) [] := by
  refine ⟨hg.valid.delta, hg.reported.perform hg.valid .delta, fun p _ => ?_⟩
  constructor
  · intro h
    cases h
  · intro h
    cases h

/-- A pair is refreshed if it was reported and its exit fact grew since. -/
theorem Tracks.mem_refreshed_iff (p : FactPair) :
    p ∈ g.refreshed ↔ p ∈ reported ∧ p.snd ∈ grown := by
  rw [mem_refreshed, hg.reported.mem_iff]
  exact and_congr_right (hg.grown p)

/-- So there is no change exactly if no pair is missing and none has grown. -/
theorem Tracks.delta_eq_none_iff : g.delta.2 = none ↔
    ∀ p, ¬ (g.Summarizes p ∧ p ∉ reported) ∧ ¬ (p ∈ reported ∧ p.snd ∈ grown) := by
  rw [ExplodedGraph.delta_eq_none_iff, List.eq_nil_iff_forall_not_mem,
    List.eq_nil_iff_forall_not_mem, ← forall_and]
  refine forall_congr' fun p => ?_
  rw [hg.valid.mem_added_delta, hg.mem_refreshed_iff, hg.reported.mem_iff]

end Tracks

end ExplodedGraph

/-! ## Structures that an addition changes -/

namespace StateStore

open Structure

variable {V : Vocabulary}

/-- Facts stay known. -/
theorem Extends.contains {st st' : StateStore V} (h : Extends st st') {f : Fact}
    (hf : st.contains f = true) : st'.contains f = true := by
  unfold StateStore.contains structure? at hf ⊢
  cases hslots : st.slots? f.state with
  | none => simp [hslots] at hf
  | some slots =>
    obtain ⟨more, hmore⟩ := h.slots _ _ hslots
    simp only [hslots, Bool.and_eq_true, List.contains_iff_mem] at hf
    obtain ⟨hmem, hsome⟩ := hf
    split at hsome
    · rename_i hid
      obtain ⟨s, hs⟩ := Option.isSome_iff_exists.1 hsome
      obtain ⟨t, ht, -⟩ := h.grows _ _ hs
      simp [hmore, hmem, hid, h.id, ht]
    · cases hsome

/-- The structure of a fact grows. -/
theorem Extends.structure? {st st' : StateStore V} (h : Extends st st') {f : Fact}
    (hf : st.contains f = true) :
    ∃ s t, st.structure? f = some s ∧ st'.structure? f = some t ∧ Grows st.mode s t := by
  have hsome : (st.structure? f).isSome = true := by
    unfold StateStore.contains at hf
    exact (Bool.and_eq_true_iff.1 hf).2
  obtain ⟨s, hs⟩ := Option.isSome_iff_exists.1 hsome
  refine ⟨s, ?_⟩
  unfold StateStore.structure? at hs ⊢
  split at hs
  · rename_i hid
    obtain ⟨t, ht, hgrows⟩ := h.grows _ _ hs
    exact ⟨t, by simp [hid, hs], by simp [hid, h.id, ht], hgrows⟩
  · cases hs

section Add

variable {st st' : StateStore V} (hst : st.Valid) {s : Structure V} (hs : s.WellFormed)
  {state : Nat} {changed : Bool} {f g : Fact}
include hst hs

omit hst hs in
theorem length_states_add (h : st.addStructure state s = .ok (st', changed, f)) :
    st'.states.length = st.states.length := by
  unfold addStructure at h
  split at h
  · cases h
  · dsimp only at h
    split at h
    · cases h
      rfl
    · cases h
      simp

/-- An addition changes no structure but the one behind the fact it returns, and
that one only if it says so. -/
theorem Valid.structure?_add (h : st.addStructure state s = .ok (st', changed, f))
    (hg : st.contains g = true) (hne : changed = true → f ≠ g) :
    st'.structure? g = st.structure? g := by
  obtain ⟨hid, slots', hslots', hmem⟩ := hst.contains_iff.1 hg
  have hsame : st'.id = st.id → st'.repository.get? g.slot = st.repository.get? g.slot →
      st'.structure? g = st.structure? g := by
    intro hid' hget
    rw [StateStore.structure?, StateStore.structure?, hid', hget]
  obtain ⟨slots, hslots, ⟨k, hk, t, ht, hrel, rfl, hmerged, hf⟩ | ⟨rfl, -, -⟩⟩ :=
    addStructure_inv hst hs h
  · refine hsame (extends_merged hst hs ht hrel).id ?_
    rw [get?_merged ht]
    split
    · -- The slot is that of `g`, so nothing may have been merged into it.
      rename_i hslot
      subst hslot
      have hstate := hst.owner_unique hslots hslots' hk hmem
      have hfact : f = g := by
        rw [hf, fact, ← hid, hstate]
      have hsubsumed : (merge st.mode t s).1 = .subsumed := by
        cases hout : (merge st.mode t s).1 with
        | unrelated => exact absurd hout (joined_merge (hst.wellFormed _ t ht) hs hrel).1
        | subsumed => rfl
        | merged => exact absurd hfact (hne (hmerged.2 hout))
      rw [merge_snd_of_subsumed hsubsumed, ht]
    · rfl
  · refine hsame rfl ?_
    rw [get?_extended, if_neg (hst.ne_new_slot hslots' hmem)]

/-- An addition that changes the structure behind a known fact makes more of its
values unknown. -/
theorem Valid.unknownAtoms_lt_of_changed (h : st.addStructure state s = .ok (st', true, f))
    (hf : st.contains f = true) :
    ∃ r t, st.structure? f = some r ∧ st'.structure? f = some t ∧
      r.unknownAtoms.length < t.unknownAtoms.length := by
  obtain ⟨hid, slots', hslots', hmem⟩ := hst.contains_iff.1 hf
  obtain ⟨slots, hslots, ⟨k, hk, t, ht, hrel, rfl, hmerged, rfl⟩ | ⟨rfl, -, rfl⟩⟩ :=
    addStructure_inv hst hs h
  · refine ⟨t, (merge st.mode t s).2, ?_, ?_,
      length_unknownAtoms_lt_of_merged (hst.wellFormed k t ht) hs (hmerged.1 rfl)⟩
    · rw [StateStore.structure?, if_pos hid]
      exact ht
    · rw [StateStore.structure?, if_pos (hid.trans (extends_merged hst hs ht hrel).id.symm),
        get?_merged ht]
      exact if_pos rfl
  · exact absurd rfl (hst.ne_new_slot hslots' hmem)

end Add

end StateStore

namespace Method

variable {V : Vocabulary}

/-! ## Calls and runs -/

/-- A call that may change a method. -/
inductive Call (V : Vocabulary) where
  | obtain (kind : NodeKind) (label : String)
  | intra (src dst : String) (action : ActionInstance)
  | call (kind : MethodKind) (src dst callee : String) (args : List String)
  | add (site : Site) (s : Structure V)
  | transition (src : Site) (f : Fact) (dst : Site) (f' : Fact)
  | update
  | record (f : Fact) (ms : Messages V)
  | printAll
  | printInterproc
  | printNode (label : String)

/-- The structure that a call adds is well formed. -/
def Call.WellFormed : Call V → Prop
  | .add _ s => s.WellFormed
  | _ => True

/-- The method after a call.  A call that is refused leaves it as it was. -/
def perform (m : Method V) : Call V → Method V
  | .obtain kind label => settle m Prod.fst (m.obtainNode kind label)
  | .intra src dst action => settle m (fun m' => m') (m.addIntra src dst action)
  | .call kind src dst callee args => settle m (fun m' => m') (m.addCall kind src dst callee args)
  | .add site s => settle m Prod.fst (m.addStructure site s)
  | .transition src f dst f' => settle m Prod.fst (m.addTransition src f dst f')
  | .update => m.updateSummary.1
  | .record f ms => m.addMessages f ms
  | .printAll => m.printAll
  | .printInterproc => m.printInterproc
  | .printNode label => settle m (fun m' => m') (m.printNode label)

/-- The method after a list of calls. -/
def run (m : Method V) (calls : List (Call V)) : Method V := calls.foldl perform m

/-! ## Histories -/

/-- What a run leaves to remember. -/
structure History (V : Vocabulary) where
  /-- The pairs that updates reported as added. -/
  reported : List FactPair
  /-- The facts that changed at the exit since the last update. -/
  grown : List Fact
  /-- The store at the last update. -/
  store : StateStore V

/-- The history after one more call, which finds the method `m`. -/
def History.record (h : History V) (m : Method V) : Call V → History V
  | .add site s =>
    match m.addStructure site s with
    | .ok (_, changed, f) =>
      { h with grown := if changed = true ∧ site = m.exit then h.grown ++ [f] else h.grown }
    | .error _ => h
  | .update =>
    { reported := h.reported ++ (m.updateSummary.2.map (·.added)).getD []
      grown := []
      store := m.store }
  | _ => h

/-- The history after a list of calls. -/
def History.recordAll (h : History V) (m : Method V) : List (Call V) → History V
  | [] => h
  | call :: rest => (h.record m call).recordAll (m.perform call) rest

/-- The history of a run. -/
def history (m : Method V) (calls : List (Call V)) : History V :=
  History.recordAll { reported := [], grown := [], store := m.store } m calls

/-- The pairs that the next update holds as refreshed. -/
def refreshed (m : Method V) : List FactPair := (m.updateSummary.2.map (·.refreshed)).getD []

/-! ## Building brings no news -/

/-- Whether a call brings facts or transitions, or hands out a change. -/
def Call.isNews : Call V → Bool
  | .add _ _ => true
  | .transition _ _ _ _ => true
  | .update => true
  | _ => false

theorem History.record_of_quiet (h : History V) (m : Method V) {call : Call V}
    (hcall : call.isNews = false) : h.record m call = h := by
  cases call with
  | add => cases hcall
  | transition => cases hcall
  | update => cases hcall
  | _ => rfl

/-- The steps of which calls without news are made keep a property.  A new node has a new
label, and a node that is there keeps its label and its state. -/
structure Quiet (P : Method V → Prop) : Prop where
  node : ∀ m kind label, m.cfg.lookup label = none → P m → P (m.createNode kind label).1
  edge : ∀ m src dst label, P m → P (m.addEdge src dst label)
  nodes : ∀ (m : Method V) cfg, cfg.edges = m.cfg.edges →
    cfg.nodes.map (fun n => (n.label, n.state)) =
      m.cfg.nodes.map (fun n => (n.label, n.state)) → P m → P { m with cfg }
  messages : ∀ m f ms, P m → P (m.addMessages f ms)

section Quiet

variable {P : Method V → Prop} (hP : Quiet P) {m m' : Method V} (hm : P m)
include hP hm

theorem Quiet.obtainNode {kind : NodeKind} {label : String} {i : Site}
    (h : m.obtainNode kind label = .ok (m', i)) : P m' := by
  rcases obtainNode_cases h with ⟨hlookup, hnew⟩ | ⟨n, -, -, ⟨rfl, -⟩ | ⟨-, -, rfl⟩⟩
  · have hnode := hP.node m kind label hlookup hm
    rwa [hnew] at hnode
  · exact hm
  · refine hP.nodes m _ rfl (Cfg.map_modifyNode (fun n => ?_) m.cfg i) hm
    rfl

theorem Quiet.addIntra {src dst : String} {action : ActionInstance}
    (h : m.addIntra src dst action = .ok m') : P m' := by
  obtain ⟨m₁, i, m₂, j, hsrc, hdst, rfl⟩ := addIntra_cases h
  have hm₁ := hP.obtainNode hm hsrc
  rcases hdst with ⟨-, rfl⟩ | ⟨hlookup, hnew⟩
  · exact hP.edge _ _ _ _ hm₁
  · have hm₂ := hP.node m₁ .intra dst hlookup hm₁
    rw [hnew] at hm₂
    exact hP.edge _ _ _ _ hm₂

theorem Quiet.addCall {kind : MethodKind} {src dst callee : String} {args : List String}
    (h : m.addCall kind src dst callee args = .ok m') : P m' := by
  obtain ⟨-, m₁, i, hsrc, ⟨-, rfl⟩ | ⟨-, m₂, j, hdst, rfl⟩⟩ := addCall_cases h
  · exact hP.obtainNode hm hsrc
  · exact hP.edge _ _ _ _ (hP.obtainNode (hP.obtainNode hm hsrc) hdst)

/-- What the steps of quiet calls keep, the calls keep. -/
theorem Quiet.perform {call : Call V} (hcall : call.isNews = false) : P (m.perform call) := by
  cases call with
  | add => cases hcall
  | transition => cases hcall
  | update => cases hcall
  | obtain kind label => exact settle_keeps hm fun _ h => hP.obtainNode hm h
  | intra src dst action => exact settle_keeps hm fun _ h => hP.addIntra hm h
  | call kind src dst callee args => exact settle_keeps hm fun _ h => hP.addCall hm h
  | record f ms => exact hP.messages m f ms hm
  | printAll =>
    refine hP.nodes m _ rfl (Cfg.map_mapNodes (fun n => ?_) m.cfg) hm
    rfl
  | printInterproc =>
    refine hP.nodes m _ rfl (Cfg.map_mapNodes (fun n => ?_) m.cfg) hm
    split <;> rfl
  | printNode label =>
    refine settle_keeps hm fun m' h => ?_
    unfold printNode at h
    split at h
    · rename_i i hlookup
      cases h
      refine hP.nodes m _ rfl (Cfg.map_modifyNode (fun n => ?_) m.cfg i) hm
      rfl
    · cases h

end Quiet

/-! ## Refreshed pairs follow the history -/

/-- The exploded graph of a method follows the history. -/
structure Follows (h : History V) (m : Method V) : Prop where
  sink : m.exploded.sink = m.exit
  tracks : m.exploded.Tracks h.reported h.grown

theorem Follows.quiet (h : History V) : Quiet (Follows h) where
  node m kind label _ hm := ⟨hm.sink, hm.tracks.keeps (ExplodedGraph.keeps_addNode _ _) rfl⟩
  edge m src dst label hm := by
    have hkeeps := m.exploded.keeps_addEdge src dst
    obtain ⟨edges, hedges⟩ := m.exploded.addEdge_cases src dst
    have hreadded : (m.exploded.addEdge src dst).readded = m.exploded.readded := by
      rw [hedges]
      rfl
    exact ⟨hkeeps.sink.trans hm.sink, hm.tracks.keeps hkeeps hreadded⟩
  nodes m cfg _ _ hm := ⟨hm.sink, hm.tracks⟩
  messages m f ms hm := ⟨hm.sink, hm.tracks⟩

theorem Follows.add {h : History V} {m : Method V} (hm : Follows h m) (site : Site)
    (s : Structure V) : Follows (h.record m (.add site s)) (m.perform (.add site s)) := by
  cases hadd : m.addStructure site s with
  | error e =>
    simp only [History.record, Method.perform, hadd]
    exact hm
  | ok result =>
    obtain ⟨m', changed, f⟩ := result
    obtain ⟨n, store, -, -, rfl⟩ := addStructure_eq_ok hadd
    simp only [History.record, Method.perform, hadd]
    cases changed with
    | false => exact ⟨hm.sink, by simpa using hm.tracks⟩
    | true =>
      have htracks := hm.tracks.addFact site f
      rw [hm.sink] at htracks
      refine ⟨(ExplodedGraph.keeps_addFact _ _ _).sink.trans hm.sink, ?_⟩
      simpa using htracks

/-- A call keeps a method in step with the history that records it. -/
theorem Follows.perform {h : History V} {m : Method V} (hm : Follows h m) (call : Call V) :
    Follows (h.record m call) (m.perform call) := by
  cases hnews : call.isNews with
  | false =>
    rw [h.record_of_quiet m hnews]
    exact (Follows.quiet h).perform hm hnews
  | true =>
    cases call with
    | add site s => exact hm.add site s
    | transition src f dst f' =>
      refine settle_keeps hm fun result hok => ?_
      obtain ⟨g, hgraph, hresult⟩ := addTransition_eq_ok hok
      have hkeeps := ExplodedGraph.keeps_addTransition hgraph
      rw [hresult]
      refine ⟨hkeeps.sink.trans hm.sink, hm.tracks.keeps hkeeps ?_⟩
      obtain ⟨-, -, rfl | rfl⟩ := ExplodedGraph.addTransition_cases hgraph <;> rfl
    | update =>
      exact ⟨(m.exploded.sameFacts_delta).sink.trans hm.sink, hm.tracks.delta⟩
    | _ => cases hnews

/-! ## Grown facts have another structure -/

/-- The facts of a method are those of its store, and among the facts that its
exit had at the last update the grown ones are those with another structure. -/
structure Grounded (h : History V) (m : Method V) : Prop where
  valid : m.store.Valid
  placed : m.cfg.nodes.map (·.state) = List.range m.store.states.length
  facts : ∀ n, ∀ f ∈ m.exploded.factsAt n, m.store.contains f = true ∧ f.state = n
  grows : h.store.Extends m.store
  reported : ∀ p ∈ h.reported, h.store.contains p.snd = true ∧ p.snd.state = m.exit
  grown : ∀ f, h.store.contains f = true → f.state = m.exit →
    (f ∈ h.grown ↔ h.store.structure? f ≠ m.store.structure? f)

section Grounded

variable {h : History V} {m m' : Method V} (hm : Grounded h m)
include hm

/-- The node at a site has the state of the same number. -/
theorem Grounded.state_eq {site : Site} {n : FlowNode} (hn : m.cfg.node? site = some n) :
    n.state = site :=
  (Cfg.state_eq hm.placed hn).1

/-- The structures of a method stay what they are. -/
theorem Grounded.same (hexit : m'.exit = m.exit)
    (hplaced : m'.cfg.nodes.map (·.state) = List.range m'.store.states.length)
    (hfacts : ∀ n, m'.exploded.factsAt n = m.exploded.factsAt n) (hvalid : m'.store.Valid)
    (hext : m.store.Extends m'.store) (hrepository : m'.store.repository = m.store.repository) :
    Grounded h m' := by
  have hstructure : ∀ f, m'.store.structure? f = m.store.structure? f := by
    intro f
    unfold StateStore.structure? StateStore.id
    rw [hrepository]
  refine ⟨hvalid, hplaced, fun n f hf => ?_, hm.grows.trans hext, ?_, ?_⟩
  · rw [hfacts] at hf
    obtain ⟨hcontains, hstate⟩ := hm.facts n f hf
    exact ⟨hext.contains hcontains, hstate⟩
  · rw [hexit]
    exact hm.reported
  · rw [hexit]
    intro f hf hstate
    rw [hstructure]
    exact hm.grown f hf hstate

end Grounded

theorem Grounded.quiet (h : History V) : Quiet (Grounded h) where
  node m kind label _ hm := by
    refine hm.same rfl ?_ (ExplodedGraph.factsAt_addNode _ _) hm.valid.allocate
      (StateStore.extends_allocate _) rfl
    simp [createNode, Cfg.addNode, StateStore.allocate, hm.placed, List.range_succ]
  edge m src dst label hm :=
    hm.same rfl hm.placed (ExplodedGraph.sameFacts_addEdge _ _ _).facts hm.valid (.refl _) rfl
  nodes m cfg _ hcfg hm :=
    hm.same rfl ((Cfg.map_part Prod.snd hcfg).trans hm.placed) (fun _ => rfl) hm.valid (.refl _) rfl
  messages m f ms hm := by
    have hsame := m.store.sameStates_addMessages f ms
    refine hm.same rfl ?_ (fun _ => rfl) (hm.valid.of_sameStates hsame) (.of_sameStates hsame)
      hsame.repository
    rw [show (m.addMessages f ms).store.states = m.store.states from hsame.states]
    exact hm.placed

/-- An addition keeps facts and structures in step. -/
theorem Grounded.add {h : History V} {m m' : Method V} (hm : Grounded h m) {site : Site}
    {s : Structure V} (hs : s.WellFormed) {changed : Bool} {f : Fact}
    (hadd : m.addStructure site s = .ok (m', changed, f)) :
    Grounded { h with grown := if changed = true ∧ site = m.exit then h.grown ++ [f] else h.grown }
      m' := by
  obtain ⟨n, store, hnode, hstore, rfl⟩ := addStructure_eq_ok hadd
  obtain rfl := hm.state_eq hnode
  have hperform : m.store.perform (.add n.state s) = store := by
    rw [StateStore.perform, hstore]
  have hext : m.store.Extends store := hperform ▸ StateStore.extends_perform hm.valid hs
  have hvalid := hm.valid.of_add hs hstore
  obtain ⟨hcovering, hstate⟩ := hm.valid.covering_of_add hs hstore
  refine ⟨hvalid, ?_, fun k f' hf' => ?_, hm.grows.trans hext, hm.reported, fun g hg hexit => ?_⟩
  · rw [StateStore.length_states_add hstore]
    exact hm.placed
  · have hold : f' ∈ m.exploded.factsAt k → store.contains f' = true ∧ f'.state = k := by
      intro hf'
      obtain ⟨hcontains, hk⟩ := hm.facts k f' hf'
      exact ⟨hext.contains hcontains, hk⟩
    cases changed with
    | false => exact hold hf'
    | true =>
      rcases ExplodedGraph.mem_factsAt_addFact.1 hf' with hf' | ⟨rfl, rfl⟩
      · exact hold hf'
      · exact ⟨hvalid.contains_iff.2 ⟨hcovering.store, hcovering.slot⟩, hstate⟩
  · have hgm := hm.grows.contains hg
    by_cases hchanged : changed = true ∧ f = g
    · -- However often it changed before, it now has more unknown values than at the
      -- last update.
      obtain ⟨rfl, rfl⟩ := hchanged
      obtain ⟨r₀, r, hr₀, hr, hrises⟩ := hm.grows.structure? hg
      obtain ⟨r', t, hr', ht, hlt⟩ := hm.valid.unknownAtoms_lt_of_changed hs hstore hgm
      have hle := Structure.length_unknownAtoms_le_of_rises hrises.rises
      obtain rfl : r = r' := Option.some.inj (hr.symm.trans hr')
      have hne : h.store.structure? f ≠ store.structure? f := by
        rw [hr₀, ht]
        intro heq
        cases heq
        omega
      simp [hstate.symm.trans hexit, hne]
    · have hsame := hm.valid.structure?_add hs hstore hgm fun hc hfg => hchanged ⟨hc, hfg⟩
      rw [hsame, ← hm.grown g hg hexit]
      split
      · rename_i hcond
        have hne : g ≠ f := fun hfg => hchanged ⟨hcond.1, hfg.symm⟩
        simp [hne]
      · rfl

/-- A call keeps in the store what its history says of it. -/
theorem Grounded.perform {h : History V} {m : Method V} (hfollows : Follows h m)
    (hm : Grounded h m) {call : Call V} (hcall : call.WellFormed) :
    Grounded (h.record m call) (m.perform call) := by
  cases hnews : call.isNews with
  | false =>
    rw [h.record_of_quiet m hnews]
    exact (Grounded.quiet h).perform hm hnews
  | true =>
    cases call with
    | add site s =>
      cases hadd : m.addStructure site s with
      | error e =>
        simp only [History.record, Method.perform, hadd]
        exact hm
      | ok result =>
        obtain ⟨m', changed, f⟩ := result
        simp only [History.record, Method.perform, hadd]
        exact hm.add hcall hadd
    | transition src f dst f' =>
      refine settle_keeps hm fun result hok => ?_
      obtain ⟨g, hgraph, hresult⟩ := addTransition_eq_ok hok
      rw [hresult]
      refine hm.same rfl hm.placed (fun n => ?_) hm.valid (.refl _) rfl
      obtain ⟨-, -, rfl | rfl⟩ := ExplodedGraph.addTransition_cases hgraph <;> rfl
    | update =>
      have hfollows' := hfollows.perform .update
      have hfacts : ∀ n, (m.perform .update).exploded.factsAt n = m.exploded.factsAt n :=
        m.exploded.sameFacts_delta.facts
      refine ⟨hm.valid, hm.placed, fun n f hf => ?_, .refl _, fun p hp => ?_, fun f _ _ => ?_⟩
      · rw [hfacts] at hf
        exact hm.facts n f hf
      · -- What was reported is a pair of the summary, whose exit fact the store has.
        have hknown := (hfollows'.tracks.reported.mem_iff p).1 hp
        have hexit := (hfollows'.tracks.valid.known p hknown).exit
        rw [hfollows'.sink, hfacts] at hexit
        exact hm.facts _ _ hexit
      · simp [History.record, Method.perform, updateSummary]
    | _ => cases hnews

/-! ## Runs -/

section New

variable {id : MethodId} {signature : String} {kind : MethodKind} {entry exit : String}
  {mode : JoinMode} {m : Method V} (hm : new id signature kind entry exit mode = .ok m)
include hm

theorem follows_new : Follows { reported := [], grown := [], store := m.store } m := by
  obtain ⟨-, rfl⟩ := new_eq_ok hm
  refine ⟨rfl, ExplodedGraph.valid_new 0 1, ExplodedGraph.handedOut_new 0 1, fun p hp => ?_⟩
  cases hp

theorem grounded_new : Grounded { reported := [], grown := [], store := m.store } m := by
  obtain ⟨-, rfl⟩ := new_eq_ok hm
  refine ⟨(StateStore.valid_new id mode).allocate.allocate, rfl, fun n f hf => ?_, .refl _,
    fun p hp => ?_, fun f _ _ => ?_⟩
  · rw [ExplodedGraph.factsAt_new] at hf
    cases hf
  · cases hp
  · simp

end New

section Runs

variable {h : History V} {m : Method V}

/-- Methods are in step with their histories in every run. -/
theorem Follows.run (hm : Follows h m) (calls : List (Call V)) :
    Follows (h.recordAll m calls) (m.run calls) := by
  induction calls generalizing h m with
  | nil => exact hm
  | cons call calls ih => exact ih (hm.perform call)

theorem Grounded.run (hfollows : Follows h m) (hm : Grounded h m) {calls : List (Call V)}
    (hcalls : ∀ c ∈ calls, c.WellFormed) : Grounded (h.recordAll m calls) (m.run calls) := by
  induction calls generalizing h m with
  | nil => exact hm
  | cons call calls ih =>
    obtain ⟨hcall, hrest⟩ := List.forall_mem_cons.1 hcalls
    exact ih (hfollows.perform call) (hm.perform hfollows hcall) hrest

end Runs

/-- No grown exit is forgotten.  After any run of a method, the refreshed pairs of
the next update are the pairs that earlier updates reported and whose exit fact
changed at the exit since the last update, each once.  The update is silent just
when there is neither a new nor a refreshed pair.  For well-formed structures the
facts that changed are those with another structure behind them. -/
theorem refreshed_exact {id : MethodId} {signature : String} {kind : MethodKind}
    {entry exit : String} {mode : JoinMode} {m : Method V}
    (hm : new id signature kind entry exit mode = .ok m) (calls : List (Call V)) :
    (m.run calls).refreshed.Nodup ∧
      (∀ p, p ∈ (m.run calls).refreshed ↔
        p ∈ (m.history calls).reported ∧ p.snd ∈ (m.history calls).grown) ∧
      ((m.run calls).updateSummary.2 = none ↔ ∀ p,
        ¬ ((m.run calls).exploded.Summarizes p ∧ p ∉ (m.history calls).reported) ∧
        ¬ (p ∈ (m.history calls).reported ∧ p.snd ∈ (m.history calls).grown)) ∧
      ((∀ c ∈ calls, c.WellFormed) → ∀ p ∈ (m.history calls).reported,
        (p.snd ∈ (m.history calls).grown ↔
          (m.history calls).store.structure? p.snd ≠ (m.run calls).store.structure? p.snd)) := by
  have hstart := follows_new hm
  have hfollows := hstart.run calls
  refine ⟨(m.run calls).exploded.nodup_refreshed, hfollows.tracks.mem_refreshed_iff,
    hfollows.tracks.delta_eq_none_iff, fun hcalls p hp => ?_⟩
  have hgrounded := (grounded_new hm).run hstart hcalls
  obtain ⟨hcontains, hstate⟩ := hgrounded.reported p hp
  exact hgrounded.grown p.snd hcontains hstate

/-- A statement leads from the entry to the exit.  After an update another cell is
joined into the one at the exit. -/
def growingCalls : List (Call Structure.cellVocabulary) :=
  [.intra "in" "out" default, .add 0 (StateStore.linkedCell .tt .tt),
    .add 1 (StateStore.linkedCell .tt .tt), .transition 0 ⟨0, 0, 1⟩ 1 ⟨0, 1, 2⟩, .update,
    .add 1 (StateStore.linkedCell .tt .ff)]

theorem refreshed_exact_growingCalls :
    ∃ m : Method Structure.cellVocabulary, new 0 "f" .static "in" "out" .pointwise = .ok m ∧
      (∀ c ∈ growingCalls, c.WellFormed) ∧
      (m.history growingCalls).reported = [⟨⟨0, 0, 1⟩, ⟨0, 1, 2⟩⟩] ∧
      (m.run growingCalls).refreshed = [⟨⟨0, 0, 1⟩, ⟨0, 1, 2⟩⟩] ∧
      (m.run growingCalls).updateSummary.2 ≠ none ∧
      (m.history growingCalls).store.structure? ⟨0, 1, 2⟩ ≠
        (m.run growingCalls).store.structure? ⟨0, 1, 2⟩ := by
  obtain ⟨m, hm⟩ : ∃ m : Method Structure.cellVocabulary,
    new 0 "f" .static "in" "out" .pointwise = .ok m := ⟨_, rfl⟩
  have hcalls : ∀ c ∈ growingCalls, c.WellFormed := by
    simp only [growingCalls, List.forall_mem_cons, Call.WellFormed, List.not_mem_nil,
      IsEmpty.forall_iff, implies_true, and_true, true_and]
    decide
  have hreported : (m.history growingCalls).reported = [⟨⟨0, 0, 1⟩, ⟨0, 1, 2⟩⟩] := by
    cases hm
    decide
  have hrefreshed : (m.run growingCalls).refreshed = [⟨⟨0, 0, 1⟩, ⟨0, 1, 2⟩⟩] := by
    cases hm
    decide
  obtain ⟨-, hmem, hnone, hchanged⟩ := refreshed_exact hm growingCalls
  have hpair : (⟨⟨0, 0, 1⟩, ⟨0, 1, 2⟩⟩ : FactPair) ∈ (m.run growingCalls).refreshed := by
    rw [hrefreshed]
    exact List.mem_singleton_self _
  obtain ⟨hknown, hgrown⟩ := (hmem _).1 hpair
  refine ⟨m, hm, hcalls, hreported, hrefreshed, fun hsilent => ?_,
    (hchanged hcalls _ hknown).1 hgrown⟩
  exact (hnone.1 hsilent _).2 ⟨hknown, hgrown⟩

end Method

end ShapeAnalysis
