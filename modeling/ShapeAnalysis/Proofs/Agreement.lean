import ShapeAnalysis.Proofs.InPlace

/-!
# The bookkeepings of a method

A method keeps books in three places.  Its control flow has the nodes and edges, its
store has an abstract state for each node, and its exploded graph has the facts at the
nodes and the pairs of nodes that an edge joins.  No operation compares them.  They agree
because whatever changes one of them changes the others alike (`Booked`).

The exploded graph hears of a fact only when the state changed.  A fact of a state that
did not change was there before, so nothing is missed.  A fact that a changed state had
before is not added a second time.  What is left is a new slot, whose fact comes last in
the state and in the graph.

From this follows which transitions are accepted (`Agrees.accepts_iff`), and from the
history of a run which of them are new (`mem_moves_execAll`).
-/

namespace ShapeAnalysis

/-! ## Exploded graphs -/

namespace ExplodedGraph

variable {g : ExplodedGraph}

theorem hasEdge_addEdge (g : ExplodedGraph) (src dst a b : Site) :
    (g.addEdge src dst).hasEdge a b = true ↔ g.hasEdge a b = true ∨ src = a ∧ dst = b := by
  unfold addEdge
  dsimp only
  split
  · rename_i hmem
    simp only [hasEdge, decide_eq_true_eq]
    constructor
    · exact .inl
    · rintro (hab | ⟨rfl, rfl⟩)
      · exact hab
      · exact hmem
  · simp [hasEdge, addNode, Prod.ext_iff, @eq_comm _ a, @eq_comm _ b]

theorem hasEdge_addFact (g : ExplodedGraph) (n : Site) (f : Fact) (a b : Site) :
    (g.addFact n f).1.hasEdge a b = g.hasEdge a b := by
  unfold addFact
  split
  · dsimp only
    split <;> rfl
  · rfl

theorem hasEdge_delta (g : ExplodedGraph) (a b : Site) : g.delta.1.hasEdge a b = g.hasEdge a b := by
  show g.refresh.hasEdge a b = g.hasEdge a b
  unfold refresh
  split <;> rfl

theorem moves_addFact (g : ExplodedGraph) (n : Site) (f : Fact) :
    (g.addFact n f).1.moves = g.moves := by
  unfold addFact
  split
  · dsimp only
    split <;> rfl
  · rfl

/-- A transition is accepted along an edge between known facts, and is new once. -/
theorem addTransition_eq_ok_iff {src dst : Site} {f f' : Fact} {new : Bool} :
    (∃ g', g.addTransition src f dst f' = .ok (g', new)) ↔
      g.hasEdge src dst = true ∧ f ∈ g.factsAt src ∧ f' ∈ g.factsAt dst ∧
        (new = true ↔ (⟨src, f⟩, ⟨dst, f'⟩) ∉ g.moves) := by
  unfold addTransition
  simp only [← hasFact_iff]
  cases hedge : g.hasEdge src dst with
  | false => simp
  | true =>
    cases hsrc : g.hasFact src f with
    | false => simp
    | true =>
      cases hdst : g.hasFact dst f' with
      | false => simp
      | true =>
        by_cases hmove : ((⟨src, f⟩, ⟨dst, f'⟩) : FactAt × FactAt) ∈ g.moves
        · simp [hmove, eq_comm]
        · simp [hmove, eq_comm]

/-- A transition that is accepted is recorded, and no other. -/
theorem mem_moves_addTransition {g' : ExplodedGraph} {src dst : Site} {f f' : Fact} {new : Bool}
    (h : g.addTransition src f dst f' = .ok (g', new)) (x : FactAt × FactAt) :
    x ∈ g'.moves ↔ x ∈ g.moves ∨ x = (⟨src, f⟩, ⟨dst, f'⟩) := by
  unfold addTransition at h
  split at h
  · cases h
  · split at h
    · cases h
    · dsimp only at h
      split at h
      · rename_i hmove
        cases h
        constructor
        · exact .inl
        · rintro (hx | rfl)
          · exact hx
          · exact hmove
      · cases h
        simp

end ExplodedGraph

/-! ## Stores -/

namespace StateStore

variable {V : Vocabulary} {st st' : StateStore V} {state : Nat} {s : Structure V}

/-- The facts of a state, one for each slot. -/
def factsOf (st : StateStore V) (state : Nat) : List Fact :=
  ((st.slots? state).getD []).map (st.fact state)

theorem id_merged (st : StateStore V) (s : Structure V) (k : Nat) (t : Structure V) :
    (st.merged s k t).id = st.id := by
  cases k with
  | zero => rfl
  | succ k => rfl

/-- A structure goes into a slot that its state has, or gets a new slot. -/
theorem addStructure_eq_ok {changed : Bool} {f : Fact}
    (h : st.addStructure state s = .ok (st', changed, f)) :
    ∃ slots, st.slots? state = some slots ∧
      ((∃ k ∈ slots, ∃ t, st.repository.get? k = some t ∧ st' = st.merged s k t ∧
          f = st.fact state k) ∨
        st' = st.extended state s ∧ changed = true ∧
          f = st.fact state (st.repository.items.length + 1)) := by
  unfold addStructure at h
  split at h
  · cases h
  · rename_i slots hslots
    refine ⟨slots, hslots, ?_⟩
    dsimp only at h
    split at h
    · rename_i k o r habsorb
      obtain ⟨hk, -, t, ht, hmerge⟩ := absorb?_eq_some habsorb
      dsimp only at ht hmerge
      cases h
      refine .inl ⟨k, hk, t, ht, ?_, rfl⟩
      rw [merged, hmerge]
    · cases h
      exact .inr ⟨rfl, rfl, rfl⟩

/-- A state that is there takes any structure. -/
theorem exists_addStructure {slots : List Nat} (h : st.slots? state = some slots)
    (s : Structure V) : ∃ r, st.addStructure state s = .ok r := by
  unfold addStructure
  rw [h]
  dsimp only
  split
  · exact ⟨_, rfl⟩
  · exact ⟨_, rfl⟩

/-- Every slot of a state has a structure. -/
def Filled (st : StateStore V) : Prop :=
  ∀ state slots, st.slots? state = some slots → ∀ slot ∈ slots,
    (st.repository.get? slot).isSome = true

theorem Filled.structures_eq (hst : st.Filled) (state : Nat) :
    (st.structures state).map Prod.fst = st.factsOf state := by
  unfold structures factsOf
  cases hslots : st.slots? state with
  | none => rfl
  | some slots =>
    show (slots.filterMap _).map Prod.fst = slots.map (st.fact state)
    rw [List.map_filterMap, ← List.filterMap_eq_map]
    refine List.filterMap_congr fun slot hslot => ?_
    obtain ⟨t, ht⟩ := Option.isSome_iff_exists.1 (hst state slots hslots slot hslot)
    simp [ht]

theorem Filled.new_slot (hst : st.Filled) {slots : List Nat}
    (hslots : st.slots? state = some slots) : st.repository.items.length + 1 ∉ slots := by
  intro hmem
  have hsome := Repository.get?_isSome.1 (hst state slots hslots _ hmem)
  rw [List.mem_range'_1] at hsome
  omega

theorem Filled.allocate (hst : st.Filled) : st.allocate.1.Filled := by
  intro other slots hslots slot hslot
  rw [slots?_allocate] at hslots
  split at hslots
  · cases hslots
    cases hslot
  · exact hst other slots hslots slot hslot

/-- A merge replaces a structure by a structure. -/
theorem Filled.merged (hst : st.Filled) {k : Nat} {t : Structure V}
    (ht : st.repository.get? k = some t) : (st.merged s k t).Filled := by
  intro other slots hslots slot hslot
  rw [get?_merged ht]
  split
  · rfl
  · exact hst other slots hslots slot hslot

/-- A new slot has a structure. -/
theorem Filled.extended (hst : st.Filled) {slots : List Nat}
    (hslots : st.slots? state = some slots) : (st.extended state s).Filled := by
  intro other slots' hslots' slot hslot
  rw [get?_extended]
  split
  · rfl
  · rename_i hne
    rw [slots?_extended hslots] at hslots'
    split at hslots'
    · cases hslots'
      rcases List.mem_append.1 hslot with hslot | hslot
      · exact hst state slots hslots slot hslot
      · exact absurd (List.mem_singleton.1 hslot) hne
    · exact hst other slots' hslots' slot hslot

theorem factsOf_allocate (st : StateStore V) (state : Nat) :
    st.allocate.1.factsOf state = st.factsOf state := by
  unfold factsOf
  rw [slots?_allocate]
  split
  · rename_i hstate
    rw [show st.slots? state = none from List.getElem?_eq_none (by omega)]
    rfl
  · rfl

/-- An extension adds one fact to one state. -/
theorem factsOf_extended {slots : List Nat} (hslots : st.slots? state = some slots)
    (other : Nat) : (st.extended state s).factsOf other =
      if other = state then st.factsOf other ++ [st.fact state (st.repository.items.length + 1)]
      else st.factsOf other := by
  unfold factsOf
  rw [slots?_extended hslots]
  split
  · rename_i hother
    subst hother
    rw [hslots]
    exact List.map_append
  · rfl

end StateStore

/-! ## Methods -/

namespace Cfg

theorem hasEdge_addEdge (g : Cfg) (src dst : Site) (label : FlowLabel) (a b : Site) :
    (g.addEdge src dst label).hasEdge a b = true ↔ g.hasEdge a b = true ∨ src = a ∧ dst = b := by
  simp [hasEdge, addEdge]

theorem hasEdge_iff {g : Cfg} {src dst : Site} :
    g.hasEdge src dst = true ↔ ∃ e ∈ g.edges, e.src = src ∧ e.dst = dst := by
  simp [hasEdge]

/-- Where labels are distinct, a label finds the node that has it. -/
theorem lookup_eq_some_iff {g : Cfg} (hg : (g.nodes.map (·.label)).Nodup) {label : String}
    {i : Site} : g.lookup label = some i ↔ ∃ n, g.node? i = some n ∧ n.label = label := by
  rw [lookup_eq_findIdx?, List.findIdx?_eq_some_iff_getElem]
  constructor
  · rintro ⟨hi, hlabel, -⟩
    rw [List.length_map] at hi
    exact ⟨g.nodes[i], List.getElem?_eq_getElem hi, by simpa using hlabel⟩
  · rintro ⟨n, hn, rfl⟩
    obtain ⟨hi, rfl⟩ := List.getElem?_eq_some_iff.1 hn
    have hi' : i < (g.nodes.map (·.label)).length := by rwa [List.length_map]
    refine ⟨hi', by simp, fun j hji => ?_⟩
    have hne := (List.nodup_iff_pairwise_ne.1 hg).rel_get_of_lt
      (a := ⟨j, hji.trans hi'⟩) (b := ⟨i, hi'⟩) hji
    simpa using hne

end Cfg

namespace Method

variable {V : Vocabulary}

/-- The books of a method agree. -/
structure Booked (id : MethodId) (m : Method V) : Prop where
  /-- The facts of the method carry its number. -/
  numbered : m.store.id = id
  /-- The entry is a node. -/
  begins : m.entry < m.cfg.nodes.length
  /-- Each node has the state of its number. -/
  placed : m.cfg.nodes.map (·.state) = List.range m.store.states.length
  /-- Labels are distinct. -/
  labels : (m.cfg.nodes.map (·.label)).Nodup
  /-- Every slot of a state has a structure. -/
  filled : m.store.Filled
  /-- The facts at a node are those of its state. -/
  facts : ∀ i, m.exploded.factsAt i = m.store.factsOf i
  /-- The edges are those of the control flow. -/
  edges : ∀ src dst, m.exploded.hasEdge src dst = true ↔ m.cfg.hasEdge src dst = true

theorem Booked.quiet (id : MethodId) : Quiet (Booked (V := V) id) where
  node m kind label hlookup hm := by
    have hfresh : label ∉ m.cfg.nodes.map (·.label) := by
      intro hmem
      obtain ⟨n, hn, rfl⟩ := List.mem_map.1 hmem
      have hnone := List.findIdx?_eq_none_iff.1 hlookup n hn
      simp at hnone
    refine ⟨hm.numbered, ?_, ?_, ?_, hm.filled.allocate, fun i => ?_, hm.edges⟩
    · simpa [createNode, Cfg.addNode] using Nat.lt_succ_of_lt hm.begins
    · simp [createNode, Cfg.addNode, StateStore.allocate, hm.placed, List.range_succ]
    · have hlabels : (m.createNode kind label).1.cfg.nodes.map (·.label) =
          m.cfg.nodes.map (·.label) ++ [label] := by
        simp [createNode, Cfg.addNode]
      rw [hlabels, List.nodup_append]
      refine ⟨hm.labels, List.nodup_singleton _, ?_⟩
      rintro a ha b hb rfl
      rw [List.mem_singleton.1 hb] at ha
      exact hfresh ha
    · exact (ExplodedGraph.factsAt_addNode _ _ i).trans
        ((hm.facts i).trans (m.store.factsOf_allocate i).symm)
  edge m src dst label hm := by
    refine ⟨hm.numbered, hm.begins, hm.placed, hm.labels, hm.filled, fun i => ?_, fun a b => ?_⟩
    · exact ((m.exploded.sameFacts_addEdge src dst).facts i).trans (hm.facts i)
    · show (m.exploded.addEdge src dst).hasEdge a b = true ↔
        (m.cfg.addEdge src dst label).hasEdge a b = true
      rw [ExplodedGraph.hasEdge_addEdge, Cfg.hasEdge_addEdge, hm.edges]
  nodes m cfg hedges hnodes hm := by
    refine ⟨hm.numbered, ?_, (Cfg.map_part Prod.snd hnodes).trans hm.placed, ?_, hm.filled,
      hm.facts, fun a b => ?_⟩
    · have hlength := congrArg List.length hnodes
      rw [List.length_map, List.length_map] at hlength
      show m.entry < cfg.nodes.length
      rw [hlength]
      exact hm.begins
    · rw [show cfg.nodes.map (·.label) = m.cfg.nodes.map (·.label) from
        Cfg.map_part Prod.fst hnodes]
      exact hm.labels
    · rw [Cfg.hasEdge_iff, hedges, ← Cfg.hasEdge_iff]
      exact hm.edges a b
  messages m f ms hm := by
    unfold addMessages StateStore.addMessages
    split
    · exact hm
    · exact ⟨hm.numbered, hm.begins, hm.placed, hm.labels, hm.filled, hm.facts, hm.edges⟩

section Booked

variable {id : MethodId} {m m' : Method V} (hm : m.Booked id)
include hm

/-- The fact that an addition returns is one of the state of the node. -/
theorem Booked.fact_eq {site : Site} {s : Structure V} {changed : Bool} {f : Fact}
    (h : m.addStructure site s = .ok (m', changed, f)) : f.store = id ∧ f.state = site := by
  obtain ⟨n, store, hn, hstore, -⟩ := addStructure_eq_ok h
  obtain ⟨rfl, -⟩ := Cfg.state_eq hm.placed hn
  obtain ⟨slots, -, ⟨k, -, t, -, -, rfl⟩ | ⟨-, -, rfl⟩⟩ := StateStore.addStructure_eq_ok hstore
  · exact ⟨hm.numbered, rfl⟩
  · exact ⟨hm.numbered, rfl⟩

/-- An addition to a slot that is there changes no book, and a new slot is booked in the
store and in the exploded graph. -/
theorem Booked.addStructure {site : Site} {s : Structure V} {changed : Bool} {f : Fact}
    (h : m.addStructure site s = .ok (m', changed, f)) : m'.Booked id := by
  obtain ⟨n, store, hn, hstore, rfl⟩ := addStructure_eq_ok h
  obtain ⟨rfl, -⟩ := Cfg.state_eq hm.placed hn
  have hedges : ∀ a b, (if changed = true then (m.exploded.addFact n.state f).1
      else m.exploded).hasEdge a b = m.exploded.hasEdge a b := by
    intro a b
    split
    · exact ExplodedGraph.hasEdge_addFact _ _ _ a b
    · rfl
  have hplaced : m.cfg.nodes.map (·.state) = List.range store.states.length := by
    rw [StateStore.length_states_add hstore]
    exact hm.placed
  obtain ⟨slots, hslots, ⟨k, hk, t, ht, rfl, rfl⟩ | ⟨rfl, rfl, rfl⟩⟩ :=
    StateStore.addStructure_eq_ok hstore
  · have hid := m.store.id_merged s k t
    have hfacts : ∀ i, (m.store.merged s k t).factsOf i = m.store.factsOf i := by
      intro i
      unfold StateStore.factsOf StateStore.fact
      rw [hid]
      rfl
    have hknown : m.store.fact n.state k ∈ m.exploded.factsAt n.state := by
      rw [hm.facts, StateStore.factsOf, hslots]
      exact List.mem_map_of_mem hk
    refine ⟨hid.trans hm.numbered, hm.begins, hplaced, hm.labels, hm.filled.merged ht,
      fun i => ?_, fun a b => ?_⟩
    · rw [hfacts, ← hm.facts]
      split
      · exact ExplodedGraph.factsAt_addFact_of_mem hknown i
      · rfl
    · rw [hedges]
      exact hm.edges a b
  · have hnew : m.store.fact n.state (m.store.repository.items.length + 1) ∉
        m.exploded.factsAt n.state := by
      rw [hm.facts, StateStore.factsOf, hslots]
      intro hmem
      obtain ⟨slot, hslot, heq⟩ := List.mem_map.1 hmem
      cases heq
      exact hm.filled.new_slot hslots hslot
    refine ⟨hm.numbered, hm.begins, hplaced, hm.labels, hm.filled.extended hslots,
      fun i => ?_, fun a b => ?_⟩
    · rw [StateStore.factsOf_extended hslots, ← hm.facts]
      exact ExplodedGraph.factsAt_addFact_of_not_mem hnew i
    · rw [hedges]
      exact hm.edges a b

theorem Booked.addTransition {src dst : Site} {f f' : Fact} {new : Bool}
    (h : m.addTransition src f dst f' = .ok (m', new)) : m'.Booked id := by
  obtain ⟨g, hgraph, rfl⟩ := addTransition_eq_ok h
  obtain ⟨-, -, rfl | rfl⟩ := ExplodedGraph.addTransition_cases hgraph
  · exact hm
  · exact ⟨hm.numbered, hm.begins, hm.placed, hm.labels, hm.filled, hm.facts, hm.edges⟩

theorem Booked.updateSummary : m.updateSummary.1.Booked id := by
  refine ⟨hm.numbered, hm.begins, hm.placed, hm.labels, hm.filled, fun i => ?_, fun a b => ?_⟩
  · exact (m.exploded.sameFacts_delta.facts i).trans (hm.facts i)
  · show m.exploded.delta.1.hasEdge a b = true ↔ m.cfg.hasEdge a b = true
    rw [ExplodedGraph.hasEdge_delta]
    exact hm.edges a b

/-- Every call keeps the books of a method in agreement. -/
theorem Booked.perform (call : Call V) : (m.perform call).Booked id := by
  cases hnews : call.isNews with
  | false => exact (Booked.quiet id).perform hm hnews
  | true =>
    cases call with
    | add site s => exact settle_keeps hm fun _ h => hm.addStructure h
    | transition src f dst f' => exact settle_keeps hm fun _ h => hm.addTransition h
    | update => exact hm.updateSummary
    | _ => cases hnews

/-- So does every run. -/
theorem Booked.run (calls : List (Call V)) : (m.run calls).Booked id := by
  induction calls generalizing m with
  | nil => exact hm
  | cons call calls ih => exact ih (hm.perform call)

end Booked

/-- The books of a new method agree. -/
theorem booked_new {id : MethodId} {signature : String} {kind : MethodKind} {entry exit : String}
    {mode : JoinMode} {m : Method V} (h : new id signature kind entry exit mode = .ok m) :
    m.Booked id := by
  obtain ⟨hne, rfl⟩ := new_eq_ok h
  refine ⟨rfl, Nat.zero_lt_two, rfl, ?_, ?_, fun i => ?_, fun a b => ?_⟩
  · simpa using hne
  · exact StateStore.Filled.allocate (StateStore.Filled.allocate fun _ _ hslots => by cases hslots)
  · rw [ExplodedGraph.factsAt_new, StateStore.factsOf_allocate, StateStore.factsOf_allocate]
    rfl
  · rfl

/-! ## Agreement -/

/-- The control flow, the store and the exploded graph of a method agree. -/
structure Agrees (m : Method V) : Prop where
  /-- The state of a node is in the store. -/
  owned : ∀ i n, m.cfg.node? i = some n → m.store.slots? n.state ≠ none
  /-- No other node has it. -/
  apart : ∀ i j n n', m.cfg.node? i = some n → m.cfg.node? j = some n' → n.state = n'.state → i = j
  /-- A label names the node that has it. -/
  named : ∀ label i, m.cfg.lookup label = some i ↔
    ∃ n, m.cfg.node? i = some n ∧ n.label = label
  /-- The facts at a node are those of its state, in the same order. -/
  facts : ∀ i, m.exploded.factsAt i = m.factsAt i
  /-- The sites that an edge joins are those that the control flow joins. -/
  edges : ∀ src dst, m.exploded.hasEdge src dst = true ↔
    ∃ e ∈ m.cfg.edges, e.src = src ∧ e.dst = dst

theorem Booked.slots?_ne_none {id : MethodId} {m : Method V} (hm : m.Booked id) {i : Site}
    {n : FlowNode} (hn : m.cfg.node? i = some n) : m.store.slots? n.state ≠ none := by
  obtain ⟨rfl, hlt⟩ := Cfg.state_eq hm.placed hn
  rw [StateStore.slots?, List.getElem?_eq_getElem hlt]
  exact Option.some_ne_none _

theorem Booked.length_states {id : MethodId} {m : Method V} (hm : m.Booked id) :
    m.store.states.length = m.cfg.nodes.length := by
  have hlength := congrArg List.length hm.placed
  rw [List.length_map, List.length_range] at hlength
  exact hlength.symm

/-- A site without a node has no state. -/
theorem Booked.slots?_eq_none {id : MethodId} {m : Method V} (hm : m.Booked id) {i : Site}
    (hn : m.cfg.node? i = none) : m.store.slots? i = none := by
  refine List.getElem?_eq_none ?_
  rw [hm.length_states]
  exact List.getElem?_eq_none_iff.1 hn

/-- What users see of the three books agrees. -/
theorem Booked.agrees {id : MethodId} {m : Method V} (hm : m.Booked id) : m.Agrees := by
  refine ⟨fun i n => hm.slots?_ne_none, fun i j n n' hn hn' hstate => ?_,
    fun label i => Cfg.lookup_eq_some_iff hm.labels, fun i => ?_, fun src dst => ?_⟩
  · obtain ⟨hi, -⟩ := Cfg.state_eq hm.placed hn
    obtain ⟨hj, -⟩ := Cfg.state_eq hm.placed hn'
    rw [← hi, ← hj, hstate]
  · rw [hm.facts, factsAt, structuresAt]
    cases hn : m.cfg.node? i with
    | some n =>
      obtain ⟨rfl, -⟩ := Cfg.state_eq hm.placed hn
      exact (hm.filled.structures_eq n.state).symm
    | none =>
      rw [StateStore.factsOf, hm.slots?_eq_none hn]
      rfl
  · rw [hm.edges, Cfg.hasEdge_iff]

/-! ## Transitions -/

section Transitions

variable {m : Method V} {src dst : Site} {f f' : Fact}

/-- A transition is answered as the exploded graph answers it. -/
theorem answer_addTransition {new : Bool} :
    (InPlace.addTransition src f dst f').answer m = .ok new ↔
      ∃ g, m.exploded.addTransition src f dst f' = .ok (g, new) := by
  unfold Command.answer InPlace.addTransition
  rw [Command.run_atomic, Method.addTransition]
  cases m.exploded.addTransition src f dst f' with
  | error e => simp
  | ok r =>
    obtain ⟨g, new'⟩ := r
    simp [ok_bind, pure, Except.pure]

/-- Whether a call is a transition that is accepted. -/
def Accepts (m : Method V) (src : Site) (f : Fact) (dst : Site) (f' : Fact) (call : Call V) :
    Prop :=
  call = .transition src f dst f' ∧
    ∃ new, (InPlace.addTransition src f dst f').answer m = .ok new

/-- Whether a transition was accepted in the course of a run. -/
def Recorded (m : Method V) (src : Site) (f : Fact) (dst : Site) (f' : Fact)
    (calls : List (Call V)) : Prop :=
  ∃ earlier call later, calls = earlier ++ call :: later ∧
    (m.execAll earlier).Accepts src f dst f' call

theorem recorded_cons {call : Call V} {calls : List (Call V)} :
    m.Recorded src f dst f' (call :: calls) ↔
      m.Accepts src f dst f' call ∨ (call.command.leaves m).Recorded src f dst f' calls := by
  constructor
  · rintro ⟨earlier, call', later, hsplit, haccepts⟩
    cases earlier with
    | nil =>
      cases hsplit
      exact .inl haccepts
    | cons first earlier =>
      cases hsplit
      exact .inr ⟨earlier, call', later, rfl, haccepts⟩
  · rintro (haccepts | ⟨earlier, call', later, rfl, haccepts⟩)
    · exact ⟨[], call, calls, rfl, haccepts⟩
    · exact ⟨call :: earlier, call', later, rfl, haccepts⟩

theorem moves_quiet (moves : List (FactAt × FactAt)) :
    Quiet fun m : Method V => m.exploded.moves = moves where
  node _ _ _ _ hm := hm
  edge m src dst _ hm := (m.exploded.sameFacts_addEdge src dst).moves.trans hm
  nodes _ _ _ _ hm := hm
  messages _ _ _ hm := hm

/-- A call records a transition if it is that transition and accepted. -/
theorem mem_moves_perform (call : Call V) :
    (⟨src, f⟩, ⟨dst, f'⟩) ∈ (m.perform call).exploded.moves ↔
      (⟨src, f⟩, ⟨dst, f'⟩) ∈ m.exploded.moves ∨ m.Accepts src f dst f' call := by
  have hother : (m.perform call).exploded.moves = m.exploded.moves →
      call ≠ .transition src f dst f' → ((⟨src, f⟩, ⟨dst, f'⟩) ∈ (m.perform call).exploded.moves ↔
        (⟨src, f⟩, ⟨dst, f'⟩) ∈ m.exploded.moves ∨ m.Accepts src f dst f' call) := by
    intro hmoves hcall
    rw [hmoves, or_iff_left fun haccepts => hcall haccepts.1]
  cases hnews : call.isNews with
  | false =>
    refine hother ((moves_quiet _).perform rfl hnews) ?_
    rintro rfl
    cases hnews
  | true =>
    cases call with
    | add site s =>
      refine hother ?_ (by rintro ⟨⟩)
      refine settle_keeps (P := fun m' : Method V => m'.exploded.moves = m.exploded.moves) rfl
        fun r h => ?_
      obtain ⟨n, store, -, -, hr⟩ := addStructure_eq_ok h
      rw [hr]
      dsimp only
      split
      · exact ExplodedGraph.moves_addFact _ _ _
      · rfl
    | transition src' g dst' g' =>
      cases hadd : m.exploded.addTransition src' g dst' g' with
      | error e =>
        have hsame : m.perform (.transition src' g dst' g') = m := by
          simp only [Method.perform, Method.addTransition, hadd]
          rfl
        rw [hsame, or_iff_left]
        rintro ⟨hcall, new, hanswer⟩
        cases hcall
        rw [answer_addTransition, hadd] at hanswer
        simp at hanswer
      | ok r =>
        have hgraph : (m.perform (.transition src' g dst' g')).exploded = r.1 := by
          simp only [Method.perform, Method.addTransition, hadd]
          rfl
        rw [hgraph, ExplodedGraph.mem_moves_addTransition hadd]
        refine or_congr_right ⟨fun heq => ?_, fun haccepts => ?_⟩
        · cases heq
          exact ⟨rfl, r.2, answer_addTransition.2 ⟨r.1, hadd⟩⟩
        · cases haccepts.1
          rfl
    | update => exact hother m.exploded.sameFacts_delta.moves (by rintro ⟨⟩)
    | _ => cases hnews

/-- So a run has recorded what it accepted. -/
theorem mem_moves_execAll (calls : List (Call V)) :
    (⟨src, f⟩, ⟨dst, f'⟩) ∈ (m.execAll calls).exploded.moves ↔
      (⟨src, f⟩, ⟨dst, f'⟩) ∈ m.exploded.moves ∨ m.Recorded src f dst f' calls := by
  induction calls generalizing m with
  | nil =>
    refine (or_iff_left ?_).symm
    rintro ⟨earlier, call, later, hsplit, -⟩
    cases earlier with
    | nil => cases hsplit
    | cons _ _ => cases hsplit
  | cons call calls ih =>
    show _ ∈ ((call.command.leaves m).execAll calls).exploded.moves ↔ _
    rw [ih, recorded_cons, leaves_command, mem_moves_perform, or_assoc]

/-- A transition is accepted along an edge between facts of its nodes. -/
theorem Agrees.accepts_iff (hm : m.Agrees) :
    (∃ new, (InPlace.addTransition src f dst f').answer m = .ok new) ↔
      (∃ e ∈ m.cfg.edges, e.src = src ∧ e.dst = dst) ∧ f ∈ m.factsAt src ∧ f' ∈ m.factsAt dst := by
  simp only [answer_addTransition, ExplodedGraph.addTransition_eq_ok_iff, hm.edges, hm.facts]
  constructor
  · rintro ⟨new, hedge, hsrc, hdst, -⟩
    exact ⟨hedge, hsrc, hdst⟩
  · rintro ⟨hedge, hsrc, hdst⟩
    exact ⟨decide ((⟨src, f⟩, ⟨dst, f'⟩) ∉ m.exploded.moves), hedge, hsrc, hdst, decide_eq_true_iff⟩

/-- A transition that is accepted is new unless it was accepted before. -/
theorem answer_eq_true_iff :
    (InPlace.addTransition src f dst f').answer m = .ok true ↔
      (∃ new, (InPlace.addTransition src f dst f').answer m = .ok new) ∧
        (⟨src, f⟩, ⟨dst, f'⟩) ∉ m.exploded.moves := by
  have hanswer : ∀ new, (InPlace.addTransition src f dst f').answer m = .ok new ↔
      m.exploded.hasEdge src dst = true ∧ f ∈ m.exploded.factsAt src ∧
        f' ∈ m.exploded.factsAt dst ∧ (new = true ↔ (⟨src, f⟩, ⟨dst, f'⟩) ∉ m.exploded.moves) :=
    fun new => answer_addTransition.trans ExplodedGraph.addTransition_eq_ok_iff
  constructor
  · intro htrue
    exact ⟨⟨true, htrue⟩, ((hanswer true).1 htrue).2.2.2.1 rfl⟩
  · rintro ⟨⟨new, hnew⟩, hmove⟩
    obtain ⟨hedge, hsrc, hdst, -⟩ := (hanswer new).1 hnew
    exact (hanswer true).2 ⟨hedge, hsrc, hdst, iff_of_true rfl hmove⟩

end Transitions

end Method

end ShapeAnalysis
