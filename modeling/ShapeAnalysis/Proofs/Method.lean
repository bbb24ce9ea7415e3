import ShapeAnalysis.Flow.Method

/-!
# What the operations of a method can do

Each operation that may fail is inverted: from an answer follow the checks that
were passed on the way and the method that is left.  The control flow of a method
is built from three steps only, which are a new node, a new edge and a plain node
that becomes a call site.
-/

namespace ShapeAnalysis

section Steps

variable {α β : Type} {e : Error} {a : α} {b : β}

theorem bind_eq_ok {x : Except Error α} {k : α → Except Error β} :
    x >>= k = .ok b ↔ ∃ a, x = .ok a ∧ k a = .ok b := by
  cases x with
  | error e => simp [bind, Except.bind]
  | ok a => simp [bind, Except.bind]

/-- What follows a check is reached when the check is passed. -/
theorem guard_eq_ok {c : Prop} [Decidable c] {k : PUnit → Except Error α} :
    (if c then throw e >>= k else k ⟨⟩) = .ok a ↔ ¬ c ∧ k ⟨⟩ = .ok a := by
  by_cases hc : c
  · simp [hc, throw, throwThe, MonadExceptOf.throw, bind, Except.bind]
  · simp [hc]

theorem branch_eq_ok {c : Prop} [Decidable c] {x y : Except Error α} {k : α → Except Error β}
    (h : (if c then x >>= k else y >>= k) = .ok b) : ∃ a, k a = .ok b := by
  split at h
  · obtain ⟨a, -, h⟩ := bind_eq_ok.1 h
    exact ⟨a, h⟩
  · obtain ⟨a, -, h⟩ := bind_eq_ok.1 h
    exact ⟨a, h⟩

/-- What an operation leaves behind.  When it is refused, that is what was there. -/
def settle (old : α) (left : β → α) : Except Error β → α
  | .ok b => left b
  | .error _ => old

@[simp] theorem settle_ok (old : α) (left : β → α) (b : β) : settle old left (.ok b) = left b := rfl

@[simp] theorem settle_error (old : α) (left : β → α) (e : Error) :
    settle old left (.error e) = old := rfl

theorem settle_keeps {P : α → Prop} {old : α} {left : β → α} {x : Except Error β} (hold : P old)
    (h : ∀ b, x = .ok b → P (left b)) : P (settle old left x) := by
  cases x with
  | ok b => exact h b rfl
  | error e => exact hold

end Steps

namespace Cfg

variable {β : Type} {look : FlowNode → β} {change : FlowNode → FlowNode}

/-- Nodes that look the same after a change look the same in the graph. -/
theorem map_modifyNode (h : ∀ n, look (change n) = look n) (g : Cfg) (i : Site) :
    (g.modifyNode i change).nodes.map look = g.nodes.map look := by
  refine List.ext_getElem? fun j => ?_
  simp only [modifyNode, List.getElem?_map, List.getElem?_modify]
  cases g.nodes[j]? with
  | none => simp
  | some n =>
    by_cases hij : i = j
    · simp [hij, h]
    · simp [hij]

theorem map_mapNodes (h : ∀ n, look (change n) = look n) (g : Cfg) :
    (g.mapNodes change).nodes.map look = g.nodes.map look := by
  simp [mapNodes, h]

/-- Where nodes look the same, a part of the look is the same. -/
theorem map_part {γ : Type} (part : β → γ) {g g' : Cfg}
    (h : g'.nodes.map look = g.nodes.map look) :
    (g'.nodes.map fun n => part (look n)) = g.nodes.map fun n => part (look n) := by
  simpa [Function.comp_def] using congrArg (List.map part) h

/-- Where the states of the nodes are counted, the node at a site has the state of the same
number. -/
theorem state_eq {g : Cfg} {k : Nat} (h : g.nodes.map (·.state) = List.range k) {i : Site}
    {n : FlowNode} (hn : g.node? i = some n) : n.state = i ∧ i < k := by
  have hstate : (g.nodes.map (·.state))[i]? = some n.state := by
    rw [List.getElem?_map]
    exact congrArg (Option.map (·.state)) hn
  rw [h] at hstate
  obtain ⟨hlt, hi⟩ := List.getElem?_eq_some_iff.1 hstate
  rw [List.length_range] at hlt
  rw [List.getElem_range] at hi
  exact ⟨hi.symm, hlt⟩

theorem lookup_eq_findIdx? (g : Cfg) (label : String) :
    g.lookup label = (g.nodes.map (·.label)).findIdx? (· == label) := by
  rw [List.findIdx?_map]
  rfl

end Cfg

namespace Method

variable {V : Vocabulary} {m m' : Method V}

theorem new_eq_ok {id : MethodId} {signature : String} {kind : MethodKind} {entry exit : String}
    {mode : JoinMode} (h : new id signature kind entry exit mode = .ok m) :
    entry ≠ exit ∧ m =
      { id, signature, kind
        cfg := { nodes := [{ label := entry, kind := .entry, state := 0 },
          { label := exit, kind := .exit, state := 1 }] }
        store := ((StateStore.new id mode).allocate.1).allocate.1
        exploded := .new 0 1
        entry := 0
        exit := 1 } := by
  unfold new at h
  split at h
  · cases h
  · rename_i hne
    exact ⟨hne, (Except.ok.inj h).symm⟩

theorem node_eq_ok {site : Site} {n : FlowNode} :
    m.node site = .ok n ↔ m.cfg.node? site = some n := by
  unfold node
  cases m.cfg.node? site with
  | none => simp
  | some n' => simp

/-! ## Building the control flow -/

theorem obtainNode_cases {kind : NodeKind} {label : String} {i : Site}
    (h : m.obtainNode kind label = .ok (m', i)) :
    (m.cfg.lookup label = none ∧ m.createNode kind label = (m', i)) ∨
      ∃ n, m.cfg.lookup label = some i ∧ m.cfg.node? i = some n ∧
        ((m' = m ∧ (n.kind = kind ∨ kind = .intra ∧ n.kind.acceptsIntra)) ∨
          (n.kind = .intra ∧ kind.isCall = true ∧
            m' = { m with cfg := m.cfg.modifyNode i fun n => { n with kind } })) := by
  unfold obtainNode at h
  split at h
  · rename_i hlookup
    exact .inl ⟨hlookup, Except.ok.inj h⟩
  · rename_i j hlookup
    split at h
    · cases h
    · rename_i n hnode
      rw [node_eq_ok] at hnode
      split at h
      · rename_i hkind
        cases h
        exact .inr ⟨n, hlookup, hnode, .inl ⟨rfl, hkind⟩⟩
      · split at h
        · rename_i hcall
          cases h
          exact .inr ⟨n, hlookup, hnode, .inr ⟨hcall.1, hcall.2, rfl⟩⟩
        · cases h

theorem addIntra_cases {src dst : String} {action : ActionInstance}
    (h : m.addIntra src dst action = .ok m') :
    ∃ m₁ i m₂ j, m.obtainNode .intra src = .ok (m₁, i) ∧
      ((m₁.cfg.lookup dst = some j ∧ m₂ = m₁) ∨
        (m₁.cfg.lookup dst = none ∧ m₁.createNode .intra dst = (m₂, j))) ∧
      m' = m₂.addEdge i j (.intra action) := by
  unfold addIntra at h
  obtain ⟨⟨m₁, i⟩, hsrc, h⟩ := bind_eq_ok.1 h
  dsimp only at h
  split at h
  · rename_i j hlookup
    exact ⟨m₁, i, m₁, j, hsrc, .inl ⟨hlookup, rfl⟩, (Except.ok.inj h).symm⟩
  · rename_i hlookup
    obtain ⟨⟨m₂, j⟩, hdst, h⟩ := bind_eq_ok.1 h
    simp only [obtainNode, hlookup] at hdst
    exact ⟨m₁, i, m₂, j, hsrc, .inr ⟨hlookup, Except.ok.inj hdst⟩, (Except.ok.inj h).symm⟩

theorem addCall_cases {kind : MethodKind} {src dst callee : String} {args : List String}
    (h : m.addCall kind src dst callee args = .ok m') :
    m.checkCall kind.callSite src dst = .ok () ∧
      ∃ m₁ i, m.obtainNode kind.callSite src = .ok (m₁, i) ∧
        (((m₁.cfg.returnSite? i).isSome = true ∧ m' = m₁) ∨
          (m₁.cfg.returnSite? i = none ∧ ∃ m₂ j, m₁.obtainNode .returnSite dst = .ok (m₂, j) ∧
            m' = m₂.addEdge i j (.callToReturn (invocationText callee args)))) := by
  unfold addCall at h
  obtain ⟨u, hcheck, h⟩ := bind_eq_ok.1 h
  obtain ⟨⟨m₁, i⟩, hsrc, h⟩ := bind_eq_ok.1 h
  refine ⟨hcheck, m₁, i, hsrc, ?_⟩
  dsimp only at h
  split at h
  · rename_i hreturn
    exact .inl ⟨hreturn, (Except.ok.inj h).symm⟩
  · rename_i hreturn
    obtain ⟨⟨m₂, j⟩, hdst, h⟩ := bind_eq_ok.1 h
    exact .inr ⟨by simpa using hreturn, m₂, j, hdst, (Except.ok.inj h).symm⟩

/-- A call site has no edge yet, or the edge of the virtual call. -/
theorem checkEdge_eq_ok {kind : NodeKind} {src : String} {i : Site} {dst : Option Site}
    (h : m.checkEdge kind src i dst = .ok ()) :
    m.cfg.outgoing i = [] ∨ ∃ e, m.cfg.outgoing i = [e] ∧ kind = .virtualCall ∧
      e.label.isCallToReturn = true ∧ dst = some e.dst := by
  unfold checkEdge at h
  split at h
  · exact .inl ‹_›
  · rename_i e hout
    split at h
    · rename_i hcond
      simp only [Bool.and_eq_true, decide_eq_true_eq] at hcond
      exact .inr ⟨e, hout, hcond.1.1, hcond.1.2, hcond.2.symm⟩
    · cases h
  · cases h

theorem checkCall_eq_ok {kind : NodeKind} {src dst : String}
    (h : m.checkCall kind src dst = .ok ()) :
    src ≠ dst ∧
      (∀ j n, m.cfg.lookup dst = some j → m.cfg.node? j = some n → n.kind = .returnSite) ∧
      ∀ i n, m.cfg.lookup src = some i → m.cfg.node? i = some n →
        (n.kind = kind ∨ n.kind = .intra) ∧
          m.checkEdge kind src i (m.cfg.lookup dst) = .ok () := by
  unfold checkCall at h
  obtain ⟨hne, h⟩ := guard_eq_ok.1 h
  refine ⟨hne, fun j n hj hn => ?_, fun i n hi hn => ?_⟩
  · simp only [hj] at h
    obtain ⟨n', hn', h⟩ := bind_eq_ok.1 h
    obtain ⟨hkind, -⟩ := guard_eq_ok.1 h
    rw [node_eq_ok, hn] at hn'
    cases hn'
    exact Decidable.not_not.1 hkind
  · simp only [hi] at h
    -- The same is left to check whether or not the return site is there.
    obtain ⟨n', hn', h⟩ : ∃ n', m.node i = .ok n' ∧ ¬ (n'.kind ≠ kind ∧ n'.kind ≠ .intra) ∧
        m.checkEdge kind src i (m.cfg.lookup dst) = .ok () := by
      split at h
      · obtain ⟨r, -, h⟩ := bind_eq_ok.1 h
        obtain ⟨-, h⟩ := guard_eq_ok.1 h
        obtain ⟨n', hn', h⟩ := bind_eq_ok.1 h
        exact ⟨n', hn', guard_eq_ok.1 h⟩
      · obtain ⟨n', hn', h⟩ := bind_eq_ok.1 h
        exact ⟨n', hn', guard_eq_ok.1 h⟩
    rw [node_eq_ok, hn] at hn'
    cases hn'
    exact ⟨Decidable.or_iff_not_not_and_not.2 h.1, h.2⟩

/-! ## Facts -/

theorem addStructure_eq_ok {site : Site} {s : Structure V} {changed : Bool} {f : Fact}
    (h : m.addStructure site s = .ok (m', changed, f)) :
    ∃ n store, m.cfg.node? site = some n ∧
      m.store.addStructure n.state s = .ok (store, changed, f) ∧
      m' = { m with
        store
        exploded := if changed then (m.exploded.addFact site f).1 else m.exploded } := by
  unfold addStructure at h
  obtain ⟨n, hnode, h⟩ := bind_eq_ok.1 h
  obtain ⟨⟨store, changed', f'⟩, hstore, h⟩ := bind_eq_ok.1 h
  cases h
  exact ⟨n, store, node_eq_ok.1 hnode, hstore, rfl⟩

theorem addTransition_eq_ok {src dst : Site} {f f' : Fact} {new : Bool}
    (h : m.addTransition src f dst f' = .ok (m', new)) :
    ∃ g, m.exploded.addTransition src f dst f' = .ok (g, new) ∧ m' = { m with exploded := g } := by
  unfold addTransition at h
  obtain ⟨⟨g, new'⟩, hgraph, h⟩ := bind_eq_ok.1 h
  cases h
  exact ⟨g, hgraph, rfl⟩

end Method

end ShapeAnalysis
