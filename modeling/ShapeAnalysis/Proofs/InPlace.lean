import ShapeAnalysis.Flow.InPlace
import ShapeAnalysis.Proofs.Refresh
import ShapeAnalysis.Proofs.Topology

/-!
# Commands on a method

A command that is made of several changes is worth as much as an operation that
makes them at once only if it is never refused between two of them.  For methods this
holds whatever the method is.  A statement looks its first node up and creates the
second one if it has to, and a new node is never refused.  A call checks both of its
labels before it touches the first.

So the method that a run of commands leaves is the one that `run` computes
(`execAll_eq_run`), refused commands included.
-/

namespace ShapeAnalysis

theorem ok_bind {α β : Type} (a : α) (k : α → Except Error β) : Except.ok a >>= k = k a := rfl

theorem ite_bind {α β : Type} {c : Prop} [Decidable c] (x y : Except Error α)
    (k : α → Except Error β) :
    (if c then x >>= k else y >>= k) = (if c then x else y) >>= k := by
  split
  · rfl
  · rfl

namespace Command

variable {σ τ α : Type}

@[simp] theorem run_ask (question : σ → Except Error α) (s : σ) : (ask question).run s =
    match question s with
    | .ok a => .ok a s
    | .error e => .error e s := rfl

@[simp] theorem run_atomic (op : σ → Except Error (σ × α)) (s : σ) : (atomic op).run s =
    match op s with
    | .ok (s', a) => .ok a s'
    | .error e => .error e s := rfl

@[simp] theorem run_update (op : σ → Except Error σ) (s : σ) : (update op).run s =
    match op s with
    | .ok s' => .ok () s'
    | .error e => .error e s := by
  rw [update, run_atomic]
  cases op s with
  | ok s' => rfl
  | error e => rfl

@[simp] theorem run_onPart (part : τ) (put : τ → σ → σ) (c : Command τ α) (s : σ) :
    (onPart part put c).run s =
      match c.run part with
      | .ok a t => .ok a (put t s)
      | .error e t => .error e (put t s) := rfl

/-- A command that changes all or nothing leaves what the operation gives, or what was there. -/
theorem leaves_atomic (op : σ → Except Error (σ × α)) (s : σ) :
    (atomic op).leaves s = settle s Prod.fst (op s) := by
  rw [leaves, run_atomic]
  cases op s with
  | ok r => rfl
  | error e => rfl

theorem leaves_update (op : σ → Except Error σ) (s : σ) :
    (update op).leaves s = settle s (fun s' => s') (op s) := by
  rw [leaves, run_update]
  cases op s with
  | ok s' => rfl
  | error e => rfl

theorem leaves_eq {c c' : Command σ α} {s : σ} (h : c.run s = c'.run s) :
    c.leaves s = c'.leaves s := by
  rw [leaves, leaves, h]

end Command

namespace Method

variable {V : Vocabulary} {m : Method V}

/-! ## Nodes are obtained -/

/-- A label that is found has a node. -/
theorem exists_node_of_lookup {label : String} {i : Site} (h : m.cfg.lookup label = some i) :
    ∃ n, m.cfg.node? i = some n ∧ n.label = label := by
  obtain ⟨hlt, hlabel, -⟩ := List.findIdx?_eq_some_iff_getElem.1 h
  exact ⟨m.cfg.nodes[i], List.getElem?_eq_getElem hlt, by simpa using hlabel⟩

theorem obtainNode_of_lookup_none {kind : NodeKind} {label : String}
    (h : m.cfg.lookup label = none) : m.obtainNode kind label = .ok (m.createNode kind label) := by
  unfold obtainNode
  rw [h]

/-- A node of the right kind is found, and a plain node serves as a call site. -/
theorem exists_obtainNode_of_lookup {kind : NodeKind} {label : String} {i : Site} {n : FlowNode}
    (h : m.cfg.lookup label = some i) (hn : m.cfg.node? i = some n)
    (hkind : n.kind = kind ∨ n.kind = .intra ∧ kind.isCall = true) :
    ∃ m', m.obtainNode kind label = .ok (m', i) := by
  unfold obtainNode
  rw [h]
  simp only [node_eq_ok.2 hn]
  split
  · exact ⟨m, rfl⟩
  · rename_i hother
    rcases hkind with hkind | hcall
    · exact absurd (.inl hkind) hother
    · rw [if_pos hcall]
      exact ⟨_, rfl⟩

/-- A call that passes its checks gets its call site. -/
theorem exists_obtainNode_callSite {kind : MethodKind} {src dst : String}
    (h : m.checkCall kind.callSite src dst = .ok ()) :
    ∃ m' i, m.obtainNode kind.callSite src = .ok (m', i) := by
  cases hlookup : m.cfg.lookup src with
  | none => exact ⟨_, _, obtainNode_of_lookup_none hlookup⟩
  | some i =>
    obtain ⟨n, hn, -⟩ := exists_node_of_lookup hlookup
    obtain ⟨-, -, hsrc⟩ := checkCall_eq_ok h
    have hkind : n.kind = kind.callSite ∨ n.kind = .intra ∧ kind.callSite.isCall = true := by
      rcases (hsrc i n hlookup hn).1 with hsame | hintra
      · exact .inl hsame
      · exact .inr ⟨hintra, kind.isCall_callSite⟩
    obtain ⟨m', hm'⟩ := exists_obtainNode_of_lookup hlookup hn hkind
    exact ⟨m', i, hm'⟩

/-- Its return site, if there is one, is still a return site then. -/
theorem exists_obtainNode_returnSite {kind : MethodKind} {src dst : String} {m' : Method V}
    {i : Site} (h : m.checkCall kind.callSite src dst = .ok ())
    (hsrc : m.obtainNode kind.callSite src = .ok (m', i)) :
    ∃ m'' j, m'.obtainNode .returnSite dst = .ok (m'', j) := by
  obtain ⟨hne, hdst, -⟩ := checkCall_eq_ok h
  have hsame : m'.cfg.lookup dst = m.cfg.lookup dst := by
    rw [lookup_obtainNode hsrc, if_neg (Ne.symm hne)]
  cases hlookup : m.cfg.lookup dst with
  | none => exact ⟨_, _, obtainNode_of_lookup_none (hsame.trans hlookup)⟩
  | some j =>
    obtain ⟨n, hn, -⟩ := exists_node_of_lookup hlookup
    have hold : m.topology.kindAt j = some .returnSite := by
      rw [kindAt_topology, hn, ← hdst j n hlookup hn]
      rfl
    have hnew : m'.topology.kindAt j = some .returnSite :=
      kindAt_obtainNode_of_ne_intra hsrc hold (by decide)
    rw [kindAt_topology] at hnew
    obtain ⟨n', hn', hkind⟩ := Option.map_eq_some_iff.1 hnew
    obtain ⟨m'', hm''⟩ := exists_obtainNode_of_lookup (hsame.trans hlookup) hn' (.inl hkind)
    exact ⟨m'', j, hm''⟩

/-! ## Commands do what the operations do -/

/-- A statement is added in place as the operation adds it. -/
theorem run_addIntra (m : Method V) (src dst : String) (action : ActionInstance) :
    (InPlace.addIntra src dst action).run m =
      (Command.update fun m : Method V => m.addIntra src dst action).run m := by
  simp only [InPlace.addIntra, InPlace.obtainNode, EStateM.run_bind, Command.run_atomic,
    Command.run_update, Method.addIntra]
  cases hsrc : m.obtainNode .intra src with
  | error e => rfl
  | ok r =>
    obtain ⟨m₁, i⟩ := r
    simp only [EStateM.run_get, ok_bind]
    cases hdst : m₁.cfg.lookup dst with
    | some j => rfl
    | none =>
      -- The second node is new, so nothing can refuse it.
      simp only [EStateM.run_bind, Command.run_atomic, obtainNode_of_lookup_none hdst]
      rfl

/-- So is a call. -/
theorem run_addCall (m : Method V) (kind : MethodKind) (src dst callee : String)
    (args : List String) : (InPlace.addCall kind src dst callee args).run m =
      (Command.update fun m : Method V => m.addCall kind src dst callee args).run m := by
  simp only [InPlace.addCall, InPlace.obtainNode, EStateM.run_bind, Command.run_atomic,
    Command.run_ask, Command.run_update, Method.addCall]
  cases hcheck : m.checkCall kind.callSite src dst with
  | error e => rfl
  | ok u =>
    obtain ⟨m₁, i, hsrc⟩ := exists_obtainNode_callSite hcheck
    obtain ⟨m₂, j, hdst⟩ := exists_obtainNode_returnSite hcheck hsrc
    simp only [hsrc, EStateM.run_get, ok_bind]
    cases (m₁.cfg.returnSite? i).isSome with
    | true => rfl
    | false =>
      simp only [Bool.false_eq_true, if_false, EStateM.run_bind, Command.run_atomic, hdst]
      rfl

/-- So is a structure. -/
theorem run_addStructure (m : Method V) (site : Site) (s : Structure V) :
    (InPlace.addStructure site s).run m =
      (Command.atomic fun m : Method V => m.addStructure site s).run m := by
  simp only [InPlace.addStructure, EStateM.run_bind, Command.run_ask, Command.run_atomic,
    Command.run_onPart, EStateM.run_get, Method.addStructure]
  cases m.node site with
  | error e => rfl
  | ok n =>
    simp only [ok_bind]
    cases m.store.addStructure n.state s with
    | error e => rfl
    | ok r =>
      obtain ⟨store, changed, f⟩ := r
      cases changed with
      | false => rfl
      | true => rfl

/-! ## Runs in place -/

/-- What a call answers. -/
def Call.Answer : Call V → Type
  | .obtain _ _ => Site
  | .add _ _ => Bool × Fact
  | .transition _ _ _ _ => Bool
  | .update => Option SummaryDelta
  | _ => Unit

/-- A call as a command. -/
def Call.command : (call : Call V) → Command (Method V) call.Answer
  | .obtain kind label => InPlace.obtainNode kind label
  | .intra src dst action => InPlace.addIntra src dst action
  | .call kind src dst callee args => InPlace.addCall kind src dst callee args
  | .add site s => InPlace.addStructure site s
  | .transition src f dst f' => InPlace.addTransition src f dst f'
  | .update => InPlace.updateSummary
  | .record f ms => Command.update fun m => .ok (m.addMessages f ms)
  | .printAll => Command.update fun m => .ok m.printAll
  | .printInterproc => Command.update fun m => .ok m.printInterproc
  | .printNode label => InPlace.printNode label

/-- What a list of calls leaves of a method, one command after the other. -/
def execAll (m : Method V) (calls : List (Call V)) : Method V :=
  calls.foldl (fun m call => call.command.leaves m) m

/-- A command of a method leaves what the call with results gives. -/
theorem leaves_command (m : Method V) (call : Call V) :
    call.command.leaves m = m.perform call := by
  cases call with
  | obtain kind label => exact Command.leaves_atomic _ m
  | intra src dst action =>
    exact (Command.leaves_eq (run_addIntra m src dst action)).trans (Command.leaves_update _ m)
  | call kind src dst callee args =>
    exact (Command.leaves_eq (run_addCall m kind src dst callee args)).trans
      (Command.leaves_update _ m)
  | add site s =>
    exact (Command.leaves_eq (run_addStructure m site s)).trans (Command.leaves_atomic _ m)
  | transition src f dst f' => exact Command.leaves_atomic _ m
  | update => rfl
  | record f ms => rfl
  | printAll => rfl
  | printInterproc => rfl
  | printNode label => exact Command.leaves_update _ m

/-- A run of commands leaves what the operations return. -/
theorem execAll_eq_run (m : Method V) (calls : List (Call V)) : m.execAll calls = m.run calls := by
  induction calls generalizing m with
  | nil => rfl
  | cons call calls ih =>
    show (call.command.leaves m).execAll calls = (m.perform call).run calls
    rw [leaves_command, ih]

end Method

end ShapeAnalysis
