import ShapeAnalysis.Proofs.Order
import ShapeAnalysis.Proofs.Program
import ShapeAnalysis.Proofs.Topology

/-!
# Call resolution

The topology of a program is that of its methods together with the call tables.
It is *consistent* when the methods are wired, the table of each kind has entries
for just the call sites of that kind, and every callee is a method of that kind.

Three operations build the topology, and each keeps it consistent.  All others
leave it alone, and once the definitions are complete the three are refused.  So
consistency holds after any run, and completing the definitions freezes the
topology (`topology_consistent`).
-/

namespace ShapeAnalysis

/-! ## Call tables -/

/-- The calls of a program by kind. -/
structure CallTables where
  /-- The static calls. -/
  statics : SortedMap CallPoint CallSite
  /-- The constructor calls. -/
  constructors : SortedMap CallPoint CallSite
  /-- The candidates of the virtual calls. -/
  virtuals : SortedMap CallPoint (List Candidate)

/-- The callees that the table of a kind has for a call point. -/
def CallTables.callees? (t : CallTables) (kind : MethodKind) (x : CallPoint) :
    Option (List MethodId) :=
  match kind with
  | .static => (t.statics.get? x).map fun c => [c.callee]
  | .constructor => (t.constructors.get? x).map fun c => [c.callee]
  | .virtual => (t.virtuals.get? x).map fun cs => cs.map (·.call.callee)

namespace CallGraph

/-- The call tables of a call graph. -/
def tables (g : CallGraph) : CallTables := ⟨g.statics, g.constructors, g.virtuals⟩

variable {g g' : CallGraph} {x : CallPoint} {callee : MethodId}

/-- A call point is free if no static call and no constructor call is at it. -/
theorem isTaken_eq_false_iff :
    g.isTaken x = false ↔ g.statics.get? x = none ∧ g.constructors.get? x = none := by
  simp [isTaken, SortedMap.contains]

/-- A call that is resolved once needs a point without any call. -/
theorem checkUnique_eq_ok (h : g.checkUnique x.caller (some x.site) callee = .ok ()) :
    g.isTaken x = false ∧ g.virtuals.get? x = none := by
  unfold checkUnique at h
  obtain ⟨_, -, h⟩ := bind_eq_ok.1 h
  obtain ⟨_, -, h⟩ := bind_eq_ok.1 h
  dsimp only at h
  split at h
  · cases h
  · rename_i htaken
    simpa [SortedMap.contains] using htaken

/-- A candidate needs a point without other calls, and must not be there already. -/
theorem checkVirtual_eq_ok (h : g.checkVirtual x.caller (some x.site) callee = .ok ()) :
    g.isTaken x = false ∧ callee ∉ (g.candidates x).map (·.call.callee) := by
  unfold checkVirtual at h
  obtain ⟨_, -, h⟩ := bind_eq_ok.1 h
  obtain ⟨_, -, h⟩ := bind_eq_ok.1 h
  dsimp only at h
  split at h
  · cases h
  · rename_i htaken
    simpa using htaken

/-- A call that is registered puts its callee last at its call point, where it was
not before. -/
theorem callees?_registerCall {kind : MethodKind}
    {callAction retAction guardAction : ActionInstance}
    (h : Program.registerCall g kind x callee callAction retAction guardAction = .ok g') :
    (∀ (kind' : MethodKind) (y : CallPoint), g'.tables.callees? kind' y =
      if kind' = kind ∧ y = x then some ((g.tables.callees? kind x).getD [] ++ [callee])
      else g.tables.callees? kind' y) ∧
    callee ∉ (g.tables.callees? kind x).getD [] := by
  cases kind with
  | static =>
    obtain ⟨u, hcheck, h⟩ := bind_eq_ok.1 h
    cases h
    -- The check has found no other callee at the call point.
    obtain ⟨hnone, -⟩ := isTaken_eq_false_iff.1 (checkUnique_eq_ok hcheck).1
    refine ⟨fun kind' y => ?_, by simp [tables, CallTables.callees?, hnone]⟩
    cases kind' with
    | static => by_cases hy : y = x <;> simp [tables, CallTables.callees?, hnone, hy]
    | constructor => simp [tables, CallTables.callees?]
    | virtual => simp [tables, CallTables.callees?]
  | constructor =>
    obtain ⟨u, hcheck, h⟩ := bind_eq_ok.1 h
    cases h
    obtain ⟨-, hnone⟩ := isTaken_eq_false_iff.1 (checkUnique_eq_ok hcheck).1
    refine ⟨fun kind' y => ?_, by simp [tables, CallTables.callees?, hnone]⟩
    cases kind' with
    | static => simp [tables, CallTables.callees?]
    | constructor => by_cases hy : y = x <;> simp [tables, CallTables.callees?, hnone, hy]
    | virtual => simp [tables, CallTables.callees?]
  | virtual =>
    obtain ⟨u, hcheck, h⟩ := bind_eq_ok.1 h
    cases h
    have hold : (g.tables.callees? .virtual x).getD [] =
        (g.candidates x).map (·.call.callee) := by
      unfold candidates
      cases hget : g.virtuals.get? x <;> simp [tables, CallTables.callees?, hget]
    rw [hold]
    refine ⟨fun kind' y => ?_, (checkVirtual_eq_ok hcheck).2⟩
    cases kind' with
    | static => simp [tables, CallTables.callees?]
    | constructor => simp [tables, CallTables.callees?]
    | virtual => by_cases hy : y = x <;> simp [tables, CallTables.callees?, candidates, hy]

end CallGraph

namespace Program

variable {V : Vocabulary}

/-! ## Topologies -/

/-- What building a program decides. -/
structure Topology where
  /-- The topologies of the methods, by number. -/
  methods : List Method.Topology
  /-- The call tables. -/
  calls : CallTables

/-- The topology of a program. -/
def topology (p : Program V) : Topology := ⟨p.methods.map Method.topology, p.calls.tables⟩

namespace Topology

/-- The kind of the node at a call point. -/
def kindAt (t : Topology) (x : CallPoint) : Option NodeKind :=
  (t.methods[x.caller]?).bind fun m => m.kindAt x.site

/-- Control flow and call tables agree. -/
structure Consistent (t : Topology) : Prop where
  /-- Every method is wired. -/
  wired : ∀ m ∈ t.methods, m.Wired
  /-- The call sites of a kind are the keys of its table. -/
  called : ∀ (kind : MethodKind) (x : CallPoint),
    t.kindAt x = some kind.callSite ↔ (t.calls.callees? kind x).isSome = true
  /-- A call has callees, each once. -/
  distinct : ∀ kind x callees, t.calls.callees? kind x = some callees →
    callees ≠ [] ∧ callees.Nodup
  /-- The callees of a kind are methods of that kind. -/
  registered : ∀ kind x callees, t.calls.callees? kind x = some callees → ∀ c ∈ callees,
    ∃ m, t.methods[c]? = some m ∧ m.kind = kind

section Consistent

variable {t : Topology} (ht : t.Consistent)
include ht

/-- A method without calls may come in. -/
theorem Consistent.addMethod {m : Method.Topology} (hm : m.Wired)
    (hcalls : ∀ i (kind : MethodKind), m.kindAt i ≠ some kind.callSite) :
    Consistent ⟨t.methods ++ [m], t.calls⟩ := by
  refine ⟨fun m' hm' => ?_, fun kind x => ?_, ht.distinct, fun kind x callees h c hc => ?_⟩
  · rcases List.mem_append.1 hm' with hm' | hm'
    · exact ht.wired m' hm'
    · rw [List.mem_singleton.1 hm']
      exact hm
  · rw [← ht.called]
    unfold kindAt
    dsimp only
    rcases Nat.lt_trichotomy x.caller t.methods.length with hlt | heq | hgt
    · rw [List.getElem?_append_left hlt]
    · simp [heq, hcalls]
    · rw [List.getElem?_eq_none (Nat.le_of_lt hgt), List.getElem?_eq_none]
      rw [List.length_append]
      exact hgt
  · obtain ⟨m', hm', hkind⟩ := ht.registered kind x callees h c hc
    exact ⟨m', List.getElem?_append_left (List.getElem?_eq_some_iff.1 hm').1 ▸ hm', hkind⟩

/-- A method may change with its calls. -/
theorem Consistent.setMethod {i : MethodId} {m m' : Method.Topology} {calls : CallTables}
    (hm : t.methods[i]? = some m) (hwired : m'.Wired) (hkind : m'.kind = m.kind)
    (hcalled : ∀ (kind : MethodKind) k,
      m'.kindAt k = some kind.callSite ↔ (calls.callees? kind ⟨i, k⟩).isSome = true)
    (hother : ∀ kind x, x.caller ≠ i → calls.callees? kind x = t.calls.callees? kind x)
    (hdistinct : ∀ kind x callees, calls.callees? kind x = some callees →
      callees ≠ [] ∧ callees.Nodup)
    (hregistered : ∀ kind x callees, calls.callees? kind x = some callees → ∀ c ∈ callees,
      ∃ y, t.methods[c]? = some y ∧ y.kind = kind) :
    Consistent ⟨t.methods.set i m', calls⟩ := by
  have hlt := (List.getElem?_eq_some_iff.1 hm).1
  refine ⟨fun y hy => ?_, fun kind x => ?_, hdistinct, fun kind x callees h c hc => ?_⟩
  · rcases List.mem_or_eq_of_mem_set hy with hy | rfl
    · exact ht.wired y hy
    · exact hwired
  · obtain ⟨caller, site⟩ := x
    by_cases hcaller : caller = i
    · subst hcaller
      rw [← hcalled]
      simp [kindAt, hlt]
    · rw [hother kind ⟨caller, site⟩ hcaller, ← ht.called]
      simp [kindAt, Ne.symm hcaller]
  · obtain ⟨y, hy, hyk⟩ := hregistered kind x callees h c hc
    by_cases hci : c = i
    · subst hci
      rw [hm] at hy
      cases hy
      exact ⟨m', by simp [hlt], hkind.trans hyk⟩
    · exact ⟨y, by simp [Ne.symm hci, hy], hyk⟩

end Consistent

end Topology

/-! ## Building keeps the topology consistent -/

section Building

variable {p p' : Program V}

theorem getElem?_topology {i : MethodId} {m : Method V} (h : p.methods[i]? = some m) :
    p.topology.methods[i]? = some m.topology := by
  simp [topology, h]

variable (hp : p.topology.Consistent)
include hp

/-- A new method has no call sites, so the topology stays consistent. -/
theorem consistent_addMethod {kind : MethodKind} {signature entry exit : String} {id : MethodId}
    (h : p.addMethod kind signature entry exit = .ok (p', id)) : p'.topology.Consistent := by
  obtain ⟨-, -, m, hm, rfl⟩ := addMethod_eq_ok h
  have htopology : Topology.mk ((p.methods ++ [m]).map Method.topology) p.calls.tables =
      ⟨p.topology.methods ++ [m.topology], p.topology.calls⟩ := by
    rw [List.map_append]
    rfl
  show Topology.Consistent ⟨(p.methods ++ [m]).map Method.topology, p.calls.tables⟩
  rw [htopology]
  refine hp.addMethod (Method.wired_new hm) fun i kind hi => ?_
  rcases (Method.kindAt_new_iff hm).1 hi with ⟨-, hkind⟩ | ⟨-, hkind⟩
  · cases kind <;> cases hkind
  · cases kind <;> cases hkind

/-- A node is a call site of a kind exactly if the call graph knows callees of that kind. -/
theorem Topology.Consistent.kindAt_iff {i : MethodId} {m : Method V} (hm : p.methods[i]? = some m)
    (k : Site) (kind : MethodKind) : m.topology.kindAt k = some kind.callSite ↔
      (p.topology.calls.callees? kind ⟨i, k⟩).isSome = true := by
  rw [← hp.called, kindAt, getElem?_topology hm]
  rfl

/-- Statements make no call site, and unmake none. -/
theorem consistent_addIntra {i : MethodId} {src dst : String} {action : ActionInstance}
    (h : p.addIntra i src dst action = .ok p') : p'.topology.Consistent := by
  obtain ⟨-, m, m', hm, hm', rfl⟩ := addIntra_eq_ok h
  have hget := getElem?_topology hm
  obtain ⟨hwired, hkind, hsame⟩ :=
    Method.wired_addIntra (hp.wired _ (List.mem_of_getElem? hget)) hm'
  show Topology.Consistent ⟨(p.methods.set i m').map Method.topology, p.calls.tables⟩
  rw [List.map_set]
  refine hp.setMethod hget hwired hkind (fun kind k => ?_) (fun _ _ _ => rfl) hp.distinct
    hp.registered
  rw [hsame]
  exact hp.kindAt_iff hm k kind

/-- A call makes its node a call site and registers the callee there. -/
theorem consistent_addCall {kind : MethodKind} {caller callee : MethodId} {args : List String}
    {src dst : String} {callAction retAction guardAction : ActionInstance}
    (h : p.addCall kind caller args src dst callee callAction retAction guardAction = .ok p') :
    p'.topology.Consistent := by
  obtain ⟨-, m, m', signature, site, calls, hm, hm', hlookup, ⟨y, hy, hyk⟩, hcalls, rfl⟩ :=
    addCall_eq_ok h
  have hget := getElem?_topology hm
  obtain ⟨hwired, hkind, i, hi, hsites⟩ :=
    Method.wired_addCall (hp.wired _ (List.mem_of_getElem? hget)) hm'
  obtain rfl : i = site := Option.some.inj (hi.symm.trans hlookup)
  obtain ⟨hcallees, hnew⟩ := CallGraph.callees?_registerCall hcalls
  -- The callees that the call point has before, if any.
  have hold : ((p.calls.tables.callees? kind ⟨caller, i⟩).getD []).Nodup ∧
      ∀ c ∈ (p.calls.tables.callees? kind ⟨caller, i⟩).getD [],
        ∃ x, p.topology.methods[c]? = some x ∧ x.kind = kind := by
    cases hget : p.calls.tables.callees? kind ⟨caller, i⟩ with
    | none => simp
    | some old => exact ⟨(hp.distinct _ _ _ hget).2, hp.registered _ _ _ hget⟩
  show Topology.Consistent ⟨(p.methods.set caller m').map Method.topology, calls.tables⟩
  rw [List.map_set]
  refine hp.setMethod hget hwired hkind (fun kind' k => ?_) (fun kind' x hx => ?_)
    (fun kind' x callees hx => ?_) (fun kind' x callees hx c hc => ?_)
  · rw [hsites, hp.kindAt_iff hm, hcallees]
    by_cases hnow : kind' = kind ∧ k = i
    · simp [hnow]
    · rw [if_neg]
      · rw [or_iff_right fun hki => hnow hki.symm]
        rfl
      · simpa using hnow
  · rw [hcallees, if_neg]
    · rfl
    · rintro ⟨-, rfl⟩
      exact hx rfl
  · rw [hcallees] at hx
    split at hx
    · cases hx
      refine ⟨by simp, List.nodup_append.2 ⟨hold.1, by simp, ?_⟩⟩
      rintro c hc _ hc' rfl
      exact hnew (List.mem_singleton.1 hc' ▸ hc)
    · exact hp.distinct kind' x callees hx
  · rw [hcallees] at hx
    split at hx
    · rename_i hnow
      obtain ⟨rfl, rfl⟩ := hnow
      cases hx
      rcases List.mem_append.1 hc with hc | hc
      · exact hold.2 c hc
      · rw [List.mem_singleton.1 hc]
        exact ⟨y.topology, getElem?_topology hy, hyk⟩
    · exact hp.registered kind' x callees hx c hc

end Building

/-! ## What leaves the topology alone -/

/-- The topology stays, and complete definitions stay complete. -/
structure Unmoved (p p' : Program V) : Prop where
  topology : p'.topology = p.topology
  started : p.started = true → p'.started = true

section Unmoved

variable {p p' p'' : Program V}

theorem Unmoved.refl (p : Program V) : Unmoved p p := ⟨rfl, fun h => h⟩

theorem Unmoved.trans (h₁ : Unmoved p p') (h₂ : Unmoved p' p'') : Unmoved p p'' :=
  ⟨h₂.topology.trans h₁.topology, fun h => h₂.started (h₁.started h)⟩

/-- A method may be changed in all but its topology. -/
theorem unmoved_setMethod {i : MethodId} {m m' : Method V} (hm : p.methods[i]? = some m)
    (h : m'.topology = m.topology) : Unmoved p (p.setMethod i m') := by
  refine ⟨?_, fun hstarted => hstarted⟩
  have hmethods : (p.methods.set i m').map Method.topology = p.methods.map Method.topology := by
    obtain ⟨hlt, rfl⟩ := List.getElem?_eq_some_iff.1 hm
    rw [List.map_set, h, ← List.getElem_map Method.topology, List.set_getElem_self]
    simpa using hlt
  simp only [Program.topology, setMethod, hmethods]

theorem unmoved_emit (p : Program V) (events : List Event) : Unmoved p (p.emit events) :=
  ⟨rfl, fun h => h⟩

/-- So may all of them at once. -/
theorem unmoved_methods {change : Method V → Method V} (h : ∀ m, (change m).topology = m.topology)
    (hmethods : p'.methods = p.methods.map change) (hcalls : p'.calls = p.calls)
    (hstarted : p'.started = p.started) : Unmoved p p' := by
  refine ⟨?_, fun hs => hstarted.trans hs⟩
  simp [Program.topology, hmethods, hcalls, h]

theorem unmoved_setMain {i : MethodId} (h : p.setMain i = .ok p') : Unmoved p p' := by
  rw [setMain_eq_ok h]
  exact ⟨rfl, fun h => h⟩

theorem unmoved_addStructure {i : MethodId} {site : Site} {s : Structure V} {changed : Bool}
    {f : Fact} (h : p.addStructure i site s = .ok (p', changed, f)) : Unmoved p p' := by
  obtain ⟨m, n, m', hm, -, hadd, rfl⟩ := addStructure_eq_ok h
  exact (unmoved_setMethod hm (Method.topology_addStructure hadd)).trans (unmoved_emit _ _)

theorem unmoved_start {ss : List (Structure V)} {facts : List Fact}
    (h : p.start ss = .ok (p', facts)) : Unmoved p p' :=
  start_keeps (P := Unmoved p) (fun hadd hp => hp.trans (unmoved_addStructure hadd)) h (.refl p)

theorem unmoved_addTransition {i : MethodId} {src dst : Site} {f f' : Fact} {new : Bool}
    (h : p.addTransition i src f dst f' = .ok (p', new)) : Unmoved p p' := by
  obtain ⟨m, m', hm, hadd, rfl⟩ := addTransition_eq_ok h
  exact (unmoved_setMethod hm (Method.topology_addTransition hadd)).trans (unmoved_emit _ _)

theorem unmoved_updateSummary {i : MethodId} {d : Option SummaryDelta}
    (h : p.updateSummary i = .ok (p', d)) : Unmoved p p' := by
  obtain ⟨m, hm, -, rfl⟩ := updateSummary_eq_ok h
  have hset : Unmoved p (p.setMethod i m.updateSummary.1) := unmoved_setMethod hm rfl
  exact hset.trans (unmoved_emit _ _)

theorem unmoved_addContext {callee : MethodId} {entries refined : List Fact} {c : CallFact}
    {grew : Bool} (h : p.addContext callee entries c refined = .ok (p', grew)) : Unmoved p p' := by
  obtain ⟨contexts, rfl⟩ := addContext_eq_ok h
  exact ⟨rfl, fun h => h⟩

theorem unmoved_printMethod {i : MethodId} (h : p.printMethod i = .ok p') : Unmoved p p' := by
  obtain ⟨m, hm, rfl⟩ := printMethod_eq_ok h
  exact unmoved_setMethod hm m.topology_printAll

theorem unmoved_printNode {i : MethodId} {label : String} (h : p.printNode i label = .ok p') :
    Unmoved p p' := by
  obtain ⟨m, m', hm, hm', rfl⟩ := printNode_eq_ok h
  exact unmoved_setMethod hm (Method.topology_printNode hm')

end Unmoved

/-! ## Calls and runs -/

/-- A call that may change a program. -/
inductive Call (V : Vocabulary) where
  | method (kind : MethodKind) (signature entry exit : String)
  | main (m : MethodId)
  | listen
  | intra (m : MethodId) (src dst : String) (action : ActionInstance)
  | call (kind : MethodKind) (caller : MethodId) (args : List String) (src dst : String)
      (callee : MethodId) (callAction retAction guardAction : ActionInstance)
  | complete
  | start (ss : List (Structure V))
  | add (m : MethodId) (site : Site) (s : Structure V)
  | transition (m : MethodId) (src : Site) (f : Fact) (dst : Site) (f' : Fact)
  | update (m : MethodId)
  | context (callee : MethodId) (entries : List Fact) (c : CallFact) (refined : List Fact)
  | printAll
  | printInterproc
  | printMethod (m : MethodId)
  | printNode (m : MethodId) (label : String)

/-- The program after a call.  A call that is refused leaves it as it was. -/
def perform (p : Program V) : Call V → Program V
  | .method kind signature entry exit =>
    settle p Prod.fst (p.addMethod kind signature entry exit)
  | .main m => settle p id (p.setMain m)
  | .listen => p.listen
  | .intra m src dst action => settle p id (p.addIntra m src dst action)
  | .call kind caller args src dst callee callAction retAction guardAction =>
    settle p id (p.addCall kind caller args src dst callee callAction retAction guardAction)
  | .complete => p.complete
  | .start ss => settle p Prod.fst (p.start ss)
  | .add m site s => settle p Prod.fst (p.addStructure m site s)
  | .transition m src f dst f' => settle p Prod.fst (p.addTransition m src f dst f')
  | .update m => settle p Prod.fst (p.updateSummary m)
  | .context callee entries c refined => settle p Prod.fst (p.addContext callee entries c refined)
  | .printAll => p.printAllNodes
  | .printInterproc => p.printInterprocNodes
  | .printMethod m => settle p id (p.printMethod m)
  | .printNode m label => settle p id (p.printNode m label)

/-- The program after a list of calls. -/
def run (p : Program V) (calls : List (Call V)) : Program V := calls.foldl perform p

/-- Whether a call builds the program. -/
def Call.isBuilding : Call V → Bool
  | .method _ _ _ _ => true
  | .intra _ _ _ _ => true
  | .call _ _ _ _ _ _ _ _ _ => true
  | _ => false

section Runs

variable {p : Program V}

/-- Only calls that build a program change its topology. -/
theorem unmoved_perform (p : Program V) {call : Call V} (hcall : call.isBuilding = false) :
    Unmoved p (p.perform call) := by
  cases call with
  | method => cases hcall
  | intra => cases hcall
  | call => cases hcall
  | main i => exact settle_keeps (.refl p) fun _ h => unmoved_setMain h
  | listen => exact ⟨rfl, fun h => h⟩
  | complete => exact ⟨rfl, fun _ => rfl⟩
  | start ss => exact settle_keeps (.refl p) fun _ h => unmoved_start h
  | add i site s => exact settle_keeps (.refl p) fun _ h => unmoved_addStructure h
  | transition i src f dst f' =>
    exact settle_keeps (.refl p) fun _ h => unmoved_addTransition h
  | update i => exact settle_keeps (.refl p) fun _ h => unmoved_updateSummary h
  | context callee entries c refined =>
    exact settle_keeps (.refl p) fun _ h => unmoved_addContext h
  | printAll => exact unmoved_methods Method.topology_printAll rfl rfl rfl
  | printInterproc => exact unmoved_methods Method.topology_printInterproc rfl rfl rfl
  | printMethod i => exact settle_keeps (.refl p) fun _ h => unmoved_printMethod h
  | printNode i label => exact settle_keeps (.refl p) fun _ h => unmoved_printNode h

/-- Every call keeps the topology consistent. -/
theorem consistent_perform (hp : p.topology.Consistent) (call : Call V) :
    (p.perform call).topology.Consistent := by
  cases hcall : call.isBuilding with
  | false =>
    rw [(unmoved_perform p hcall).topology]
    exact hp
  | true =>
    cases call with
    | method =>
      exact settle_keeps (P := fun p : Program V => p.topology.Consistent) hp fun _ h =>
        consistent_addMethod hp h
    | intra =>
      exact settle_keeps (P := fun p : Program V => p.topology.Consistent) hp fun _ h =>
        consistent_addIntra hp h
    | call =>
      exact settle_keeps (P := fun p : Program V => p.topology.Consistent) hp fun _ h =>
        consistent_addCall hp h
    | _ => cases hcall

/-- So does every run. -/
theorem consistent_run (hp : p.topology.Consistent) (calls : List (Call V)) :
    (p.run calls).topology.Consistent := by
  induction calls generalizing p with
  | nil => exact hp
  | cons call calls ih => exact ih (consistent_perform hp call)

/-- Once the definitions are complete, what builds is refused. -/
theorem unmoved_perform_of_started (hp : p.started = true) (call : Call V) :
    Unmoved p (p.perform call) := by
  have hno : p.started ≠ false := by
    rw [hp]
    exact Bool.noConfusion
  cases hcall : call.isBuilding with
  | false => exact unmoved_perform p hcall
  | true =>
    cases call with
    | method => exact settle_keeps (.refl p) fun _ h => absurd (addMethod_eq_ok h).1 hno
    | intra => exact settle_keeps (.refl p) fun _ h => absurd (addIntra_eq_ok h).1 hno
    | call => exact settle_keeps (.refl p) fun _ h => absurd (addCall_eq_ok h).1 hno
    | _ => cases hcall

/-- Once started, a program keeps its topology whatever is called. -/
theorem unmoved_run_of_started (hp : p.started = true) (calls : List (Call V)) :
    Unmoved p (p.run calls) := by
  induction calls generalizing p with
  | nil => exact .refl p
  | cons call calls ih =>
    have hstep := unmoved_perform_of_started hp call
    exact hstep.trans (ih (hstep.started hp))

end Runs

/-- A program without methods is consistent. -/
theorem consistent_new (mode : JoinMode) : (new mode : Program V).topology.Consistent := by
  have hnone : ∀ kind x, (new mode : Program V).topology.calls.callees? kind x = none := by
    intro kind x
    cases kind <;> rfl
  refine ⟨fun m hm => ?_, fun kind x => ?_, fun kind x callees h => ?_,
    fun kind x callees h => ?_⟩
  · cases hm
  · rw [hnone]
    simp [Topology.kindAt, topology, new]
  · rw [hnone] at h
    cases h
  · rw [hnone] at h
    cases h

/-- Topology and call resolution agree.  After any run the topology of a program is
consistent, and from the completion of the definitions on no run changes it. -/
theorem topology_consistent (mode : JoinMode) (calls : List (Call V)) :
    ((new mode).run calls).topology.Consistent ∧
      ∀ later : List (Call V), (((new mode).run (calls ++ .complete :: later)).topology =
        ((new mode).run calls).topology) := by
  refine ⟨consistent_run (consistent_new mode) calls, fun later => ?_⟩
  have hsplit : (new mode).run (calls ++ .complete :: later) =
      (((new mode).run calls).perform .complete).run later := by
    rw [run, List.foldl_append]
    rfl
  rw [hsplit, (unmoved_run_of_started rfl later).topology]
  rfl

/-- A virtual call with two candidates.  A static call at its site and a statement
from there are refused. -/
def dispatchCalls : List (Call Vocabulary.empty) :=
  [.method .static "main" "in" "out", .method .virtual "f" "in" "out",
    .method .virtual "g" "in" "out", .intra 0 "in" "at" default,
    .call .virtual 0 [] "at" "back" 1 default default default,
    .call .virtual 0 [] "at" "back" 2 default default default,
    .call .static 0 [] "at" "back" 0 default default default, .intra 0 "at" "out" default]

theorem topology_consistent_dispatchCalls :
    ((new .pointwise).run dispatchCalls).topology.kindAt ⟨0, 2⟩ = some .virtualCall ∧
      ((new .pointwise).run dispatchCalls).topology.calls.callees? .virtual ⟨0, 2⟩ =
        some [1, 2] ∧
      ((new .pointwise).run
          (dispatchCalls ++ .complete :: [.intra 0 "in" "out" default])).topology =
        ((new .pointwise).run dispatchCalls).topology := by
  have hcallees : ((new .pointwise).run dispatchCalls).topology.calls.callees? .virtual ⟨0, 2⟩ =
      some [1, 2] := by decide
  obtain ⟨hconsistent, hfrozen⟩ := topology_consistent .pointwise dispatchCalls
  refine ⟨(hconsistent.called .virtual ⟨0, 2⟩).2 ?_, hcallees, hfrozen _⟩
  rw [hcallees]
  rfl

end Program

end ShapeAnalysis
