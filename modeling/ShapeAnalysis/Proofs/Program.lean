import ShapeAnalysis.Flow.Program
import ShapeAnalysis.Proofs.Method

/-!
# What the operations of a program can do

Each operation that may fail is inverted: from an answer follow the checks that were
passed on the way and the program that is left.  Nearly every operation replaces one method
by what an operation of the method makes of it.
-/

namespace ShapeAnalysis

namespace Program

variable {V : Vocabulary} {p p' : Program V}

theorem method_eq_ok {i : MethodId} {m : Method V} :
    p.method i = .ok m ↔ p.methods[i]? = some m := by
  unfold method
  cases p.methods[i]? with
  | none => simp
  | some m' => simp

/-- A program is built only before it starts. -/
theorem checkBuilding_eq_ok {what : String} {u : Unit} (h : p.checkBuilding what = .ok u) :
    p.started = false := by
  unfold checkBuilding at h
  split at h
  · cases h
  · rename_i hstarted
    simpa using hstarted

/-! ## Building -/

/-- A method is added at the end, while the program is built.  The call graph learns of it too.
-/
theorem addMethod_eq_ok {kind : MethodKind} {signature entry exit : String} {id : MethodId}
    (h : p.addMethod kind signature entry exit = .ok (p', id)) :
    p.started = false ∧ id = p.methods.length ∧
      ∃ m : Method V, Method.new id signature kind entry exit p.mode = .ok m ∧
        p' = { p with
          methods := p.methods ++ [m]
          calls := { p.calls with contexts := p.calls.contexts.addTarget id } } := by
  unfold addMethod at h
  obtain ⟨_, hbuilding, h⟩ := bind_eq_ok.1 h
  refine ⟨checkBuilding_eq_ok hbuilding, ?_⟩
  dsimp only at h
  split at h
  · cases h
  · obtain ⟨m, hm, h⟩ := bind_eq_ok.1 h
    obtain ⟨calls, hcalls, h⟩ := bind_eq_ok.1 h
    obtain ⟨_, -, hcalls⟩ := bind_eq_ok.1 hcalls
    cases hcalls
    cases h
    exact ⟨rfl, m, hm, rfl⟩

theorem setMain_eq_ok {i : MethodId} (h : p.setMain i = .ok p') :
    p' = { p with main := some i } := by
  unfold setMain at h
  dsimp only at h
  split at h
  · obtain ⟨_, -, h⟩ := bind_eq_ok.1 h
    cases h
  · obtain ⟨m, -, h⟩ := bind_eq_ok.1 h
    obtain ⟨-, h⟩ := guard_eq_ok.1 h
    exact (Except.ok.inj h).symm

/-- A statement changes its method and the count of statements, nothing else. -/
theorem addIntra_eq_ok {i : MethodId} {src dst : String} {action : ActionInstance}
    (h : p.addIntra i src dst action = .ok p') :
    p.started = false ∧ ∃ m m', p.methods[i]? = some m ∧ m.addIntra src dst action = .ok m' ∧
      p' = { p.setMethod i m' with
        counters := { p.counters with intra := p.counters.intra + 1 } } := by
  unfold addIntra at h
  obtain ⟨_, hbuilding, h⟩ := bind_eq_ok.1 h
  obtain ⟨m, hm, h⟩ := bind_eq_ok.1 h
  obtain ⟨m', hm', h⟩ := bind_eq_ok.1 h
  exact ⟨checkBuilding_eq_ok hbuilding, m, m', method_eq_ok.1 hm, hm', (Except.ok.inj h).symm⟩

/-- A callee has the kind that the call asks for. -/
theorem checkCallee_eq_ok {caller callee : MethodId} {kind : MethodKind} {src signature : String}
    (h : p.checkCallee caller callee kind src = .ok signature) :
    ∃ y, p.methods[callee]? = some y ∧ y.kind = kind := by
  unfold checkCallee at h
  obtain ⟨x, -, h⟩ := bind_eq_ok.1 h
  obtain ⟨y, hy, h⟩ := bind_eq_ok.1 h
  obtain ⟨hkind, -⟩ := guard_eq_ok.1 h
  exact ⟨y, method_eq_ok.1 hy, Decidable.not_not.1 hkind⟩

/-- A call changes its caller, the call graph and the count of such calls.  The call site is the
node of the caller that the source label names. -/
theorem addCall_eq_ok {kind : MethodKind} {caller callee : MethodId} {args : List String}
    {src dst : String} {callAction retAction guardAction : ActionInstance}
    (h : p.addCall kind caller args src dst callee callAction retAction guardAction = .ok p') :
    p.started = false ∧
      ∃ m m' signature site calls, p.methods[caller]? = some m ∧
        m.addCall kind src dst signature args = .ok m' ∧ m'.cfg.lookup src = some site ∧
        (∃ y, p.methods[callee]? = some y ∧ y.kind = kind) ∧
        registerCall p.calls kind ⟨caller, site⟩ callee callAction retAction guardAction =
          .ok calls ∧
        p' = { p.setMethod caller m' with calls, counters := p.counters.addCall kind } := by
  unfold addCall at h
  obtain ⟨_, hbuilding, h⟩ := bind_eq_ok.1 h
  obtain ⟨signature, hcallee, h⟩ := bind_eq_ok.1 h
  obtain ⟨m, hm, h⟩ := bind_eq_ok.1 h
  obtain ⟨_, -, h⟩ := bind_eq_ok.1 h
  obtain ⟨_, h⟩ := branch_eq_ok h
  obtain ⟨m', hm', h⟩ := bind_eq_ok.1 h
  dsimp only at h
  split at h
  · cases h
  · rename_i site hlookup
    obtain ⟨calls, hcalls, h⟩ := bind_eq_ok.1 h
    exact ⟨checkBuilding_eq_ok hbuilding, m, m', signature, site, calls, method_eq_ok.1 hm, hm',
      hlookup, checkCallee_eq_ok hcallee, hcalls, (Except.ok.inj h).symm⟩

/-! ## Facts and news -/

theorem emit_nil (p : Program V) : p.emit [] = p := by
  unfold emit
  simp

/-- A structure goes into one method, and events tell of it if it changed something there. -/
theorem addStructure_eq_ok {i : MethodId} {site : Site} {s : Structure V} {changed : Bool}
    {f : Fact} (h : p.addStructure i site s = .ok (p', changed, f)) :
    ∃ m n m', p.methods[i]? = some m ∧ m.cfg.node? site = some n ∧
      m.addStructure site s = .ok (m', changed, f) ∧
      p' = (p.setMethod i m').emit (if changed then newsAt p.calls i site n.kind f else []) := by
  unfold addStructure at h
  obtain ⟨m, hm, h⟩ := bind_eq_ok.1 h
  obtain ⟨n, hn, h⟩ := bind_eq_ok.1 h
  obtain ⟨⟨m', changed', f'⟩, hadd, h⟩ := bind_eq_ok.1 h
  cases h
  refine ⟨m, n, m', method_eq_ok.1 hm, Method.node_eq_ok.1 hn, hadd, ?_⟩
  cases changed with
  | true => rfl
  | false => exact (emit_nil _).symm

/-- A transition goes into one method, and an event tells of it if it is new. -/
theorem addTransition_eq_ok {i : MethodId} {src dst : Site} {f f' : Fact} {new : Bool}
    (h : p.addTransition i src f dst f' = .ok (p', new)) :
    ∃ m m', p.methods[i]? = some m ∧ m.addTransition src f dst f' = .ok (m', new) ∧
      p' = (p.setMethod i m').emit (if new then [.transition i src f dst f'] else []) := by
  unfold addTransition at h
  obtain ⟨m, hm, h⟩ := bind_eq_ok.1 h
  obtain ⟨⟨m', new'⟩, hadd, h⟩ := bind_eq_ok.1 h
  cases h
  refine ⟨m, m', method_eq_ok.1 hm, hadd, ?_⟩
  cases new with
  | true => rfl
  | false => exact (emit_nil _).symm

/-- To update a summary tells of every pair that the delta has. -/
theorem updateSummary_eq_ok {i : MethodId} {d : Option SummaryDelta}
    (h : p.updateSummary i = .ok (p', d)) :
    ∃ m, p.methods[i]? = some m ∧ m.updateSummary.2 = d ∧
      p' = (p.setMethod i m.updateSummary.1).emit
        (((d.map SummaryDelta.pairs).getD []).map fun q => .ret i q.fst q.snd) := by
  unfold updateSummary at h
  obtain ⟨m, hm, h⟩ := bind_eq_ok.1 h
  refine ⟨m, method_eq_ok.1 hm, ?_⟩
  dsimp only at h
  split at h
  · rename_i hd
    cases h
    exact ⟨hd, (emit_nil _).symm⟩
  · rename_i d' hd
    cases h
    exact ⟨hd, rfl⟩

/-- A context changes nothing but the contexts of the call graph. -/
theorem addContext_eq_ok {callee : MethodId} {entries refined : List Fact} {c : CallFact}
    {grew : Bool} (h : p.addContext callee entries c refined = .ok (p', grew)) :
    ∃ contexts, p' = { p with calls := { p.calls with contexts } } := by
  unfold addContext at h
  obtain ⟨_, -, h⟩ := bind_eq_ok.1 h
  obtain ⟨_, -, h⟩ := bind_eq_ok.1 h
  obtain ⟨⟨calls, grew'⟩, hcalls, h⟩ := bind_eq_ok.1 h
  cases h
  unfold CallGraph.addContext at hcalls
  split at hcalls
  · cases hcalls
  · split at hcalls
    · cases hcalls
    · cases hcalls
      exact ⟨_, rfl⟩

section Seeds

variable {P : Program V → Prop}
  (hadd : ∀ {p p' : Program V} {i site s changed f},
    p.addStructure i site s = .ok (p', changed, f) → P p → P p')
include hadd

/-- What every addition of a structure keeps is kept by several. -/
theorem seed_keeps {i : MethodId} {site : Site} {ss : List (Structure V)}
    {facts facts' : List Fact} (h : seed i site ss p facts = .ok (p', facts')) (hp : P p) :
    P p' := by
  induction ss generalizing p facts with
  | nil =>
    cases h
    exact hp
  | cons s ss ih =>
    unfold seed at h
    split at h
    · cases h
    · rename_i hs
      exact ih h (hadd hs hp)

/-- So it is kept by the start of a program. -/
theorem start_keeps {ss : List (Structure V)} {facts : List Fact}
    (h : p.start ss = .ok (p', facts)) (hp : P p) : P p' := by
  unfold start at h
  obtain ⟨-, h⟩ := guard_eq_ok.1 h
  dsimp only at h
  split at h
  · cases h
  · obtain ⟨m, -, h⟩ := bind_eq_ok.1 h
    exact seed_keeps hadd h hp

end Seeds

/-! ## Reports -/

theorem printMethod_eq_ok {i : MethodId} (h : p.printMethod i = .ok p') :
    ∃ m, p.methods[i]? = some m ∧ p' = p.setMethod i m.printAll := by
  obtain ⟨m, hm, h⟩ := bind_eq_ok.1 h
  exact ⟨m, method_eq_ok.1 hm, (Except.ok.inj h).symm⟩

theorem printNode_eq_ok {i : MethodId} {label : String} (h : p.printNode i label = .ok p') :
    ∃ m m', p.methods[i]? = some m ∧ m.printNode label = .ok m' ∧ p' = p.setMethod i m' := by
  obtain ⟨m, hm, h⟩ := bind_eq_ok.1 h
  obtain ⟨m', hm', h⟩ := bind_eq_ok.1 h
  exact ⟨m, m', method_eq_ok.1 hm, hm', (Except.ok.inj h).symm⟩

end Program

end ShapeAnalysis
