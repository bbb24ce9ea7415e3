import ShapeAnalysis.Proofs.Agreement
import ShapeAnalysis.Proofs.CallResolution

/-!
# Refused operations of a program

A program is changed in place, so an operation that is refused after its first change
would leave that change behind.  Most operations make their last check before the first
change, or change one method only, of which the same holds.

Two operations need more, and for them it matters that the program was built by these
operations.  A call changes the control flow of the caller before the call graph may
still refuse it.  The checks that it made before were on a call site that was perhaps not
there yet.  A new call site has no entry in the call tables, since these have entries for
call sites only (`Consistent`), so nothing is refused any more.  The start of an analysis
adds several structures one after the other.  The entry of a method has a state
(`Booked`), so none of them is refused.

So every operation does all of its work or none (`run_command`), and a refused one
changes nothing (`refused_changes_nothing`).
-/

namespace ShapeAnalysis

namespace Command

variable {σ τ α : Type}

theorem answer_atomic (op : σ → Except Error (σ × α)) (s : σ) :
    (atomic op).answer s = (op s).map Prod.snd := by
  rw [answer, run_atomic]
  cases op s with
  | ok r => rfl
  | error e => rfl

theorem answer_eq {c c' : Command σ α} {s : σ} (h : c.run s = c'.run s) :
    c.answer s = c'.answer s := by
  rw [answer, answer, h]

end Command

/-! ## Methods -/

namespace Method

variable {V : Vocabulary}

theorem addIntra_inPlace (src dst : String) (action : ActionInstance) :
    InPlace.addIntra (V := V) src dst action =
      .update fun m => m.addIntra src dst action :=
  funext fun m => run_addIntra m src dst action

theorem addCall_inPlace (kind : MethodKind) (src dst callee : String) (args : List String) :
    InPlace.addCall (V := V) kind src dst callee args =
      .update fun m => m.addCall kind src dst callee args :=
  funext fun m => run_addCall m kind src dst callee args

theorem addStructure_inPlace (site : Site) (s : Structure V) :
    InPlace.addStructure site s = .atomic fun m => m.addStructure site s :=
  funext fun m => run_addStructure m site s

variable {m m' : Method V} {kind : MethodKind} {src dst callee : String} {args : List String}

/-- A call that passes its checks is added. -/
theorem exists_addCall (h : m.checkCall kind.callSite src dst = .ok ()) (callee : String)
    (args : List String) : ∃ m', m.addCall kind src dst callee args = .ok m' := by
  obtain ⟨m₁, i, hsrc⟩ := exists_obtainNode_callSite h
  obtain ⟨m₂, j, hdst⟩ := exists_obtainNode_returnSite h hsrc
  unfold addCall
  simp only [h, hsrc, hdst, ok_bind]
  split
  · exact ⟨m₁, rfl⟩
  · exact ⟨_, rfl⟩

/-- The call site of a call was there, or is new. -/
theorem lookup_addCall (h : m.addCall kind src dst callee args = .ok m') :
    ∃ i, m'.cfg.lookup src = some i ∧
      (m.cfg.lookup src = some i ∨ m.cfg.lookup src = none ∧ m.topology.kindAt i = none) := by
  obtain ⟨hcheck, m₁, i, hsrc, hrest⟩ := addCall_cases h
  obtain ⟨hne, -, -⟩ := checkCall_eq_ok hcheck
  have hlookup : m₁.cfg.lookup src = some i := by
    rw [lookup_obtainNode hsrc, if_pos rfl]
  refine ⟨i, ?_, ?_⟩
  · rcases hrest with ⟨-, rfl⟩ | ⟨-, m₂, j, hdst, rfl⟩
    · exact hlookup
    · exact (lookup_obtainNode hdst src).trans ((if_neg hne).trans hlookup)
  · rcases places_obtainNode hsrc with ⟨-, ⟨hnone, hnew⟩ | ⟨-, hfound⟩⟩ | ⟨rfl, hfound, -⟩
    · exact .inr ⟨hnew, hnone⟩
    · exact .inl hfound
    · exact .inl hfound

end Method

/-! ## Call graphs -/

namespace CallGraph

variable {g : CallGraph} {kind : MethodKind} {caller callee : MethodId} {i : Site}

/-- Whether a call of a kind can be registered, at a site that may not have been created
yet. -/
def check (g : CallGraph) (kind : MethodKind) (caller : MethodId) (site : Option Site)
    (callee : MethodId) : Except Error Unit :=
  if kind = .virtual then g.checkVirtual caller site callee else g.checkUnique caller site callee

theorem exists_registerCall (h : g.check kind caller (some i) callee = .ok ())
    (callAction retAction guardAction : ActionInstance) :
    ∃ g', Program.registerCall g kind ⟨caller, i⟩ callee callAction retAction guardAction =
      .ok g' := by
  cases kind with
  | static =>
    have hcheck : g.checkUnique caller (some i) callee = .ok () := h
    simp only [Program.registerCall, addStatic, hcheck, ok_bind]
    exact ⟨_, rfl⟩
  | virtual =>
    have hcheck : g.checkVirtual caller (some i) callee = .ok () := h
    simp only [Program.registerCall, addVirtual, hcheck, ok_bind]
    exact ⟨_, rfl⟩
  | constructor =>
    have hcheck : g.checkUnique caller (some i) callee = .ok () := h
    simp only [Program.registerCall, addConstructor, hcheck, ok_bind]
    exact ⟨_, rfl⟩

/-- What passes the check before its site is there passes it at a site without calls. -/
theorem check_some_of_none (h : g.check kind caller none callee = .ok ())
    (hfree : ∀ kind, g.tables.callees? kind ⟨caller, i⟩ = none) :
    g.check kind caller (some i) callee = .ok () := by
  have hstatic : g.statics.get? ⟨caller, i⟩ = none := by
    simpa [tables, CallTables.callees?] using hfree .static
  have hconstructor : g.constructors.get? ⟨caller, i⟩ = none := by
    simpa [tables, CallTables.callees?] using hfree .constructor
  have hvirtual : g.virtuals.get? ⟨caller, i⟩ = none := by
    simpa [tables, CallTables.callees?] using hfree .virtual
  unfold check checkVirtual checkUnique at h ⊢
  simp only [isTaken, candidates, SortedMap.contains, hstatic, hconstructor, hvirtual]
  exact h

end CallGraph

namespace Program

variable {V : Vocabulary} {p p' : Program V}

/-! ## Books of the methods -/

/-- The books of every method agree. -/
def Books (p : Program V) : Prop :=
  ∀ (i : MethodId) (x : Method V), p.methods[i]? = some x → x.Booked i

section Books

variable (hp : p.Books)
include hp

theorem Books.setMethod {i : MethodId} {x : Method V} (hx : x.Booked i) :
    (p.setMethod i x).Books := by
  intro j y hy
  simp only [Program.setMethod, List.getElem?_set] at hy
  split at hy
  · rename_i hij
    subst hij
    split at hy
    · cases hy
      exact hx
    · cases hy
  · exact hp j y hy

theorem Books.perform_method {i : MethodId} {x : Method V} (hx : p.methods[i]? = some x)
    (call : Method.Call V) : (p.setMethod i (x.perform call)).Books :=
  hp.setMethod ((hp i x hx).perform call)

theorem Books.map (call : Method.Call V)
    (hmethods : p'.methods = p.methods.map fun x => x.perform call) : p'.Books := by
  intro i y hy
  rw [hmethods, List.getElem?_map] at hy
  obtain ⟨x, hx, rfl⟩ := Option.map_eq_some_iff.1 hy
  exact (hp i x hx).perform call

theorem Books.addMethod {kind : MethodKind} {signature entry exit : String} {id : MethodId}
    (h : p.addMethod kind signature entry exit = .ok (p', id)) : p'.Books := by
  obtain ⟨-, rfl, x, hx, rfl⟩ := addMethod_eq_ok h
  intro i y hy
  rw [List.getElem?_append] at hy
  split at hy
  · exact hp i y hy
  · rename_i hge
    have hle : i ≤ p.methods.length :=
      Nat.sub_eq_zero_iff_le.1 (Nat.lt_one_iff.1 (List.getElem?_eq_some_iff.1 hy).1)
    obtain rfl : i = p.methods.length := Nat.le_antisymm hle (Nat.not_lt.1 hge)
    rw [Nat.sub_self] at hy
    cases hy
    exact Method.booked_new hx

theorem Books.addStructure {i : MethodId} {site : Site} {s : Structure V} {changed : Bool}
    {f : Fact} (h : p.addStructure i site s = .ok (p', changed, f)) : p'.Books := by
  obtain ⟨x, n, x', hx, -, hadd, rfl⟩ := addStructure_eq_ok h
  exact hp.setMethod ((hp i x hx).addStructure hadd)

/-- The fact of an addition tells the method and the node. -/
theorem Books.fact_eq {i : MethodId} {site : Site} {s : Structure V} {changed : Bool}
    {f : Fact} (h : p.addStructure i site s = .ok (p', changed, f)) :
    f.store = i ∧ f.state = site := by
  obtain ⟨x, n, x', hx, -, hadd, -⟩ := addStructure_eq_ok h
  exact (hp i x hx).fact_eq hadd

theorem Books.perform (call : Call V) : (p.perform call).Books := by
  cases call with
  | method kind signature entry exit => exact settle_keeps hp fun _ h => hp.addMethod h
  | main i =>
    refine settle_keeps hp fun _ h => ?_
    rw [setMain_eq_ok h]
    exact hp
  | listen => exact hp
  | intra i src dst action =>
    refine settle_keeps hp fun _ h => ?_
    obtain ⟨-, x, x', hx, hx', rfl⟩ := addIntra_eq_ok h
    exact hp.setMethod ((Method.Booked.quiet i).addIntra (hp i x hx) hx')
  | call kind caller args src dst callee callAction retAction guardAction =>
    refine settle_keeps hp fun _ h => ?_
    obtain ⟨-, x, x', signature, site, calls, hx, hx', -, -, -, rfl⟩ := addCall_eq_ok h
    exact hp.setMethod ((Method.Booked.quiet caller).addCall (hp caller x hx) hx')
  | complete => exact hp
  | start ss =>
    refine settle_keeps hp fun _ h => ?_
    exact start_keeps (P := Books) (fun hadd hp => hp.addStructure hadd) h hp
  | add i site s => exact settle_keeps hp fun _ h => hp.addStructure h
  | transition i src f dst f' =>
    refine settle_keeps hp fun _ h => ?_
    obtain ⟨x, x', hx, hadd, hp'⟩ := addTransition_eq_ok h
    rw [hp']
    exact hp.setMethod ((hp i x hx).addTransition hadd)
  | update i =>
    refine settle_keeps hp fun r h => ?_
    obtain ⟨x, hx, -, hp'⟩ := updateSummary_eq_ok h
    rw [hp']
    exact hp.setMethod (hp i x hx).updateSummary
  | context callee entries c refined =>
    refine settle_keeps hp fun _ h => ?_
    obtain ⟨contexts, hp'⟩ := addContext_eq_ok h
    rw [hp']
    exact hp
  | printAll => exact hp.map .printAll rfl
  | printInterproc => exact hp.map .printInterproc rfl
  | printMethod i =>
    refine settle_keeps hp fun _ h => ?_
    obtain ⟨x, hx, rfl⟩ := printMethod_eq_ok h
    exact hp.perform_method hx .printAll
  | printNode i label =>
    refine settle_keeps hp fun _ h => ?_
    obtain ⟨x, x', hx, hx', rfl⟩ := printNode_eq_ok h
    have hset := hp.perform_method hx (.printNode label)
    rwa [show x.perform (.printNode label) = x' by rw [Method.perform, hx']; rfl] at hset

end Books

theorem books_new (mode : JoinMode) : (new mode : Program V).Books := by
  intro i x hx
  cases hx

/-! ## Calls as commands and as operations -/

/-- What a call answers. -/
def Call.Answer : Call V → Type
  | .method _ _ _ _ => MethodId
  | .start _ => List Fact
  | .add _ _ _ => Bool × Fact
  | .transition _ _ _ _ _ => Bool
  | .update _ => Option SummaryDelta
  | .context _ _ _ _ => Bool
  | _ => Unit

/-- A call as a command. -/
def Call.command : (call : Call V) → Command (Program V) call.Answer
  | .method kind signature entry exit => InPlace.addMethod kind signature entry exit
  | .main m => InPlace.setMain m
  | .listen => .update fun p => .ok p.listen
  | .intra m src dst action => InPlace.addIntra m src dst action
  | .call kind caller args src dst callee callAction retAction guardAction =>
    InPlace.addCall kind caller args src dst callee callAction retAction guardAction
  | .complete => .update fun p => .ok p.complete
  | .start ss => InPlace.start ss
  | .add m site s => InPlace.addStructure m site s
  | .transition m src f dst f' => InPlace.addTransition m src f dst f'
  | .update m => InPlace.updateSummary m
  | .context callee entries c refined => InPlace.addContext callee entries c refined
  | .printAll => .update fun p => .ok p.printAllNodes
  | .printInterproc => .update fun p => .ok p.printInterprocNodes
  | .printMethod m => InPlace.printMethod m
  | .printNode m label => InPlace.printNode m label

/-- An operation without an answer. -/
def unanswered (op : Program V → Except Error (Program V)) (p : Program V) :
    Except Error (Program V × Unit) :=
  (op p).map fun p' => (p', ())

/-- A call as an operation. -/
def Call.operation : (call : Call V) → Program V → Except Error (Program V × call.Answer)
  | .method kind signature entry exit => fun p => p.addMethod kind signature entry exit
  | .main m => unanswered fun p => p.setMain m
  | .listen => unanswered fun p => .ok p.listen
  | .intra m src dst action => unanswered fun p => p.addIntra m src dst action
  | .call kind caller args src dst callee callAction retAction guardAction =>
    unanswered fun p => p.addCall kind caller args src dst callee callAction retAction guardAction
  | .complete => unanswered fun p => .ok p.complete
  | .start ss => fun p => p.start ss
  | .add m site s => fun p => p.addStructure m site s
  | .transition m src f dst f' => fun p => p.addTransition m src f dst f'
  | .update m => fun p => p.updateSummary m
  | .context callee entries c refined => fun p => p.addContext callee entries c refined
  | .printAll => unanswered fun p => .ok p.printAllNodes
  | .printInterproc => unanswered fun p => .ok p.printInterprocNodes
  | .printMethod m => unanswered fun p => p.printMethod m
  | .printNode m label => unanswered fun p => p.printNode m label

/-- What a list of calls leaves of a program, one command after the other. -/
def execAll (p : Program V) (calls : List (Call V)) : Program V :=
  calls.foldl (fun p call => call.command.leaves p) p

theorem settle_unanswered (op : Program V → Except Error (Program V)) (p : Program V) :
    settle p Prod.fst (unanswered op p) = settle p id (op p) := by
  unfold unanswered
  cases op p with
  | ok p' => rfl
  | error e => rfl

theorem settle_operation (p : Program V) (call : Call V) :
    settle p Prod.fst (call.operation p) = p.perform call := by
  cases call with
  | main m => exact settle_unanswered (fun p => p.setMain m) p
  | intra m src dst action => exact settle_unanswered (fun p => p.addIntra m src dst action) p
  | call kind caller args src dst callee callAction retAction guardAction =>
    exact settle_unanswered (fun p =>
      p.addCall kind caller args src dst callee callAction retAction guardAction) p
  | printMethod m => exact settle_unanswered (fun p => p.printMethod m) p
  | printNode m label => exact settle_unanswered (fun p => p.printNode m label) p
  | _ => rfl

/-! ## Commands on a part of a program -/

section Parts

variable {α : Type}

theorem setMethod_self {i : MethodId} {x : Method V} (h : p.methods[i]? = some x) :
    p.setMethod i x = p := by
  obtain ⟨hlt, rfl⟩ := List.getElem?_eq_some_iff.1 h
  rw [setMethod, List.set_getElem_self]

theorem method_setMethod {i : MethodId} {x y : Method V} (h : p.methods[i]? = some x) :
    (p.setMethod i y).method i = .ok y := by
  rw [method_eq_ok]
  simp [setMethod, (List.getElem?_eq_some_iff.1 h).1]

/-- A command on a method that is refused at once changes nothing. -/
theorem run_onMethod_atomic (i : MethodId) (op : Method V → Except Error (Method V × α)) :
    (InPlace.onMethod i (.atomic op)).run p =
      (Command.atomic fun p : Program V => do
        let x ← p.method i
        let (x, a) ← op x
        return (p.setMethod i x, a)).run p := by
  simp only [InPlace.onMethod, EStateM.run_bind, Command.run_ask, Command.run_atomic]
  cases hx : p.method i with
  | error e => rfl
  | ok x =>
    simp only [Command.run_onPart, Command.run_atomic, ok_bind]
    cases op x with
    | ok r => rfl
    | error e =>
      show EStateM.Result.error e (p.setMethod i x) = _
      rw [setMethod_self (method_eq_ok.1 hx)]
      rfl

theorem run_onMethod_update (i : MethodId) (op : Method V → Except Error (Method V)) :
    (InPlace.onMethod i (.update op)).run p =
      (Command.update fun p : Program V => do
        let x ← p.method i
        let x ← op x
        return p.setMethod i x).run p := by
  rw [Command.update, run_onMethod_atomic, Command.run_atomic, Command.run_update]
  cases p.method i with
  | error e => rfl
  | ok x =>
    simp only [ok_bind]
    cases op x with
    | error e => rfl
    | ok x' => rfl

end Parts

/-! ## Operations that are never refused half-way -/

section Atomic

theorem run_addMethod (kind : MethodKind) (signature entry exit : String) :
    (InPlace.addMethod kind signature entry exit).run p =
      (Command.atomic fun p : Program V => p.addMethod kind signature entry exit).run p := by
  simp only [InPlace.addMethod, InPlace.onCalls, EStateM.run_bind, EStateM.run_get,
    Command.run_ask, Command.run_atomic, Program.addMethod]
  cases p.checkBuilding "method registration" with
  | error e => rfl
  | ok u =>
    simp only [ok_bind]
    cases p.methods.find? fun m => m.signature == signature with
    | some other => rfl
    | none =>
      simp only [EStateM.run_bind, Command.run_ask]
      cases Method.new p.methods.length signature kind entry exit p.mode with
      | error e => rfl
      | ok x =>
        simp only [EStateM.run_get, Command.run_onPart, Command.run_update, ok_bind]
        cases p.calls.addMethod p.methods.length with
        | error e => rfl
        | ok calls => rfl

theorem run_addIntra (i : MethodId) (src dst : String) (action : ActionInstance) :
    (InPlace.addIntra i src dst action).run p =
      (Command.update fun p : Program V => p.addIntra i src dst action).run p := by
  simp only [InPlace.addIntra, Method.addIntra_inPlace, EStateM.run_bind, Command.run_ask,
    Command.run_update, run_onMethod_update, Program.addIntra]
  cases p.checkBuilding "intra statement" with
  | error e => rfl
  | ok u =>
    simp only [ok_bind]
    cases p.method i with
    | error e => rfl
    | ok x =>
      simp only [ok_bind]
      cases x.addIntra src dst action with
      | error e => rfl
      | ok x' => rfl

theorem run_addStructure (i : MethodId) (site : Site) (s : Structure V) :
    (InPlace.addStructure i site s).run p =
      (Command.atomic fun p : Program V => p.addStructure i site s).run p := by
  simp only [InPlace.addStructure, Method.addStructure_inPlace, EStateM.run_bind, Command.run_ask,
    Command.run_atomic, run_onMethod_atomic, Program.addStructure]
  cases hx : p.method i with
  | error e => rfl
  | ok x =>
    simp only [ok_bind]
    cases x.node site with
    | error e => rfl
    | ok n =>
      simp only [hx, ok_bind]
      cases x.addStructure site s with
      | error e => rfl
      | ok r =>
        obtain ⟨x', changed, f⟩ := r
        cases changed with
        | false => rfl
        | true => rfl

theorem run_addTransition (i : MethodId) (src : Site) (f : Fact) (dst : Site) (f' : Fact) :
    (InPlace.addTransition i src f dst f').run p =
      (Command.atomic fun p : Program V => p.addTransition i src f dst f').run p := by
  simp only [InPlace.addTransition, Method.InPlace.addTransition, EStateM.run_bind,
    Command.run_atomic, run_onMethod_atomic, Program.addTransition]
  cases p.method i with
  | error e => rfl
  | ok x =>
    simp only [ok_bind]
    cases x.addTransition src f dst f' with
    | error e => rfl
    | ok r =>
      obtain ⟨x', new⟩ := r
      cases new with
      | false => rfl
      | true => rfl

theorem run_updateSummary (i : MethodId) :
    (InPlace.updateSummary i).run p =
      (Command.atomic fun p : Program V => p.updateSummary i).run p := by
  simp only [InPlace.updateSummary, Method.InPlace.updateSummary, EStateM.run_bind,
    Command.run_atomic, run_onMethod_atomic, Program.updateSummary]
  cases p.method i with
  | error e => rfl
  | ok x =>
    simp only [ok_bind]
    cases hd : x.updateSummary with
    | mk x' d =>
      cases d with
      | none => rfl
      | some d => rfl

theorem run_addContext (callee : MethodId) (entries : List Fact) (c : CallFact)
    (refined : List Fact) : (InPlace.addContext callee entries c refined).run p =
      (Command.atomic fun p : Program V => p.addContext callee entries c refined).run p := by
  simp only [InPlace.addContext, InPlace.onCalls, EStateM.run_bind, EStateM.run_get,
    Command.run_ask, Command.run_atomic, Program.addContext]
  cases p.method callee with
  | error e => rfl
  | ok x =>
    simp only [ok_bind]
    cases p.checkCallSite c.point.caller c.point.site with
    | error e => rfl
    | ok u =>
      simp only [Command.run_onPart, Command.run_atomic, ok_bind]
      cases p.calls.addContext callee entries c refined with
      | error e => rfl
      | ok r => rfl

theorem run_printMethod (i : MethodId) :
    (InPlace.printMethod i).run p =
      (Command.update fun p : Program V => p.printMethod i).run p := by
  have hmodify : (modify Method.printAll : Command (Method V) Unit) =
      .update fun x => .ok x.printAll := rfl
  simp only [InPlace.printMethod, hmodify, run_onMethod_update, Command.run_update,
    Program.printMethod]
  cases p.method i with
  | error e => rfl
  | ok x => rfl

theorem run_printNode (i : MethodId) (label : String) :
    (InPlace.printNode i label).run p =
      (Command.update fun p : Program V => p.printNode i label).run p := by
  simp only [InPlace.printNode, Method.InPlace.printNode, run_onMethod_update, Program.printNode]

end Atomic

/-! ## Calls and the start -/

theorem callees?_eq_none (hp : p.topology.Consistent) {caller : MethodId} {x : Method V}
    (hx : p.methods[caller]? = some x) {i : Site} (hi : x.topology.kindAt i = none)
    (kind : MethodKind) : p.calls.tables.callees? kind ⟨caller, i⟩ = none := by
  have hno : ¬ (p.topology.calls.callees? kind ⟨caller, i⟩).isSome = true := by
    rw [← hp.kindAt_iff hx, hi]
    intro h
    cases h
  exact Option.not_isSome_iff_eq_none.1 hno

/-- Once the control flow has the call site, the call graph takes the call. -/
theorem run_addCall (hp : p.topology.Consistent) (kind : MethodKind) (caller : MethodId)
    (args : List String) (src dst : String) (callee : MethodId)
    (callAction retAction guardAction : ActionInstance) :
    (InPlace.addCall kind caller args src dst callee callAction retAction guardAction).run p =
      (Command.update fun p : Program V =>
        p.addCall kind caller args src dst callee callAction retAction guardAction).run p := by
  simp only [InPlace.addCall, InPlace.onCalls, Method.addCall_inPlace, EStateM.run_bind,
    Command.run_ask, Command.run_update, run_onMethod_update, Program.addCall]
  cases p.checkBuilding (kind.name ++ " invocation") with
  | error e => rfl
  | ok u =>
    simp only [ok_bind]
    cases p.checkCallee caller callee kind src with
    | error e => rfl
    | ok signature =>
      simp only [ok_bind]
      cases hx : p.method caller with
      | error e => rfl
      | ok x =>
        simp only [ok_bind]
        cases hcheck : x.checkCall kind.callSite src dst with
        | error e => rfl
        | ok u =>
          have hsame : (if kind = .virtual then
              p.calls.checkVirtual caller (x.cfg.lookup src) callee
            else p.calls.checkUnique caller (x.cfg.lookup src) callee) =
              p.calls.check kind caller (x.cfg.lookup src) callee := rfl
          simp only [ok_bind, ite_bind, hsame]
          cases hfree : p.calls.check kind caller (x.cfg.lookup src) callee with
          | error e => rfl
          | ok u =>
            obtain ⟨x', hx'⟩ := Method.exists_addCall hcheck signature args
            obtain ⟨site, hlookup, hsite⟩ := Method.lookup_addCall hx'
            have hfound : p.calls.check kind caller (some site) callee = .ok () := by
              rcases hsite with hold | ⟨hnew, hnone⟩
              · rw [hold] at hfree
                exact hfree
              · rw [hnew] at hfree
                exact CallGraph.check_some_of_none hfree
                  (callees?_eq_none hp (method_eq_ok.1 hx) hnone)
            obtain ⟨calls, hcalls⟩ :=
              CallGraph.exists_registerCall hfound callAction retAction guardAction
            have hthere : (p.setMethod caller x').method caller = .ok x' :=
              method_setMethod (method_eq_ok.1 hx)
            have hkeep : (p.setMethod caller x').calls = p.calls := rfl
            simp only [hx, hx', ok_bind, pure, Except.pure, hthere, hlookup, EStateM.run_bind,
              EStateM.run_get, Command.run_onPart, Command.run_update, hkeep, hcalls]
            rfl

section Start

variable {i : MethodId} {x : Method V} {site : Site} {n : FlowNode}

/-- A structure can be added at a node, and the node is there then. -/
theorem Books.exists_addStructure (hp : p.Books) (hx : p.methods[i]? = some x)
    (hn : x.cfg.node? site = some n) (s : Structure V) :
    ∃ p' changed f, p.addStructure i site s = .ok (p', changed, f) ∧
      ∃ x', p'.methods[i]? = some x' ∧ x'.cfg.node? site = some n := by
  obtain ⟨slots, hslots⟩ := Option.ne_none_iff_exists'.1 ((hp i x hx).slots?_ne_none hn)
  obtain ⟨⟨store, changed, f⟩, hstore⟩ := StateStore.exists_addStructure hslots s
  have hadd : ∃ p', p.addStructure i site s = .ok (p', changed, f) := by
    unfold Program.addStructure Method.addStructure
    simp only [method_eq_ok.2 hx, Method.node_eq_ok.2 hn, hstore, ok_bind]
    exact ⟨_, rfl⟩
  obtain ⟨p', hp'⟩ := hadd
  refine ⟨p', changed, f, hp', ?_⟩
  obtain ⟨y, -, y', hy, -, hy', rfl⟩ := addStructure_eq_ok hp'
  obtain rfl : x = y := Option.some.inj (hx.symm.trans hy)
  obtain ⟨-, -, -, -, rfl⟩ := Method.addStructure_eq_ok hy'
  refine ⟨_, List.getElem?_set_self (List.getElem?_eq_some_iff.1 hx).1, ?_⟩
  exact hn

/-- None of several additions at a node is refused. -/
theorem Books.exists_seed (hp : p.Books) (hx : p.methods[i]? = some x)
    (hn : x.cfg.node? site = some n) (ss : List (Structure V)) (facts : List Fact) :
    ∃ p' facts', seed i site ss p facts = .ok (p', facts') ∧
      (InPlace.seed i site ss facts).run p = .ok facts' p' := by
  induction ss generalizing p x facts with
  | nil => exact ⟨p, facts, rfl, rfl⟩
  | cons s ss ih =>
    obtain ⟨p₁, changed, f, hadd, x₁, hx₁, hn₁⟩ := hp.exists_addStructure hx hn s
    obtain ⟨p₂, facts₂, hseed, hrun⟩ := ih (hp.addStructure hadd) hx₁ hn₁
      (if changed && f ∉ facts then facts ++ [f] else facts)
    refine ⟨p₂, facts₂, ?_, ?_⟩
    · rw [seed, hadd]
      exact hseed
    · simp only [InPlace.seed, EStateM.run_bind, run_addStructure, Command.run_atomic, hadd]
      exact hrun

theorem run_start (hp : p.Books) (ss : List (Structure V)) :
    (InPlace.start ss).run p = (Command.atomic fun p : Program V => p.start ss).run p := by
  simp only [InPlace.start, EStateM.run_bind, EStateM.run_get, Command.run_atomic, Program.start]
  cases p.started with
  | false => rfl
  | true =>
    cases p.main with
    | none => rfl
    | some main =>
      simp only [Bool.not_true, Bool.false_eq_true, if_false, EStateM.run_bind, Command.run_ask]
      cases hx : p.method main with
      | error e => rfl
      | ok x =>
        have hmethod := method_eq_ok.1 hx
        obtain ⟨p', facts, hseed, hrun⟩ := hp.exists_seed hmethod
          (List.getElem?_eq_getElem (hp main x hmethod).begins) ss []
        simp only [ok_bind, hseed]
        exact hrun

end Start

/-! ## Runs -/

/-- Control flow, call tables and books agree. -/
structure Orderly (p : Program V) : Prop where
  consistent : p.topology.Consistent
  books : p.Books

theorem Orderly.perform (hp : p.Orderly) (call : Call V) : (p.perform call).Orderly :=
  ⟨consistent_perform hp.consistent call, hp.books.perform call⟩

theorem orderly_new (mode : JoinMode) : (new mode : Program V).Orderly :=
  ⟨consistent_new mode, books_new mode⟩

/-- Every command does all of its work or none. -/
theorem run_command (hp : p.Orderly) (call : Call V) :
    call.command.run p = (Command.atomic call.operation).run p := by
  cases call with
  | method kind signature entry exit => exact run_addMethod kind signature entry exit
  | main i => rfl
  | listen => rfl
  | intra i src dst action => exact run_addIntra i src dst action
  | call kind caller args src dst callee callAction retAction guardAction =>
    exact run_addCall hp.consistent kind caller args src dst callee callAction retAction guardAction
  | complete => rfl
  | start ss => exact run_start hp.books ss
  | add i site s => exact run_addStructure i site s
  | transition i src f dst f' => exact run_addTransition i src f dst f'
  | update i => exact run_updateSummary i
  | context callee entries c refined => exact run_addContext callee entries c refined
  | printAll => rfl
  | printInterproc => rfl
  | printMethod i => exact run_printMethod i
  | printNode i label => exact run_printNode i label

theorem leaves_command (hp : p.Orderly) (call : Call V) :
    call.command.leaves p = p.perform call := by
  rw [Command.leaves_eq (run_command hp call), Command.leaves_atomic, settle_operation]

theorem answer_command (hp : p.Orderly) (call : Call V) :
    call.command.answer p = (call.operation p).map Prod.snd := by
  rw [Command.answer_eq (run_command hp call), Command.answer_atomic]

theorem Orderly.leaves (hp : p.Orderly) (call : Call V) : (call.command.leaves p).Orderly := by
  rw [leaves_command hp]
  exact hp.perform call

theorem Orderly.execAll (hp : p.Orderly) (calls : List (Call V)) : (p.execAll calls).Orderly := by
  induction calls generalizing p with
  | nil => exact hp
  | cons call calls ih => exact ih (hp.leaves call)

/-- A refused operation changes nothing, whatever the program went through before. -/
theorem refused_changes_nothing (mode : JoinMode) (calls : List (Call V)) (call : Call V)
    (e : Error) (h : call.command.answer ((new mode).execAll calls) = .error e) :
    call.command.leaves ((new mode).execAll calls) = (new mode).execAll calls := by
  have hp := (orderly_new mode).execAll calls
  rw [answer_command hp] at h
  rw [Command.leaves_eq (run_command hp call), Command.leaves_atomic]
  cases hop : call.operation ((new mode).execAll calls) with
  | error e' => rfl
  | ok r =>
    rw [hop] at h
    cases h

/-- The candidate is there already, which the call graph finds and the control flow does
not. -/
theorem refused_changes_nothing_candidate :
    ∃ call : Call Vocabulary.empty,
      call.command.answer ((new .relational).execAll dispatchCalls) =
        .error (.duplicateCall 1 2 0) ∧
      call.command.leaves ((new .relational).execAll dispatchCalls) =
        (new .relational).execAll dispatchCalls := by
  have hrefused : (Call.call .virtual 0 [] "at" "back" 1 default default default).command.answer
      ((new .relational).execAll dispatchCalls) = .error (.duplicateCall 1 2 0) := rfl
  exact ⟨_, hrefused, refused_changes_nothing .relational dispatchCalls _ _ hrefused⟩

end Program

end ShapeAnalysis
