import ShapeAnalysis.Proofs.Atomicity

/-!
# News for the scheduler

The scheduler works on what it is told, so what it is not told is never done.  What a
call has to tell is said here without the program's own tables.  A structure that was
added and changed its state is news: at a call site one piece for each callee that was
registered there, in the order of registration, and elsewhere one piece.  A new transition
is one piece of news, and so is each pair of a change of a summary.

The callees of a call site are read off the calls of the run that were accepted
(`registrations`).  That the call tables list the same callees, and some at every call
site, is what makes the news complete (`news_exact`).
-/

namespace ShapeAnalysis

namespace Program

variable {V : Vocabulary} {p p' : Program V}

/-! ## Registered callees -/

/-- A callee that was registered for a call point. -/
structure Registration where
  /-- The kind of the call. -/
  kind : MethodKind
  /-- Where the call is made. -/
  point : CallPoint
  /-- The method called. -/
  callee : MethodId
deriving DecidableEq

/-- What a call registers when it is accepted.  Its call site is the node with its label
then. -/
def Call.registration (p : Program V) : Call V → List Registration
  | .call kind caller args src dst callee callAction retAction guardAction =>
    let c := InPlace.addCall kind caller args src dst callee callAction retAction guardAction
    match c.answer p with
    | .ok _ => (((c.leaves p).methods[caller]?).bind fun x => x.cfg.lookup src).toList.map
        fun site => ⟨kind, ⟨caller, site⟩, callee⟩
    | .error _ => []
  | _ => []

/-- What a list of calls registers, oldest first. -/
def registrations (p : Program V) : List (Call V) → List Registration
  | [] => []
  | call :: calls => call.registration p ++ (call.command.leaves p).registrations calls

/-- The callees of a kind that are registered for a call point, oldest first. -/
def calleesAt (rs : List Registration) (kind : MethodKind) (x : CallPoint) : List MethodId :=
  (rs.filter fun r => r.kind = kind ∧ r.point = x).map (·.callee)

theorem calleesAt_append (rs rs' : List Registration) (kind : MethodKind) (x : CallPoint) :
    calleesAt (rs ++ rs') kind x = calleesAt rs kind x ++ calleesAt rs' kind x := by
  rw [calleesAt, List.filter_append, List.map_append]
  rfl

/-- The callees that the call tables have for a call point. -/
def Topology.calleesAt (t : Topology) (kind : MethodKind) (x : CallPoint) : List MethodId :=
  (t.calls.callees? kind x).getD []

section Registration

variable {kind : MethodKind} {caller callee : MethodId} {args : List String} {src dst : String}
  {callAction retAction guardAction : ActionInstance} (hp : p.topology.Consistent)
include hp

theorem registration_of_error {e : Error}
    (h : p.addCall kind caller args src dst callee callAction retAction guardAction = .error e) :
    (Call.call kind caller args src dst callee callAction retAction guardAction).registration p =
      [] := by
  have hanswer : (InPlace.addCall kind caller args src dst callee callAction retAction
      guardAction).answer p = .error e := by
    rw [Command.answer, run_addCall hp, Command.run_update, h]
  simp only [Call.registration, hanswer]

theorem registration_of_ok {x : Method V} {site : Site}
    (h : p.addCall kind caller args src dst callee callAction retAction guardAction = .ok p')
    (hx : p'.methods[caller]? = some x) (hsite : x.cfg.lookup src = some site) :
    (Call.call kind caller args src dst callee callAction retAction guardAction).registration p =
      [⟨kind, ⟨caller, site⟩, callee⟩] := by
  have hrun : (InPlace.addCall kind caller args src dst callee callAction retAction
      guardAction).run p = .ok () p' := by
    rw [run_addCall hp, Command.run_update, h]
  simp only [Call.registration, Command.answer, Command.leaves, hrun, hx, Option.bind_some, hsite,
    Option.toList_some, List.map_cons, List.map_nil]

/-- A call that is accepted adds its callee to those of its call site. -/
theorem calleesAt_addCall
    (h : p.addCall kind caller args src dst callee callAction retAction guardAction = .ok p')
    (kind' : MethodKind) (y : CallPoint) :
    p'.topology.calleesAt kind' y = p.topology.calleesAt kind' y ++ calleesAt
      ((Call.call kind caller args src dst callee callAction retAction guardAction).registration p)
      kind' y := by
  obtain ⟨-, m, m', signature, site, calls, hm, -, hsite, -, hcalls, hp'⟩ := addCall_eq_ok h
  have hm' : p'.methods[caller]? = some m' := by
    rw [hp']
    exact List.getElem?_set_self (List.getElem?_eq_some_iff.1 hm).1
  have htables : p'.topology.calls = calls.tables := by
    rw [hp']
    rfl
  obtain ⟨hcallees, -⟩ := CallGraph.callees?_registerCall hcalls
  rw [registration_of_ok hp h hm' hsite, Topology.calleesAt, htables, hcallees]
  by_cases hy : kind' = kind ∧ y = ⟨caller, site⟩
  · obtain ⟨rfl, rfl⟩ := hy
    simp only [and_self, if_true, calleesAt, decide_true, List.filter_cons, List.filter_nil,
      List.map_cons, List.map_nil]
    rfl
  · have hother : ¬ (kind = kind' ∧ (⟨caller, site⟩ : CallPoint) = y) := by
      rintro ⟨rfl, rfl⟩
      exact hy ⟨rfl, rfl⟩
    rw [if_neg hy, calleesAt]
    simp only [hother, decide_false, List.filter_cons, List.filter_nil]
    exact (List.append_nil _).symm

/-- The call tables follow the calls that are accepted. -/
theorem calleesAt_perform (call : Call V) (kind : MethodKind) (x : CallPoint) :
    (p.perform call).topology.calleesAt kind x =
      p.topology.calleesAt kind x ++ calleesAt (call.registration p) kind x := by
  have hquiet : (p.perform call).topology.calls = p.topology.calls → call.registration p = [] →
      (p.perform call).topology.calleesAt kind x =
        p.topology.calleesAt kind x ++ calleesAt (call.registration p) kind x := by
    intro hcalls hnone
    rw [hnone, Topology.calleesAt, hcalls]
    exact (List.append_nil _).symm
  cases hbuilding : call.isBuilding with
  | false =>
    refine hquiet (congrArg Topology.calls (unmoved_perform p hbuilding).topology) ?_
    cases call with
    | call => cases hbuilding
    | _ => rfl
  | true =>
    cases call with
    | method kind signature entry exit =>
      refine hquiet ?_ rfl
      refine settle_keeps (P := fun p' : Program V => p'.topology.calls = p.topology.calls) rfl
        fun r h => ?_
      obtain ⟨-, -, m, -, hr⟩ := addMethod_eq_ok h
      rw [hr]
      rfl
    | intra i src dst action =>
      refine hquiet ?_ rfl
      refine settle_keeps (P := fun p' : Program V => p'.topology.calls = p.topology.calls) rfl
        fun r h => ?_
      obtain ⟨-, m, m', -, -, rfl⟩ := addIntra_eq_ok h
      rfl
    | call kind' caller args src dst callee callAction retAction guardAction =>
      cases h : p.addCall kind' caller args src dst callee callAction retAction guardAction with
      | error e =>
        refine hquiet ?_ (registration_of_error hp h)
        simp only [perform, h]
        rfl
      | ok p' =>
        rw [show p.perform _ = p' by simp only [perform, h]; rfl]
        exact calleesAt_addCall hp h kind x
    | _ => cases hbuilding

end Registration

theorem calleesAt_execAll (hp : p.Orderly) (calls : List (Call V)) (kind : MethodKind)
    (x : CallPoint) : (p.execAll calls).topology.calleesAt kind x =
      p.topology.calleesAt kind x ++ calleesAt (p.registrations calls) kind x := by
  induction calls generalizing p with
  | nil => exact (List.append_nil _).symm
  | cons call calls ih =>
    show ((call.command.leaves p).execAll calls).topology.calleesAt kind x = _
    rw [ih (hp.leaves call), registrations, calleesAt_append, leaves_command hp,
      calleesAt_perform hp.consistent, List.append_assoc]

/-! ## Additions -/

/-- A structure that was joined into the state at a site. -/
structure Addition where
  /-- The method. -/
  method : MethodId
  /-- The site. -/
  site : Site
  /-- Whether the state changed. -/
  changed : Bool
  /-- The fact that covers the structure. -/
  fact : Fact
deriving DecidableEq

/-- The additions of a list of structures at a site, one after the other. -/
def seeds (m : MethodId) (site : Site) : List (Structure V) → Program V → List Addition
  | [], _ => []
  | s :: ss, p =>
    match (InPlace.addStructure m site s).answer p with
    | .ok (changed, f) =>
      ⟨m, site, changed, f⟩ :: seeds m site ss ((InPlace.addStructure m site s).leaves p)
    | .error _ => []

/-- The additions that a call makes, oldest first.  The start adds at the entry of the main
method. -/
def Call.additions (p : Program V) : Call V → List Addition
  | .add m site s => seeds m site [s] p
  | .start ss =>
    match p.started, p.main with
    | true, some m =>
      match p.method m with
      | .ok x => seeds m x.entry ss p
      | .error _ => []
    | _, _ => []
  | _ => []

/-- One piece of news for each of a list of callees. -/
def Addition.callNews (a : Addition) (kind : MethodKind) (callees : List MethodId) : List Event :=
  callees.map (.call kind a.method a.site a.fact)

/-- The news of an addition, where nodes have kinds and call sites have callees.  There is
none if the state did not change. -/
def Addition.news (kindAt : CallPoint → Option NodeKind)
    (callees : MethodKind → CallPoint → List MethodId) (a : Addition) : List Event :=
  let x : CallPoint := ⟨a.method, a.site⟩
  if a.changed then
    match kindAt x with
    | some .staticCall => a.callNews .static (callees .static x)
    | some .constructorCall => a.callNews .constructor (callees .constructor x)
    | some .virtualCall => a.callNews .virtual (callees .virtual x)
    | _ => [.intra a.method a.site a.fact]
  else []

/-- The news of a call. -/
def Call.news (callees : MethodKind → CallPoint → List MethodId) (p : Program V) :
    Call V → List Event
  | .transition m src f dst f' =>
    match (InPlace.addTransition m src f dst f').answer p with
    | .ok true => [.transition m src f dst f']
    | _ => []
  | .update m =>
    match (InPlace.updateSummary m).answer p with
    | .ok (some d) => (d.added ++ d.refreshed).map fun q => .ret m q.fst q.snd
    | _ => []
  | other => (other.additions p).flatMap (Addition.news p.topology.kindAt callees)

/-! ## What is told -/

theorem newsAt_eq (g : CallGraph) (a : Addition) (kind : NodeKind) (hchanged : a.changed = true) :
    newsAt g a.method a.site kind a.fact = a.news (fun _ => some kind)
      fun kind x => (g.tables.callees? kind x).getD [] := by
  unfold Addition.news
  rw [if_pos hchanged]
  cases kind with
  | staticCall =>
    simp only [newsAt, CallGraph.staticTarget?, Addition.callNews, CallTables.callees?,
      CallGraph.tables]
    cases g.statics.get? ⟨a.method, a.site⟩ <;> rfl
  | constructorCall =>
    simp only [newsAt, CallGraph.constructorTarget?, Addition.callNews, CallTables.callees?,
      CallGraph.tables]
    cases g.constructors.get? ⟨a.method, a.site⟩ <;> rfl
  | virtualCall =>
    simp only [newsAt, CallGraph.virtualTargets, CallGraph.candidates, Addition.callNews,
      CallTables.callees?, CallGraph.tables]
    cases g.virtuals.get? ⟨a.method, a.site⟩ <;> rfl
  | _ => rfl

/-- The news of an addition by what the program knows. -/
def Topology.news (t : Topology) (a : Addition) : List Event := a.news t.kindAt t.calleesAt

section Outbox

variable {i : MethodId} {site : Site} {s : Structure V} {changed : Bool} {f : Fact}

theorem outbox_addStructure (h : p.addStructure i site s = .ok (p', changed, f)) :
    p'.outbox = p.outbox.map (· ++ p.topology.news ⟨i, site, changed, f⟩) := by
  obtain ⟨m, n, m', hm, hn, -, rfl⟩ := addStructure_eq_ok h
  have hkind : p.topology.kindAt ⟨i, site⟩ = some n.kind := by
    rw [Topology.kindAt, getElem?_topology hm]
    show m.topology.kindAt site = some n.kind
    rw [Method.kindAt_topology, hn]
    rfl
  have hnews : (if changed = true then newsAt p.calls i site n.kind f else []) =
      p.topology.news ⟨i, site, changed, f⟩ := by
    cases changed with
    | false => rfl
    | true =>
      refine (newsAt_eq p.calls ⟨i, site, true, f⟩ n.kind rfl).trans ?_
      unfold Topology.news Addition.news
      dsimp only
      rw [hkind]
      rfl
  rw [hnews]
  rfl

theorem seeds_cons_of_ok (h : p.addStructure i site s = .ok (p', changed, f))
    (ss : List (Structure V)) :
    seeds i site (s :: ss) p = ⟨i, site, changed, f⟩ :: seeds i site ss p' := by
  have hrun : (InPlace.addStructure i site s).run p = .ok (changed, f) p' := by
    rw [run_addStructure, Command.run_atomic, h]
  simp only [seeds, Command.answer, Command.leaves, hrun]

theorem seeds_cons_of_error {e : Error} (h : p.addStructure i site s = .error e)
    (ss : List (Structure V)) : seeds i site (s :: ss) p = [] := by
  have hrun : (InPlace.addStructure i site s).run p = .error e p := by
    rw [run_addStructure, Command.run_atomic, h]
  simp only [seeds, Command.answer, hrun]

theorem outbox_seed {ss : List (Structure V)} {facts facts' : List Fact}
    (h : seed i site ss p facts = .ok (p', facts')) :
    p'.outbox = p.outbox.map (· ++ (seeds i site ss p).flatMap p.topology.news) := by
  induction ss generalizing p facts with
  | nil =>
    cases h
    simp [seeds]
  | cons s ss ih =>
    unfold seed at h
    split at h
    · cases h
    · rename_i p₁ changed f hadd
      -- Additions leave the topology alone, so the news are judged by the same one.
      have hsame := (unmoved_addStructure hadd).topology
      rw [ih h, outbox_addStructure hadd, seeds_cons_of_ok hadd, hsame]
      simp [Function.comp_def]

theorem outbox_start (hp : p.Books) (ss : List (Structure V)) :
    (p.perform (.start ss)).outbox =
      p.outbox.map (· ++ ((Call.start ss).additions p).flatMap p.topology.news) := by
  have hnone : p.outbox = p.outbox.map (· ++ []) := by simp
  simp only [perform, start, Call.additions]
  cases p.started with
  | false => exact hnone
  | true =>
    cases p.main with
    | none => exact hnone
    | some main =>
      simp only [Bool.not_true, Bool.false_eq_true, if_false]
      cases hx : p.method main with
      | error e => exact hnone
      | ok x =>
        have hmethod := method_eq_ok.1 hx
        obtain ⟨p', facts, hseed, -⟩ := hp.exists_seed hmethod
          (List.getElem?_eq_getElem (hp main x hmethod).begins) ss []
        simp only [ok_bind, hseed, settle_ok]
        exact outbox_seed hseed

theorem outbox_add (i : MethodId) (site : Site) (s : Structure V) :
    (p.perform (.add i site s)).outbox =
      p.outbox.map (· ++ ((Call.add i site s).additions p).flatMap p.topology.news) := by
  simp only [perform, Call.additions]
  cases h : p.addStructure i site s with
  | error e =>
    rw [seeds_cons_of_error h]
    simp
  | ok r =>
    rw [seeds_cons_of_ok h, settle_ok, outbox_addStructure h]
    simp [seeds]

theorem outbox_transition (i : MethodId) (src : Site) (f : Fact) (dst : Site) (f' : Fact) :
    (p.perform (.transition i src f dst f')).outbox =
      p.outbox.map (· ++ (Call.transition i src f dst f').news p.topology.calleesAt p) := by
  simp only [perform, Call.news]
  rw [Command.answer_eq (run_addTransition i src f dst f'), Command.answer_atomic]
  cases h : p.addTransition i src f dst f' with
  | error e => simp [Except.map]
  | ok r =>
    obtain ⟨p', new⟩ := r
    obtain ⟨m, m', -, -, rfl⟩ := addTransition_eq_ok h
    cases new with
    | false => rfl
    | true => rfl

theorem outbox_update (i : MethodId) :
    (p.perform (.update i)).outbox =
      p.outbox.map (· ++ (Call.update i : Call V).news p.topology.calleesAt p) := by
  simp only [perform, Call.news]
  rw [Command.answer_eq (run_updateSummary i), Command.answer_atomic]
  cases h : p.updateSummary i with
  | error e => simp [Except.map]
  | ok r =>
    obtain ⟨p', d⟩ := r
    obtain ⟨m, -, -, rfl⟩ := updateSummary_eq_ok h
    cases d with
    | none => rfl
    | some d => rfl

/-- A call tells its news and nothing else. -/
theorem outbox_perform (hp : p.Orderly) {old : List Event} (hold : p.outbox = some old)
    (call : Call V) : (p.perform call).outbox =
      some (old ++ call.news p.topology.calleesAt p) := by
  have hquiet : (p.perform call).outbox = p.outbox → call.news p.topology.calleesAt p = [] →
      (p.perform call).outbox = some (old ++ call.news p.topology.calleesAt p) := by
    intro hsame hnone
    rw [hsame, hnone, hold, List.append_nil]
  have hsettle : ∀ {α : Type} {left : α → Program V} {x : Except Error α},
      (∀ a, x = .ok a → (left a).outbox = p.outbox) → (settle p left x).outbox = p.outbox :=
    fun h => settle_keeps (P := fun p' : Program V => p'.outbox = p.outbox) rfl h
  cases call with
  | method kind signature entry exit =>
    refine hquiet (hsettle fun r h => ?_) rfl
    obtain ⟨-, -, m, -, hr⟩ := addMethod_eq_ok h
    rw [hr]
  | main i =>
    refine hquiet (hsettle fun _ h => ?_) rfl
    rw [setMain_eq_ok h]
    rfl
  | listen =>
    refine hquiet ?_ rfl
    simp [perform, Program.listen, hold]
  | intra i src dst action =>
    refine hquiet (hsettle fun _ h => ?_) rfl
    obtain ⟨-, m, m', -, -, rfl⟩ := addIntra_eq_ok h
    rfl
  | call kind caller args src dst callee callAction retAction guardAction =>
    refine hquiet (hsettle fun _ h => ?_) rfl
    obtain ⟨-, m, m', signature, site, calls, -, -, -, -, -, rfl⟩ := addCall_eq_ok h
    rfl
  | complete => exact hquiet rfl rfl
  | start ss =>
    rw [outbox_start hp.books, hold]
    rfl
  | add i site s =>
    rw [outbox_add, hold]
    rfl
  | transition i src f dst f' =>
    rw [outbox_transition, hold]
    rfl
  | update i =>
    rw [outbox_update, hold]
    rfl
  | context callee entries c refined =>
    refine hquiet (hsettle fun _ h => ?_) rfl
    obtain ⟨contexts, hr⟩ := addContext_eq_ok h
    rw [hr]
  | printAll => exact hquiet rfl rfl
  | printInterproc => exact hquiet rfl rfl
  | printMethod i =>
    refine hquiet (hsettle fun _ h => ?_) rfl
    obtain ⟨m, -, rfl⟩ := printMethod_eq_ok h
    rfl
  | printNode i label =>
    refine hquiet (hsettle fun _ h => ?_) rfl
    obtain ⟨m, m', -, -, rfl⟩ := printNode_eq_ok h
    rfl

end Outbox

/-- There are callees at every call site, each once, and just one unless the call is
virtual. -/
theorem Topology.Consistent.calleesAt_spec {t : Topology} (ht : t.Consistent) {kind : MethodKind}
    {x : CallPoint} (hx : t.kindAt x = some kind.callSite) :
    t.calleesAt kind x ≠ [] ∧ (t.calleesAt kind x).Nodup ∧
      (kind ≠ .virtual → (t.calleesAt kind x).length = 1) := by
  obtain ⟨callees, hcallees⟩ := Option.isSome_iff_exists.1 ((ht.called kind x).1 hx)
  have hat : t.calleesAt kind x = callees := by
    rw [Topology.calleesAt, hcallees]
    rfl
  rw [hat]
  obtain ⟨hsome, hnodup⟩ := ht.distinct kind x callees hcallees
  refine ⟨hsome, hnodup, fun hkind => ?_⟩
  cases kind with
  | virtual => exact absurd rfl hkind
  | static =>
    obtain ⟨c, -, rfl⟩ := Option.map_eq_some_iff.1 hcallees
    rfl
  | constructor =>
    obtain ⟨c, -, rfl⟩ := Option.map_eq_some_iff.1 hcallees
    rfl

/-! ## Runs -/

theorem exists_outbox (hp : p.Orderly) {old : List Event} (hold : p.outbox = some old)
    (calls : List (Call V)) : ∃ told, (p.execAll calls).outbox = some told := by
  induction calls generalizing p old with
  | nil => exact ⟨old, hold⟩
  | cons call calls ih =>
    have hnext : (call.command.leaves p).outbox =
        some (old ++ call.news p.topology.calleesAt p) := by
      rw [leaves_command hp, outbox_perform hp hold]
    exact ih (hp.leaves call) hnext

/-- The scheduler is told of every change once.  When it listens from the start, each call
adds just its news to what it was told before, by the callees that the calls before have
registered.  At every call site there are such callees, each once, and just one unless the
call is virtual. -/
theorem news_exact (mode : JoinMode) (calls : List (Call V)) :
    let p : Program V := (new mode).listen.execAll calls
    let callees := calleesAt ((new mode).listen.registrations calls)
    (∀ call : Call V, ∃ told, p.outbox = some told ∧
      (call.command.leaves p).outbox = some (told ++ call.news callees p)) ∧
    ∀ (kind : MethodKind) (x : CallPoint), p.topology.kindAt x = some kind.callSite →
      callees kind x ≠ [] ∧ (callees kind x).Nodup ∧
        (kind ≠ .virtual → (callees kind x).length = 1) := by
  intro p callees
  have hstart : (new mode : Program V).listen.Orderly := (orderly_new mode).perform .listen
  have hp : p.Orderly := hstart.execAll calls
  have hcallees : p.topology.calleesAt = callees := by
    funext kind x
    rw [calleesAt_execAll hstart]
    cases kind <;> rfl
  constructor
  · intro call
    obtain ⟨told, htold⟩ := exists_outbox hstart rfl calls
    refine ⟨told, htold, ?_⟩
    rw [leaves_command hp, outbox_perform hp htold, hcallees]
  · intro kind x hx
    rw [← hcallees]
    exact hp.consistent.calleesAt_spec hx

/-- A structure at a virtual call is news for both candidates. -/
theorem news_exact_dispatchCalls :
    ((new .pointwise).listen.execAll dispatchCalls).topology.kindAt ⟨0, 2⟩ = some .virtualCall ∧
      calleesAt ((new .pointwise).listen.registrations dispatchCalls) .virtual ⟨0, 2⟩ ≠ [] ∧
      ((Call.add 0 2 default).command.leaves
        ((new .pointwise).listen.execAll dispatchCalls)).outbox =
          some [.call .virtual 0 2 ⟨0, 2, 1⟩ 1, .call .virtual 0 2 ⟨0, 2, 1⟩ 2] := by
  have hkind : ((new .pointwise).listen.execAll dispatchCalls).topology.kindAt ⟨0, 2⟩ =
      some .virtualCall := by decide
  obtain ⟨hnews, hcallees⟩ := news_exact .pointwise dispatchCalls
  obtain ⟨told, htold, hleaves⟩ := hnews (.add 0 2 default)
  obtain rfl : told = [] := Option.some.inj (htold.symm.trans rfl)
  exact ⟨hkind, (hcallees .virtual ⟨0, 2⟩ hkind).1, hleaves.trans rfl⟩

end Program

end ShapeAnalysis
