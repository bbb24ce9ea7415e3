import Mathlib.Data.List.Pairwise
import ShapeAnalysis.Proofs.CallResolution
import ShapeAnalysis.Proofs.Contexts

/-!
# Registered calls

A call graph keeps its calls in three tables that share the call points.  A registration
is refused where it would give a call point two kinds of calls, or two callees unless they
are candidates of one virtual call.  So the registrations that were accepted are *apart*,
and the tables hold these registrations and nothing else (`Follows`).

From this every way to look a call up is read off: there is a call from a call point into
a method exactly if one was registered, there is at most one, and the actions are the ones
it was registered with (`lookups_consistent`).
-/

namespace ShapeAnalysis

namespace CallGraph

/-! ## Calls on a call graph -/

/-- Register a call of any kind.  The guard counts for virtual calls only. -/
def register (g : CallGraph) (c : Candidate) : Except Error CallGraph :=
  Program.registerCall g c.call.kind c.call.point c.call.callee c.call.callAction
    c.call.retAction c.guardAction

/-- A call that may change a call graph. -/
inductive Call where
  | method (callee : MethodId)
  | invoke (c : Candidate)
  | close
  | context (callee : MethodId) (entries : List Fact) (c : CallFact) (refined : List Fact)

/-- The call graph after a call.  A call that is refused leaves it as it was. -/
def perform (g : CallGraph) : Call → CallGraph
  | .method callee => settle g id (g.addMethod callee)
  | .invoke c => settle g id (g.register c)
  | .close => g.close
  | .context callee entries c refined => settle g Prod.fst (g.addContext callee entries c refined)

/-- The call graph after a list of calls. -/
def run (g : CallGraph) (calls : List Call) : CallGraph := calls.foldl perform g

/-- What a call registers if it is accepted. -/
def Call.accepted (g : CallGraph) : Call → List Candidate
  | .invoke c => settle [] (fun _ => [c]) (g.register c)
  | _ => []

/-- The registrations that are accepted in a run, oldest first. -/
def registrations (g : CallGraph) : List Call → List Candidate
  | [] => []
  | call :: calls => call.accepted g ++ (g.perform call).registrations calls

/-! ## Registrations at a call point -/

/-- The registrations of a kind at a call point. -/
def registeredAt (cs : List Candidate) (kind : MethodKind) (x : CallPoint) : List Candidate :=
  cs.filter fun c => c.call.kind = kind ∧ c.call.point = x

/-- Two registrations at one call point are different candidates of a virtual call. -/
def Apart (c d : Candidate) : Prop :=
  c.call.point = d.call.point →
    c.call.kind = .virtual ∧ d.call.kind = .virtual ∧ c.call.callee ≠ d.call.callee

/-! ## What a registration changes -/

theorem size_eq (g : CallGraph) : g.size =
    g.statics.size + g.constructors.size + (g.virtuals.values.map List.length).sum := by
  rw [size, ← List.foldl_map, ← List.sum_eq_foldl]

/-- A registration that is accepted goes into the table of its kind.  At its call point
there is no call before, or there are other candidates of a virtual call. -/
theorem register_cases {g g' : CallGraph} {c : Candidate} (h : g.register c = .ok g') :
    (c.call.kind = .static ∧ g.isTaken c.call.point = false ∧
        g.virtuals.get? c.call.point = none ∧
        g' = { g with statics := g.statics.insert c.call.point c.call }) ∨
      (c.call.kind = .constructor ∧ g.isTaken c.call.point = false ∧
        g.virtuals.get? c.call.point = none ∧
        g' = { g with constructors := g.constructors.insert c.call.point c.call }) ∨
      (c.call.kind = .virtual ∧ g.isTaken c.call.point = false ∧
        c.call.callee ∉ (g.candidates c.call.point).map (·.call.callee) ∧
        g' = { g with virtuals := g.virtuals.alter c.call.point [] (· ++ [c]) }) := by
  obtain ⟨⟨kind, x, callee, callAction, retAction⟩, guardAction⟩ := c
  cases kind with
  | static =>
    obtain ⟨_, hcheck, h⟩ := bind_eq_ok.1 h
    obtain ⟨htaken, hvirtual⟩ := checkUnique_eq_ok hcheck
    exact .inl ⟨rfl, htaken, hvirtual, (Except.ok.inj h).symm⟩
  | constructor =>
    obtain ⟨_, hcheck, h⟩ := bind_eq_ok.1 h
    obtain ⟨htaken, hvirtual⟩ := checkUnique_eq_ok hcheck
    exact .inr (.inl ⟨rfl, htaken, hvirtual, (Except.ok.inj h).symm⟩)
  | virtual =>
    obtain ⟨_, hcheck, h⟩ := bind_eq_ok.1 h
    obtain ⟨htaken, hnew⟩ := checkVirtual_eq_ok hcheck
    exact .inr (.inr ⟨rfl, htaken, hnew, (Except.ok.inj h).symm⟩)

/-- A registration that is accepted counts once. -/
theorem size_register {g g' : CallGraph} {c : Candidate} (h : g.register c = .ok g') :
    g'.size = g.size + 1 := by
  rw [size_eq, size_eq]
  rcases register_cases h with ⟨-, htaken, -, rfl⟩ | ⟨-, htaken, -, rfl⟩ | ⟨-, -, -, rfl⟩
  · dsimp only
    rw [SortedMap.size_insert_of_none (isTaken_eq_false_iff.1 htaken).1]
    omega
  · dsimp only
    rw [SortedMap.size_insert_of_none (isTaken_eq_false_iff.1 htaken).2]
    omega
  · -- The list of candidates is replaced by one that has a candidate more.
    have hsum := SortedMap.sum_values_insert List.length g.virtuals c.call.point
      (g.candidates c.call.point ++ [c])
    have hlength : ((g.virtuals.get? c.call.point).map List.length).getD 0 =
        (g.candidates c.call.point).length := by
      unfold candidates
      cases g.virtuals.get? c.call.point with
      | none => rfl
      | some l => rfl
    rw [hlength, List.length_append, List.length_singleton] at hsum
    show g.statics.size + g.constructors.size + (((g.virtuals.insert c.call.point
      (g.candidates c.call.point ++ [c])).values.map List.length).sum) = _
    omega

theorem candidates_alter (g : CallGraph) (c : Candidate) (x : CallPoint) :
    candidates { g with virtuals := g.virtuals.alter c.call.point [] (· ++ [c]) } x =
      g.candidates x ++ if c.call.point = x then [c] else [] := by
  unfold candidates
  rw [SortedMap.get?_alter]
  by_cases hx : x = c.call.point
  · simp [hx]
  · simp [hx, Ne.symm hx]

/-! ## Registrations that go together -/

section Registered

variable {cs : List Candidate} {c d : Candidate} {kind : MethodKind} {x : CallPoint}

theorem mem_registeredAt :
    c ∈ registeredAt cs kind x ↔ c ∈ cs ∧ c.call.kind = kind ∧ c.call.point = x := by
  simp [registeredAt]

theorem registeredAt_concat (cs : List Candidate) (c : Candidate) (kind : MethodKind)
    (x : CallPoint) : registeredAt (cs ++ [c]) kind x = registeredAt cs kind x ++
      if c.call.kind = kind ∧ c.call.point = x then [c] else [] := by
  rw [registeredAt, List.filter_append, List.filter_cons, List.filter_nil]
  simp only [decide_eq_true_eq]
  rfl

theorem registeredAt_concat_of_ne (h : c.call.kind ≠ kind) (x : CallPoint) :
    registeredAt (cs ++ [c]) kind x = registeredAt cs kind x := by
  rw [registeredAt_concat, if_neg fun hc => h hc.1, List.append_nil]

theorem Apart.symm (h : Apart c d) : Apart d c := by
  intro hpoint
  obtain ⟨hc, hd, hne⟩ := h hpoint.symm
  exact ⟨hd, hc, hne.symm⟩

instance : Std.Symm Apart := ⟨fun _ _ => Apart.symm⟩

/-- At a call point a method is registered once. -/
theorem eq_of_apart (h : cs.Pairwise Apart) (hc : c ∈ cs) (hd : d ∈ cs)
    (hpoint : c.call.point = d.call.point) (hcallee : c.call.callee = d.call.callee) : c = d := by
  by_contra hne
  exact (h.forall hc hd hne hpoint).2.2 hcallee

/-- At a call point all calls are of one kind. -/
theorem kind_eq_of_apart (h : cs.Pairwise Apart) (hc : c ∈ cs) (hd : d ∈ cs)
    (hpoint : c.call.point = d.call.point) : c.call.kind = d.call.kind := by
  by_cases heq : c = d
  · rw [heq]
  · obtain ⟨hvc, hvd, -⟩ := h.forall hc hd heq hpoint
    rw [hvc, hvd]

end Registered

/-! ## The tables hold the registrations -/

/-- A table with one call for each call point holds the registrations of a kind. -/
def Tabulates (m : SortedMap CallPoint CallSite) (cs : List Candidate) (kind : MethodKind) : Prop :=
  ∀ x, (m.get? x).toList = (registeredAt cs kind x).map (·.call)

/-- The tables of a call graph hold a list of registrations. -/
structure Follows (g : CallGraph) (cs : List Candidate) : Prop where
  /-- The static calls. -/
  statics : Tabulates g.statics cs .static
  /-- The constructor calls. -/
  constructors : Tabulates g.constructors cs .constructor
  /-- The candidates of the virtual calls, in the order of registration. -/
  virtuals : ∀ x, g.candidates x = registeredAt cs .virtual x
  /-- A virtual call has a candidate. -/
  filled : ∀ x, g.virtuals.get? x ≠ some []
  /-- Registrations at one call point go together. -/
  apart : cs.Pairwise Apart
  /-- Every registration counts. -/
  size : g.size = cs.length
  /-- Calling contexts are of registered calls. -/
  contexts : ∀ r, g.contexts.Holds r → ∃ c ∈ cs, c.call.point = r.call.point ∧
    c.call.callee = r.callee

section Tabulates

variable {m : SortedMap CallPoint CallSite} {cs : List Candidate} {kind : MethodKind}
  {c : Candidate} {x : CallPoint} (hm : Tabulates m cs kind)
include hm

theorem Tabulates.get?_eq_some_iff {s : CallSite} :
    m.get? x = some s ↔ ∃ c ∈ cs, c.call = s ∧ s.kind = kind ∧ s.point = x := by
  rw [← Option.mem_toList, hm, List.mem_map]
  constructor
  · rintro ⟨c, hc, rfl⟩
    obtain ⟨hmem, hkind, hpoint⟩ := mem_registeredAt.1 hc
    exact ⟨c, hmem, rfl, hkind, hpoint⟩
  · rintro ⟨c, hmem, rfl, hkind, hpoint⟩
    exact ⟨c, mem_registeredAt.2 ⟨hmem, hkind, hpoint⟩, rfl⟩

theorem Tabulates.get?_eq_none_iff :
    m.get? x = none ↔ ∀ c ∈ cs, c.call.point = x → c.call.kind ≠ kind := by
  rw [Option.eq_none_iff_forall_ne_some]
  constructor
  · intro h c hc hpoint hkind
    exact h c.call (hm.get?_eq_some_iff.2 ⟨c, hc, rfl, hkind, hpoint⟩)
  · intro h s hs
    obtain ⟨c, hc, rfl, hkind, hpoint⟩ := hm.get?_eq_some_iff.1 hs
    exact h c hc hpoint hkind

theorem Tabulates.contains_iff :
    m.contains x = true ↔ ∃ c ∈ cs, c.call.kind = kind ∧ c.call.point = x := by
  rw [SortedMap.contains, Option.isSome_iff_ne_none, Ne, hm.get?_eq_none_iff]
  push Not
  simp only [and_comm]

theorem Tabulates.concat_of_ne (h : c.call.kind ≠ kind) : Tabulates m (cs ++ [c]) kind := by
  intro x
  rw [registeredAt_concat_of_ne h]
  exact hm x

theorem Tabulates.insert (hkind : c.call.kind = kind) (hnone : m.get? c.call.point = none) :
    Tabulates (m.insert c.call.point c.call) (cs ++ [c]) kind := by
  intro x
  rw [registeredAt_concat, List.map_append, ← hm, SortedMap.get?_insert]
  by_cases hx : x = c.call.point
  · subst hx
    simp [hkind, hnone]
  · simp [hx, Ne.symm hx]

theorem Tabulates.target_iff {callee : MethodId} :
    decide ((m.get? x).map (·.callee) = some callee) = true ↔
      ∃ c ∈ cs, c.call.kind = kind ∧ c.call.point = x ∧ c.call.callee = callee := by
  rw [decide_eq_true_eq, Option.map_eq_some_iff]
  simp only [hm.get?_eq_some_iff]
  constructor
  · rintro ⟨_, ⟨c, hc, rfl, hkind, hpoint⟩, hcallee⟩
    exact ⟨c, hc, hkind, hpoint, hcallee⟩
  · rintro ⟨c, hc, hkind, hpoint, hcallee⟩
    exact ⟨c.call, ⟨c, hc, rfl, hkind, hpoint⟩, hcallee⟩

end Tabulates

section Follows

variable {g g' : CallGraph} {cs : List Candidate} {c : Candidate} {x : CallPoint}
  {callee : MethodId} (hg : g.Follows cs)
include hg

theorem Follows.mem_candidates_iff :
    c ∈ g.candidates x ↔ c ∈ cs ∧ c.call.kind = .virtual ∧ c.call.point = x := by
  rw [hg.virtuals, mem_registeredAt]

/-- The keys of the virtual calls are the call points with candidates. -/
theorem Follows.get?_virtuals_eq_none_iff :
    g.virtuals.get? x = none ↔ ∀ c ∈ cs, c.call.point = x → c.call.kind ≠ .virtual := by
  have hcandidates : g.virtuals.get? x = none ↔ g.candidates x = [] := by
    unfold candidates
    cases hget : g.virtuals.get? x with
    | none => simp
    | some l =>
      have hl : l ≠ [] := fun hnil => hg.filled x (hnil ▸ hget)
      simp [hl]
  rw [hcandidates, List.eq_nil_iff_forall_not_mem]
  constructor
  · intro h c hc hpoint hkind
    exact h c (hg.mem_candidates_iff.2 ⟨hc, hkind, hpoint⟩)
  · intro h c hc
    obtain ⟨hmem, hkind, hpoint⟩ := hg.mem_candidates_iff.1 hc
    exact h c hmem hpoint hkind

/-- At a call point that is not taken only candidates of a virtual call are registered. -/
theorem Follows.isTaken_eq_false_iff :
    g.isTaken x = false ↔ ∀ c ∈ cs, c.call.point = x → c.call.kind = .virtual := by
  rw [CallGraph.isTaken_eq_false_iff, hg.statics.get?_eq_none_iff,
    hg.constructors.get?_eq_none_iff]
  constructor
  · rintro ⟨hstatic, hconstructor⟩ c hc hpoint
    cases hkind : c.call.kind with
    | static => exact absurd hkind (hstatic c hc hpoint)
    | constructor => exact absurd hkind (hconstructor c hc hpoint)
    | virtual => rfl
  · intro h
    constructor
    · intro c hc hpoint
      rw [h c hc hpoint]
      exact MethodKind.noConfusion
    · intro c hc hpoint
      rw [h c hc hpoint]
      exact MethodKind.noConfusion

/-! ## What one call does -/

/-- A static or constructor call is registered at a call point without calls. -/
theorem Follows.apart_of_unused (htaken : g.isTaken c.call.point = false)
    (hvirtual : g.virtuals.get? c.call.point = none) : ∀ d ∈ cs, Apart d c := by
  intro d hd hpoint
  exact absurd (hg.isTaken_eq_false_iff.1 htaken d hd hpoint)
    (hg.get?_virtuals_eq_none_iff.1 hvirtual d hd hpoint)

/-- A candidate is registered at a call point that has at most other candidates. -/
theorem Follows.apart_of_candidates (hkind : c.call.kind = .virtual)
    (htaken : g.isTaken c.call.point = false)
    (hnew : c.call.callee ∉ (g.candidates c.call.point).map (·.call.callee)) :
    ∀ d ∈ cs, Apart d c := by
  intro d hd hpoint
  have hd' : d.call.kind = .virtual := hg.isTaken_eq_false_iff.1 htaken d hd hpoint
  refine ⟨hd', hkind, fun hcallee => hnew ?_⟩
  rw [← hcallee]
  exact List.mem_map_of_mem (hg.mem_candidates_iff.2 ⟨hd, hd', hpoint⟩)

theorem Follows.virtuals_concat_of_ne (h : c.call.kind ≠ .virtual) (x : CallPoint) :
    g.candidates x = registeredAt (cs ++ [c]) .virtual x := by
  rw [registeredAt_concat_of_ne h]
  exact hg.virtuals x

theorem Follows.apart_concat (h : ∀ d ∈ cs, Apart d c) : (cs ++ [c]).Pairwise Apart := by
  refine List.pairwise_append.2 ⟨hg.apart, List.pairwise_singleton _ _, fun d hd e he => ?_⟩
  rw [List.mem_singleton.1 he]
  exact h d hd

theorem Follows.contexts_concat (c : Candidate) (r : ContextTable.Record)
    (hr : g.contexts.Holds r) : ∃ d ∈ cs ++ [c], d.call.point = r.call.point ∧
      d.call.callee = r.callee := by
  obtain ⟨d, hd, hsame⟩ := hg.contexts r hr
  exact ⟨d, List.mem_append_left _ hd, hsame⟩

theorem Follows.register (h : g.register c = .ok g') : g'.Follows (cs ++ [c]) := by
  have hsize : g'.size = (cs ++ [c]).length := by
    rw [size_register h, hg.size, List.length_append, List.length_singleton]
  rcases register_cases h with ⟨hkind, htaken, hvirtual, rfl⟩ | ⟨hkind, htaken, hvirtual, rfl⟩ |
    ⟨hkind, htaken, hnew, rfl⟩
  · -- A static call.
    have hstatic : g.statics.get? c.call.point = none :=
      (CallGraph.isTaken_eq_false_iff.1 htaken).1
    exact ⟨hg.statics.insert hkind hstatic, hg.constructors.concat_of_ne (by simp [hkind]),
      hg.virtuals_concat_of_ne (by simp [hkind]), hg.filled,
      hg.apart_concat (hg.apart_of_unused htaken hvirtual), hsize, hg.contexts_concat c⟩
  · -- A constructor call.
    have hconstructor : g.constructors.get? c.call.point = none :=
      (CallGraph.isTaken_eq_false_iff.1 htaken).2
    exact ⟨hg.statics.concat_of_ne (by simp [hkind]), hg.constructors.insert hkind hconstructor,
      hg.virtuals_concat_of_ne (by simp [hkind]), hg.filled,
      hg.apart_concat (hg.apart_of_unused htaken hvirtual), hsize, hg.contexts_concat c⟩
  · -- A candidate of a virtual call.
    refine ⟨hg.statics.concat_of_ne (by simp [hkind]),
      hg.constructors.concat_of_ne (by simp [hkind]), fun x => ?_, fun x => ?_,
      hg.apart_concat (hg.apart_of_candidates hkind htaken hnew), hsize, hg.contexts_concat c⟩
    · rw [candidates_alter, registeredAt_concat, hg.virtuals]
      simp only [hkind, true_and]
    · rw [SortedMap.get?_alter]
      split
      · simp
      · exact hg.filled x

theorem Follows.addMethod (h : g.addMethod callee = .ok g') : g'.Follows cs := by
  obtain ⟨_, -, h⟩ := bind_eq_ok.1 h
  cases h
  exact { hg with contexts := fun r hr => hg.contexts r (ContextTable.holds_addTarget.1 hr) }

theorem Follows.close : g.close.Follows cs := { hg with }

end Follows

/-! ## Looking calls up -/

/-- Whether a call of a kind is made into a method. -/
def isCallOf (g : CallGraph) : MethodKind → CallPoint → MethodId → Bool
  | .static => g.isStaticCall
  | .constructor => g.isConstructorCall
  | .virtual => g.isVirtualCall

/-- Whether the table of a kind has a call point. -/
def hasPoint (g : CallGraph) : MethodKind → CallPoint → Bool
  | .static => g.statics.contains
  | .constructor => g.constructors.contains
  | .virtual => g.virtuals.contains

/-- Calls are found by their actions. -/
theorem isCall_iff_actions (g : CallGraph) (x : CallPoint) (callee : MethodId) :
    (g.isCall x callee = true ↔ ∃ a, g.callAction x callee = .ok a) ∧
      (g.isCall x callee = true ↔ ∃ a, g.retAction x callee = .ok a) := by
  unfold isCall callAction retAction callSite
  cases g.callSite? x callee with
  | none => simp [Except.map]
  | some s => simp [Except.map]

theorem isVirtualCall_iff_guardAction (g : CallGraph) (x : CallPoint) (callee : MethodId) :
    g.isVirtualCall x callee = true ↔ ∃ a, g.guardAction x callee = .ok a := by
  unfold isVirtualCall guardAction
  cases g.candidate? x callee with
  | none => simp
  | some c => simp

section Lookups

variable {g g' : CallGraph} {cs : List Candidate} {c : Candidate} {x : CallPoint}
  {callee : MethodId} (hg : g.Follows cs)
include hg

theorem Follows.candidate?_eq_some_iff : g.candidate? x callee = some c ↔
    c ∈ cs ∧ c.call.kind = .virtual ∧ c.call.point = x ∧ c.call.callee = callee := by
  constructor
  · intro h
    have hcallee := List.find?_some h
    obtain ⟨hc, hkind, hpoint⟩ := hg.mem_candidates_iff.1 (List.mem_of_find?_eq_some h)
    exact ⟨hc, hkind, hpoint, of_decide_eq_true hcallee⟩
  · rintro ⟨hc, hkind, hpoint, hcallee⟩
    have hmem : c ∈ g.candidates x := hg.mem_candidates_iff.2 ⟨hc, hkind, hpoint⟩
    -- The first candidate with the callee is the only one.
    cases hfind : g.candidate? x callee with
    | none =>
      have hnone := List.find?_eq_none.1 hfind c hmem
      exact absurd (decide_eq_true hcallee) hnone
    | some d =>
      have hd := List.find?_some hfind
      obtain ⟨hdmem, -, hdpoint⟩ := hg.mem_candidates_iff.1 (List.mem_of_find?_eq_some hfind)
      have hdcallee : d.call.callee = callee := of_decide_eq_true hd
      rw [eq_of_apart hg.apart hdmem hc (hdpoint.trans hpoint.symm)
        (hdcallee.trans hcallee.symm)]

theorem Follows.callSite?_eq_some_iff {s : CallSite} : g.callSite? x callee = some s ↔
    ∃ c ∈ cs, c.call = s ∧ s.point = x ∧ s.callee = callee := by
  unfold callSite?
  cases hunique : (g.statics.get? x).or (g.constructors.get? x) with
  | some t =>
    -- All calls at the call point are this one.
    obtain ⟨d, hd, rfl, hpoint, hvirtual⟩ :
        ∃ d ∈ cs, d.call = t ∧ t.point = x ∧ t.kind ≠ .virtual := by
      rcases Option.or_eq_some_iff.1 hunique with h | ⟨-, h⟩
      · obtain ⟨d, hd, rfl, hkind, hpoint⟩ := hg.statics.get?_eq_some_iff.1 h
        exact ⟨d, hd, rfl, hpoint, by simp [hkind]⟩
      · obtain ⟨d, hd, rfl, hkind, hpoint⟩ := hg.constructors.get?_eq_some_iff.1 h
        exact ⟨d, hd, rfl, hpoint, by simp [hkind]⟩
    dsimp only
    constructor
    · intro h
      split at h
      · rename_i hcallee
        cases h
        exact ⟨d, hd, rfl, hpoint, hcallee⟩
      · cases h
    · rintro ⟨c, hc, rfl, hcpoint, hcallee⟩
      have hcd : c = d := by
        by_contra hne
        exact hvirtual (hg.apart.forall hc hd hne (hcpoint.trans hpoint.symm)).2.1
      subst hcd
      exact if_pos hcallee
  | none =>
    obtain ⟨hstatic, hconstructor⟩ := Option.or_eq_none_iff.1 hunique
    have hvirtual : ∀ c ∈ cs, c.call.point = x → c.call.kind = .virtual :=
      hg.isTaken_eq_false_iff.1 (CallGraph.isTaken_eq_false_iff.2 ⟨hstatic, hconstructor⟩)
    dsimp only
    rw [Option.map_eq_some_iff]
    constructor
    · rintro ⟨c, hc, rfl⟩
      obtain ⟨hmem, -, hpoint, hcallee⟩ := hg.candidate?_eq_some_iff.1 hc
      exact ⟨c, hmem, rfl, hpoint, hcallee⟩
    · rintro ⟨c, hc, rfl, hpoint, hcallee⟩
      exact ⟨c, hg.candidate?_eq_some_iff.2 ⟨hc, hvirtual c hc hpoint, hpoint, hcallee⟩, rfl⟩

theorem Follows.isCall_iff :
    g.isCall x callee = true ↔ ∃ c ∈ cs, c.call.point = x ∧ c.call.callee = callee := by
  unfold isCall
  rw [Option.isSome_iff_exists]
  simp only [hg.callSite?_eq_some_iff]
  constructor
  · rintro ⟨_, c, hc, rfl, h⟩
    exact ⟨c, hc, h⟩
  · rintro ⟨c, hc, h⟩
    exact ⟨c.call, c, hc, rfl, h⟩

theorem Follows.isCallOf_iff {kind : MethodKind} : g.isCallOf kind x callee = true ↔
    ∃ c ∈ cs, c.call.kind = kind ∧ c.call.point = x ∧ c.call.callee = callee := by
  cases kind with
  | static => exact hg.statics.target_iff
  | constructor => exact hg.constructors.target_iff
  | virtual =>
    show (g.candidate? x callee).isSome = true ↔ _
    rw [Option.isSome_iff_exists]
    simp only [hg.candidate?_eq_some_iff]

/-- A call is of exactly one kind. -/
theorem Follows.isCall_iff_existsUnique :
    g.isCall x callee = true ↔ ∃! kind, g.isCallOf kind x callee = true := by
  rw [hg.isCall_iff]
  constructor
  · rintro ⟨c, hc, hpoint, hcallee⟩
    refine ⟨c.call.kind, hg.isCallOf_iff.2 ⟨c, hc, rfl, hpoint, hcallee⟩, fun kind h => ?_⟩
    obtain ⟨d, hd, hkind, hdpoint, -⟩ := hg.isCallOf_iff.1 h
    rw [← hkind]
    exact kind_eq_of_apart hg.apart hd hc (hdpoint.trans hpoint.symm)
  · rintro ⟨kind, h, -⟩
    obtain ⟨c, hc, -, hsame⟩ := hg.isCallOf_iff.1 h
    exact ⟨c, hc, hsame⟩

theorem Follows.addContext {entries refined : List Fact} {c : CallFact} {grew : Bool}
    (h : g.addContext callee entries c refined = .ok (g', grew)) : g'.Follows cs := by
  unfold CallGraph.addContext at h
  split at h
  · cases h
  split at h
  · cases h
  rename_i hcall
  cases h
  have hcall' : g.isCall c.point callee = true := by simpa using hcall
  obtain ⟨d, hd, hpoint, hcallee⟩ := hg.isCall_iff.1 hcall'
  refine { hg with contexts := fun r hr => ?_ }
  have hr' : ((g.contexts.addReport ⟨callee, entries, c, refined⟩).1).Holds r := hr
  rcases ContextTable.holds_addReport.1 hr' with hold | ⟨hrcallee, -, hrcall, -⟩
  · exact hg.contexts r hold
  · rw [hrcallee, hrcall]
    exact ⟨d, hd, hpoint, hcallee⟩

end Lookups

/-! ## Runs -/

section Runs

variable {g : CallGraph} {cs : List Candidate}

theorem Follows.perform (hg : g.Follows cs) (call : Call) :
    (g.perform call).Follows (cs ++ call.accepted g) := by
  cases call with
  | method callee =>
    show (settle g id (g.addMethod callee)).Follows (cs ++ [])
    rw [List.append_nil]
    exact settle_keeps (P := fun g : CallGraph => g.Follows cs) hg fun _ h => hg.addMethod h
  | invoke c =>
    show (settle g id (g.register c)).Follows (cs ++ settle [] (fun _ => [c]) (g.register c))
    cases h : g.register c with
    | ok g' => exact hg.register h
    | error e =>
      rw [settle_error, settle_error, List.append_nil]
      exact hg
  | close =>
    show g.close.Follows (cs ++ [])
    rw [List.append_nil]
    exact hg.close
  | context callee entries c refined =>
    show (settle g Prod.fst (g.addContext callee entries c refined)).Follows (cs ++ [])
    rw [List.append_nil]
    exact settle_keeps (P := fun g : CallGraph => g.Follows cs) hg fun _ h => hg.addContext h

theorem Follows.run (hg : g.Follows cs) (calls : List Call) :
    (g.run calls).Follows (cs ++ g.registrations calls) := by
  induction calls generalizing g cs with
  | nil =>
    rw [registrations, List.append_nil]
    exact hg
  | cons call calls ih =>
    rw [registrations, ← List.append_assoc]
    exact ih (hg.perform call)

theorem follows_empty : ({} : CallGraph).Follows [] := by
  refine ⟨fun _ => rfl, fun _ => rfl, fun _ => rfl, fun _ h => ?_, List.Pairwise.nil, rfl,
    fun r hr => absurd hr (ContextTable.not_holds_empty r)⟩
  cases h

end Runs

/-! ## Completing the definitions -/

section Complete

variable {g : CallGraph} (hg : g.complete = true)
include hg

theorem checkOpen_of_complete : g.checkOpen = .error .callGraphClosed := if_pos hg

/-- No call is registered any more. -/
theorem register_of_complete (c : Candidate) : g.register c = .error .callGraphClosed := by
  have hopen := checkOpen_of_complete hg
  obtain ⟨⟨kind, x, callee, callAction, retAction⟩, guardAction⟩ := c
  cases kind with
  | static =>
    show g.addStatic x callee callAction retAction = _
    rw [addStatic, checkUnique, hopen]
    rfl
  | constructor =>
    show g.addConstructor x callee callAction retAction = _
    rw [addConstructor, checkUnique, hopen]
    rfl
  | virtual =>
    show g.addVirtual x callee callAction retAction guardAction = _
    rw [addVirtual, checkVirtual, hopen]
    rfl

theorem addMethod_of_complete (callee : MethodId) :
    g.addMethod callee = .error .callGraphClosed := by
  rw [addMethod, checkOpen_of_complete hg]
  rfl

theorem complete_perform (call : Call) : (g.perform call).complete = true := by
  cases call with
  | method callee =>
    rw [perform, addMethod_of_complete hg]
    exact hg
  | invoke c =>
    rw [perform, register_of_complete hg]
    exact hg
  | close => rfl
  | context callee entries c refined =>
    refine settle_keeps (P := fun g' : CallGraph => g'.complete = true) hg fun b h => ?_
    unfold addContext at h
    split at h
    · cases h
    split at h
    · cases h
    · cases h
      exact hg

theorem complete_run (calls : List Call) : (g.run calls).complete = true := by
  induction calls generalizing g with
  | nil => exact hg
  | cons call calls ih => exact ih (complete_perform hg call)

end Complete

/-! ## Look-ups agree -/

/-- What the look-ups of a call graph say about the calls that were registered. -/
structure Resolves (g : CallGraph) (registered : List Candidate) : Prop where
  /-- A call point is in one of the tables at most. -/
  disjoint : ∀ x kind kind', g.hasPoint kind x = true → g.hasPoint kind' x = true → kind = kind'
  /-- A method is a candidate of a virtual call once. -/
  distinct : ∀ x, (g.virtualTargets x).Nodup
  /-- The calls of a kind are those registered. -/
  kinds : ∀ kind x callee, g.isCallOf kind x callee = true ↔
    ∃ c ∈ registered, c.call.kind = kind ∧ c.call.point = x ∧ c.call.callee = callee
  /-- A call is of exactly one kind. -/
  unique : ∀ x callee, g.isCall x callee = true ↔ ∃! kind, g.isCallOf kind x callee = true
  /-- The actions of a call are found. -/
  found : ∀ x callee, (g.isCall x callee = true ↔ ∃ a, g.callAction x callee = .ok a) ∧
    (g.isCall x callee = true ↔ ∃ a, g.retAction x callee = .ok a) ∧
    (g.isVirtualCall x callee = true ↔ ∃ a, g.guardAction x callee = .ok a)
  /-- They are the ones that were registered. -/
  actions : ∀ c ∈ registered, g.callAction c.call.point c.call.callee = .ok c.call.callAction ∧
    g.retAction c.call.point c.call.callee = .ok c.call.retAction ∧
    (c.call.kind = .virtual → g.guardAction c.call.point c.call.callee = .ok c.guardAction)
  /-- A calling context is of a registered call. -/
  contexts : ∀ r, g.contexts.Holds r → g.isCall r.call.point r.callee = true
  /-- Every registration counts once. -/
  counted : g.size = registered.length

section Resolves

variable {g : CallGraph} {cs : List Candidate} (hg : g.Follows cs)
include hg

theorem Follows.hasPoint_iff {kind : MethodKind} {x : CallPoint} : g.hasPoint kind x = true ↔
    ∃ c ∈ cs, c.call.kind = kind ∧ c.call.point = x := by
  cases kind with
  | static => exact hg.statics.contains_iff
  | constructor => exact hg.constructors.contains_iff
  | virtual =>
    show (g.virtuals.get? x).isSome = true ↔ _
    rw [Option.isSome_iff_ne_none, Ne, hg.get?_virtuals_eq_none_iff]
    push Not
    simp only [and_comm]

theorem Follows.nodup_virtualTargets (x : CallPoint) : (g.virtualTargets x).Nodup := by
  show ((g.candidates x).map fun c => c.call.callee).Nodup
  rw [hg.virtuals, List.Nodup, List.pairwise_map]
  refine (hg.apart.filter _).imp_of_mem fun hc hd h => ?_
  exact (h ((mem_registeredAt.1 hc).2.2.trans (mem_registeredAt.1 hd).2.2.symm)).2.2

theorem Follows.actions {c : Candidate} (hc : c ∈ cs) :
    g.callAction c.call.point c.call.callee = .ok c.call.callAction ∧
      g.retAction c.call.point c.call.callee = .ok c.call.retAction ∧
      (c.call.kind = .virtual →
        g.guardAction c.call.point c.call.callee = .ok c.guardAction) := by
  have hsite : g.callSite c.call.point c.call.callee = .ok c.call := by
    rw [callSite, hg.callSite?_eq_some_iff.2 ⟨c, hc, rfl, rfl, rfl⟩]
  refine ⟨?_, ?_, fun hkind => ?_⟩
  · rw [callAction, hsite]
    rfl
  · rw [retAction, hsite]
    rfl
  · rw [guardAction, hg.candidate?_eq_some_iff.2 ⟨hc, hkind, rfl, rfl⟩]

theorem Follows.resolves : g.Resolves cs where
  disjoint x kind kind' h h' := by
    obtain ⟨c, hc, hkind, hpoint⟩ := hg.hasPoint_iff.1 h
    obtain ⟨d, hd, hkind', hpoint'⟩ := hg.hasPoint_iff.1 h'
    rw [← hkind, ← hkind']
    exact kind_eq_of_apart hg.apart hc hd (hpoint.trans hpoint'.symm)
  distinct := hg.nodup_virtualTargets
  kinds _ _ _ := hg.isCallOf_iff
  unique _ _ := hg.isCall_iff_existsUnique
  found x callee := ⟨(isCall_iff_actions g x callee).1, (isCall_iff_actions g x callee).2,
    isVirtualCall_iff_guardAction g x callee⟩
  actions _ hc := hg.actions hc
  contexts r hr := hg.isCall_iff.2 (hg.contexts r hr)
  counted := hg.size

end Resolves

/-- The look-ups of a call graph say what was registered, and agree with each other.  From
the completion of the definitions on nothing is registered any more. -/
theorem lookups_consistent (calls : List Call) :
    (({} : CallGraph).run calls).Resolves (({} : CallGraph).registrations calls) ∧
      ∀ later : List Call,
        (∀ c, (({} : CallGraph).run (calls ++ .close :: later)).register c =
          .error .callGraphClosed) ∧
        ∀ callee, (({} : CallGraph).run (calls ++ .close :: later)).addMethod callee =
          .error .callGraphClosed := by
  refine ⟨(follows_empty.run calls).resolves, fun later => ?_⟩
  have hsplit : ({} : CallGraph).run (calls ++ .close :: later) =
      ((({} : CallGraph).run calls).perform .close).run later := by
    rw [run, List.foldl_append]
    rfl
  have hcomplete : (({} : CallGraph).run (calls ++ .close :: later)).complete = true := by
    rw [hsplit]
    exact complete_run rfl later
  exact ⟨register_of_complete hcomplete, addMethod_of_complete hcomplete⟩

/-- A call with default actions. -/
def plainCall (kind : MethodKind) (x : CallPoint) (callee : MethodId) : Call :=
  .invoke ⟨⟨kind, x, callee, default, default⟩, default⟩

/-- Refused are a callee that is not known, a second kind of call, a candidate that is
there, and a call after the completion. -/
example : (({} : CallGraph).registrations
    [.method 1, .method 2, plainCall .virtual ⟨0, 5⟩ 3, plainCall .virtual ⟨0, 5⟩ 1,
      plainCall .static ⟨0, 5⟩ 2, plainCall .virtual ⟨0, 5⟩ 2, plainCall .virtual ⟨0, 5⟩ 1,
      .close, plainCall .static ⟨0, 6⟩ 2]).map (·.call.callee) = [1, 2] := by
  decide

end CallGraph

end ShapeAnalysis
