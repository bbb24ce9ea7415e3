import ShapeAnalysis.Proofs.InPlace

/-!
# The shape of a method

A method is *shaped* when it has one entry and one exit, an edge that leaves a call
site is its only one and passes over the call to a return site, and no other node has
such an edge.  This is what being wired comes to where call sites may still wait for
their edge.

A node may also be obtained by itself, for use as any kind.  Nothing is checked then
but the kind that the node has.  So a second entry can be created, and a plain node can
become a call site although statements leave it.  These are the only calls that spoil the
shape, and none that comes later restores it: a run leaves a shaped method exactly if
no call of it spoils the shape (`shaped_iff_careful`).
-/

namespace ShapeAnalysis

namespace Method

variable {V : Vocabulary}

namespace Topology

/-- Nodes and edges have the shape of a method. -/
structure Shaped (t : Topology) : Prop where
  /-- There is one entry. -/
  entry : ∃! i, t.kindAt i = some .entry
  /-- There is one exit. -/
  exit : ∃! i, t.kindAt i = some .exit
  /-- An edge that leaves a call site is its only one and passes over the call. -/
  returns : ∀ i kind, t.kindAt i = some kind → kind.isCall = true → ∀ e ∈ t.outgoing i,
    t.outgoing i = [e] ∧ e.label.isCallToReturn = true ∧ t.kindAt e.dst = some .returnSite
  /-- Only call sites have such an edge. -/
  passes : ∀ e ∈ t.edges, e.label.isCallToReturn = true →
    ∃ kind, t.kindAt e.src = some kind ∧ kind.isCall = true

/-- What holds of the nodes and edges of a method, shaped or not. -/
structure Based (t : Topology) : Prop where
  /-- There is an entry. -/
  entry : ∃ i, t.kindAt i = some .entry
  /-- There is an exit. -/
  exit : ∃ i, t.kindAt i = some .exit
  /-- Edges leave nodes. -/
  leaves : ∀ e ∈ t.edges, t.kindAt e.src ≠ none
  /-- Edges arrive at nodes. -/
  arrives : ∀ e ∈ t.edges, t.kindAt e.dst ≠ none
  /-- Only call sites have an edge that passes over a call. -/
  passes : ∀ e ∈ t.edges, e.label.isCallToReturn = true →
    ∃ kind, t.kindAt e.src = some kind ∧ kind.isCall = true

theorem mem_outgoing {t : Topology} {i : Site} {e : FlowEdge} :
    e ∈ t.outgoing i ↔ e ∈ t.edges ∧ e.src = i := by
  simp [outgoing]

/-! ## A node gets its kind -/

section Places

variable {t t' : Topology} {i : Site} {kind : NodeKind} (h : Places t t' i kind)
include h

/-- A node that gets a kind changes no edges. -/
theorem Places.outgoing_eq (k : Site) : t'.outgoing k = t.outgoing k := by
  rw [outgoing, h.edges]
  rfl

theorem Places.kindAt_ne_none {k : Site} (hk : t.kindAt k ≠ none) : t'.kindAt k ≠ none := by
  rw [h.after]
  split
  · exact Option.some_ne_none kind
  · exact hk

theorem Places.passes (hpasses : ∀ e ∈ t.edges, e.label.isCallToReturn = true →
      ∃ found, t.kindAt e.src = some found ∧ found.isCall = true) :
    ∀ e ∈ t'.edges, e.label.isCallToReturn = true →
      ∃ found, t'.kindAt e.src = some found ∧ found.isCall = true := by
  intro e he hlabel
  rw [h.edges] at he
  obtain ⟨found, hfound, hcall⟩ := hpasses e he hlabel
  refine ⟨found, h.kindAt_eq hfound ?_, hcall⟩
  rintro rfl
  cases hcall

/-- A topology with one more node, or another kind at one, is based. -/
theorem Places.based (ht : t.Based) : t'.Based := by
  obtain ⟨entry, hentry⟩ := ht.entry
  obtain ⟨exit, hexit⟩ := ht.exit
  refine ⟨⟨entry, h.kindAt_eq hentry (by decide)⟩, ⟨exit, h.kindAt_eq hexit (by decide)⟩,
    fun e he => ?_, fun e he => ?_, h.passes ht.passes⟩
  · rw [h.edges] at he
    exact h.kindAt_ne_none (ht.leaves e he)
  · rw [h.edges] at he
    exact h.kindAt_ne_none (ht.arrives e he)

/-- A kind that has one node still has one just if no further node gets the kind. -/
theorem Places.existsUnique_iff {other : NodeKind} (hother : other ≠ .intra)
    (hold : ∃ k, t.kindAt k = some other) :
    (∃! k, t'.kindAt k = some other) ↔ (∃! k, t.kindAt k = some other) ∧ kind ≠ other := by
  constructor
  · rintro ⟨k, -, hunique⟩
    obtain ⟨k₀, hk₀⟩ := hold
    refine ⟨⟨k₀, hk₀, fun j hj => ?_⟩, ?_⟩
    · exact (hunique j (h.kindAt_eq hj hother)).trans
        (hunique k₀ (h.kindAt_eq hk₀ hother)).symm
    · rintro rfl
      have hik : i = k₀ := (hunique i h.kindAt_self).trans
        (hunique k₀ (h.kindAt_eq hk₀ hother)).symm
      rcases h.before with hnone | hintra
      · rw [hik, hk₀] at hnone
        cases hnone
      · rw [hik, hk₀] at hintra
        exact hother (Option.some.inj hintra)
  · rintro ⟨hunique, hkind⟩
    exact h.existsUnique hother hkind hunique

/-- Where return sites are new nodes, an edge arrives at a return site after the step
only if it did so before. -/
theorem Places.kindAt_returnSite (ht : t.Based)
    (hnew : t.kindAt i = none ∨ kind.isCall = true) {e : FlowEdge} (he : e ∈ t.edges)
    (hdst : t'.kindAt e.dst = some .returnSite) : t.kindAt e.dst = some .returnSite := by
  rw [h.after] at hdst
  split at hdst
  · rename_i hei
    cases hdst
    rcases hnew with hnone | hcall
    · exact absurd (hei ▸ hnone) (ht.arrives e he)
    · cases hcall
  · exact hdst

/-- The shape stays just if the node becomes neither an entry nor an exit, nor a call
site that has an edge. -/
theorem Places.shaped_iff (ht : t.Based) (hnew : t.kindAt i = none ∨ kind.isCall = true) :
    t'.Shaped ↔ t.Shaped ∧ kind ≠ .entry ∧ kind ≠ .exit ∧
      (kind.isCall = true → t.outgoing i = []) := by
  constructor
  · intro hshaped
    obtain ⟨hentry, hkentry⟩ := (h.existsUnique_iff (by decide) ht.entry).1 hshaped.entry
    obtain ⟨hexit, hkexit⟩ := (h.existsUnique_iff (by decide) ht.exit).1 hshaped.exit
    refine ⟨⟨hentry, hexit, fun k found hk hcall e he => ?_, ht.passes⟩, hkentry, hkexit,
      fun hcall => ?_⟩
    · have hk' : t'.kindAt k = some found := h.kindAt_eq hk (by rintro rfl; cases hcall)
      obtain ⟨hone, hlabel, hdst⟩ := hshaped.returns k found hk' hcall e
        (by rwa [h.outgoing_eq])
      rw [h.outgoing_eq] at hone
      exact ⟨hone, hlabel, h.kindAt_returnSite ht hnew (mem_outgoing.1 he).1 hdst⟩
    · -- An edge of the node would pass over a call, but the node was no call site.
      refine List.eq_nil_iff_forall_not_mem.2 fun e he => ?_
      obtain ⟨hedge, rfl⟩ := mem_outgoing.1 he
      obtain ⟨-, hlabel, -⟩ := hshaped.returns e.src kind h.kindAt_self hcall e
        (by rwa [h.outgoing_eq])
      obtain ⟨found, hfound, hfcall⟩ := ht.passes e hedge hlabel
      rcases h.before with hnone | hintra
      · rw [hnone] at hfound
        cases hfound
      · rw [hintra] at hfound
        cases hfound
        cases hfcall
  · rintro ⟨hshaped, hkentry, hkexit, hnil⟩
    refine ⟨h.existsUnique (by decide) hkentry hshaped.entry,
      h.existsUnique (by decide) hkexit hshaped.exit, fun k found hk hcall e he => ?_,
      h.passes hshaped.passes⟩
    rw [h.outgoing_eq] at he ⊢
    rw [h.after] at hk
    split at hk
    · rename_i hki
      cases hk
      rw [hki, hnil hcall] at he
      cases he
    · obtain ⟨hone, hlabel, hdst⟩ := hshaped.returns k found hk hcall e he
      exact ⟨hone, hlabel, h.kindAt_eq hdst (by decide)⟩

end Places

/-! ## A new edge -/

/-- An edge between two nodes that suits the node it leaves.  From a call site it passes
over the call to a return site, and the call site has no other. -/
structure Suits (t : Topology) (e : FlowEdge) : Prop where
  source : ∃ kind, t.kindAt e.src = some kind ∧ (kind.isCall = true ↔ e.label.isCallToReturn = true)
  target : t.kindAt e.dst ≠ none
  first : e.label.isCallToReturn = true → t.outgoing e.src = []
  returns : e.label.isCallToReturn = true → t.kindAt e.dst = some .returnSite

section Joins

variable {t t' : Topology} {e : FlowEdge} (h : Joins t t' e) (he : t.Suits e)
include h he

/-- An edge between nodes keeps a topology based. -/
theorem Joins.based (ht : t.Based) : t'.Based := by
  obtain ⟨kind, hsrc, hcall⟩ := he.source
  refine ⟨?_, ?_, fun e' he' => ?_, fun e' he' => ?_, fun e' he' hlabel => ?_⟩
  · simpa only [h.kinds] using ht.entry
  · simpa only [h.kinds] using ht.exit
  all_goals
    rw [h.kinds]
    rw [h.edges, List.mem_append, List.mem_singleton] at he'
    rcases he' with he' | rfl
  · exact ht.leaves e' he'
  · rw [hsrc]
    exact Option.some_ne_none kind
  · exact ht.arrives e' he'
  · exact he.target
  · exact ht.passes e' he' hlabel
  · exact ⟨kind, hsrc, hcall.2 hlabel⟩

/-- An edge that suits makes no shape and spoils none. -/
theorem Joins.shaped_iff (ht : t.Based) : t'.Shaped ↔ t.Shaped := by
  obtain ⟨kind, hsrc, hcall⟩ := he.source
  have hcallOf : ∀ {k found}, e.src = k → t.kindAt k = some found → found.isCall = true →
      e.label.isCallToReturn = true := by
    rintro _ found rfl hfound hfcall
    rw [hsrc] at hfound
    cases hfound
    exact hcall.1 hfcall
  constructor
  · intro hshaped
    refine ⟨by simpa only [h.kinds] using hshaped.entry,
      by simpa only [h.kinds] using hshaped.exit, fun k found hk hfcall e' he' => ?_, ht.passes⟩
    by_cases hke : e.src = k
    · -- The edge is the first one of its call site.
      have hnil := he.first (hcallOf hke hk hfcall)
      rw [hke] at hnil
      rw [hnil] at he'
      cases he'
    · have hreturns := hshaped.returns k found (by rwa [h.kinds]) hfcall e'
      rw [h.outgoing_of_ne hke, h.kinds] at hreturns
      exact hreturns he'
  · intro hshaped
    refine ⟨by simpa only [h.kinds] using hshaped.entry,
      by simpa only [h.kinds] using hshaped.exit, fun k found hk hfcall e' he' => ?_,
      (h.based he ht).passes⟩
    rw [h.kinds] at hk ⊢
    by_cases hke : e.src = k
    · have hlabel := hcallOf hke hk hfcall
      have hone : t'.outgoing k = [e] := by
        rw [← hke, h.outgoing_self, he.first hlabel]
        rfl
      rw [hone, List.mem_singleton] at he'
      subst he'
      exact ⟨hone, hlabel, he.returns hlabel⟩
    · rw [h.outgoing_of_ne hke] at he' ⊢
      exact hshaped.returns k found hk hfcall e' he'

end Joins

/-! ## Several steps -/

/-- A topology is based after some steps, and as shaped as before under a condition. -/
structure Builds (t t' : Topology) (careful : Prop) : Prop where
  based : t'.Based
  shaped_iff : t'.Shaped ↔ t.Shaped ∧ careful

/-- The conditions of two steps are those of both. -/
theorem Builds.trans {t t' t'' : Topology} {c c' : Prop} (h : Builds t t' c)
    (h' : Builds t' t'' c') : Builds t t'' (c ∧ c') := by
  refine ⟨h'.based, ?_⟩
  rw [h'.shaped_iff, h.shaped_iff, and_assoc]

theorem Builds.of_iff {t t' : Topology} {c c' : Prop} (h : Builds t t' c) (hc : c ↔ c') :
    Builds t t' c' := by
  rw [← hc]
  exact h

section Based

variable {t t' : Topology} (ht : t.Based)
include ht

theorem Based.builds_self : Builds t t True :=
  ⟨ht, by rw [and_true]⟩

/-- A node spoils the shape if it is a further entry or exit, or becomes a call site with edges
behind it. -/
theorem Based.builds_places {i : Site} {kind : NodeKind} (h : Places t t' i kind)
    (hnew : t.kindAt i = none ∨ kind.isCall = true) :
    Builds t t' (kind ≠ .entry ∧ kind ≠ .exit ∧ (kind.isCall = true → t.outgoing i = [])) :=
  ⟨h.based ht, h.shaped_iff ht hnew⟩

theorem Based.builds_joins {e : FlowEdge} (h : Joins t t' e) (he : t.Suits e) :
    Builds t t' True := by
  refine ⟨h.based he ht, ?_⟩
  rw [h.shaped_iff he ht, and_true]

theorem Based.outgoing_of_kindAt_none {i : Site} (h : t.kindAt i = none) : t.outgoing i = [] := by
  refine List.eq_nil_iff_forall_not_mem.2 fun e he => ?_
  obtain ⟨hedge, rfl⟩ := mem_outgoing.1 he
  exact ht.leaves e hedge h

end Based

end Topology

/-! ## What spoils the shape -/

/-- Whether a call spoils the shape of a method.  It creates a further entry or exit, or
makes a call site of a plain node that has an edge. -/
def Spoils (m : Method V) : Call V → Prop
  | .obtain kind label =>
    match m.cfg.lookup label with
    | none => kind = .entry ∨ kind = .exit
    | some i => kind.isCall = true ∧ m.topology.kindAt i = some .intra ∧ m.topology.outgoing i ≠ []
  | _ => False

/-- None of a list of calls spoils the shape of the method that it finds. -/
def Careful (m : Method V) : List (Call V) → Prop
  | [] => True
  | call :: calls => ¬ m.Spoils call ∧ (call.command.leaves m).Careful calls

section Building

variable {m m' : Method V} {kind : NodeKind} {label : String} {i : Site}

theorem spoils_obtain_of_lookup_none (h : m.cfg.lookup label = none) :
    m.Spoils (.obtain kind label) ↔ kind = .entry ∨ kind = .exit := by
  simp only [Spoils, h]

theorem spoils_obtain_of_lookup (h : m.cfg.lookup label = some i) :
    m.Spoils (.obtain kind label) ↔
      kind.isCall = true ∧ m.topology.kindAt i = some .intra ∧ m.topology.outgoing i ≠ [] := by
  simp only [Spoils, h]

theorem not_spoils_obtain_of_plain (hentry : kind ≠ .entry) (hexit : kind ≠ .exit)
    (hkind : kind.isCall = false) : ¬ m.Spoils (.obtain kind label) := by
  cases hlookup : m.cfg.lookup label with
  | none => simp [spoils_obtain_of_lookup_none hlookup, hentry, hexit]
  | some i => simp [spoils_obtain_of_lookup hlookup, hkind]

instance (m : Method V) : (call : Call V) → Decidable (m.Spoils call)
  | .obtain _ label =>
    match hlookup : m.cfg.lookup label with
    | none => decidable_of_iff _ (spoils_obtain_of_lookup_none hlookup).symm
    | some _ => decidable_of_iff _ (spoils_obtain_of_lookup hlookup).symm
  | .intra _ _ _ | .call _ _ _ _ _ | .add _ _ | .transition _ _ _ _ | .update | .record _ _
  | .printAll | .printInterproc | .printNode _ => .isFalse fun h => h

instance decidableCareful : (m : Method V) → (calls : List (Call V)) → Decidable (m.Careful calls)
  | _, [] => .isTrue trivial
  | m, call :: calls =>
    have := decidableCareful (call.command.leaves m) calls
    inferInstanceAs (Decidable (¬ m.Spoils call ∧ (call.command.leaves m).Careful calls))

/-- A call that spoils the shape is never refused. -/
theorem not_spoils_obtain_of_error {e : Error} (h : m.obtainNode kind label = .error e) :
    ¬ m.Spoils (.obtain kind label) := by
  cases hlookup : m.cfg.lookup label with
  | none =>
    rw [obtainNode_of_lookup_none hlookup] at h
    cases h
  | some i =>
    rw [spoils_obtain_of_lookup hlookup]
    rintro ⟨hcall, hintra, -⟩
    rw [kindAt_topology] at hintra
    obtain ⟨n, hn, hkind⟩ := Option.map_eq_some_iff.1 hintra
    obtain ⟨m', hm'⟩ := exists_obtainNode_of_lookup hlookup hn (.inr ⟨hkind, hcall⟩)
    rw [hm'] at h
    cases h

variable (hm : m.topology.Based)
include hm

/-- A node that is asked for builds the topology, and keeps its shape unless the call spoils it.
-/
theorem builds_obtainNode (h : m.obtainNode kind label = .ok (m', i)) :
    m.topology.Builds m'.topology (¬ m.Spoils (.obtain kind label)) := by
  rcases places_obtainNode h with
    ⟨hplaces, ⟨hnone, hlookup⟩ | ⟨hcall, hlookup⟩⟩ | ⟨rfl, hlookup, found, hfound, hkind⟩
  · -- The node is new.
    refine (hm.builds_places hplaces (.inl hnone)).of_iff ?_
    rw [spoils_obtain_of_lookup_none hlookup, not_or]
    simp [hm.outgoing_of_kindAt_none hnone]
  · -- A plain node becomes a call site.
    refine (hm.builds_places hplaces (.inr hcall)).of_iff ?_
    rw [spoils_obtain_of_lookup hlookup]
    have hintra : m.topology.kindAt i = some .intra := by
      rcases hplaces.before with hnone | hintra
      · obtain ⟨n, hn, -⟩ := exists_node_of_lookup hlookup
        rw [kindAt_topology, hn] at hnone
        cases hnone
      · exact hintra
    cases kind <;> simp_all [NodeKind.isCall]
  · -- The node is found as it is.
    refine hm.builds_self.of_iff ?_
    rw [spoils_obtain_of_lookup hlookup, true_iff, hfound]
    rintro ⟨hcall, hintra, -⟩
    cases hintra
    rcases hkind with rfl | ⟨rfl, -⟩
    · cases hcall
    · cases hcall

theorem builds_obtainNode_of_plain (h : m.obtainNode kind label = .ok (m', i))
    (hentry : kind ≠ .entry) (hexit : kind ≠ .exit) (hkind : kind.isCall = false) :
    m.topology.Builds m'.topology True := by
  refine (builds_obtainNode hm h).of_iff ?_
  rw [iff_true]
  exact not_spoils_obtain_of_plain hentry hexit hkind

/-! ## Statements and calls keep the shape -/

/-- A statement keeps the shape. -/
theorem builds_addIntra {src dst : String} {action : ActionInstance}
    (h : m.addIntra src dst action = .ok m') : m.topology.Builds m'.topology True := by
  obtain ⟨m₁, i, m₂, j, hsrc, hdst, rfl⟩ := addIntra_cases h
  obtain ⟨found, hfound, hplain⟩ := kindAt_obtainNode_intra hsrc
  have hfirst := builds_obtainNode_of_plain hm hsrc (by decide) (by decide) rfl
  obtain ⟨hsecond, hi, hj⟩ : m₁.topology.Builds m₂.topology True ∧
      m₂.topology.kindAt i = some found ∧ m₂.topology.kindAt j ≠ none := by
    rcases hdst with ⟨hlookup, rfl⟩ | ⟨hlookup, hnew⟩
    · obtain ⟨n, hn, -⟩ := exists_node_of_lookup hlookup
      refine ⟨hfirst.based.builds_self, hfound, ?_⟩
      rw [kindAt_topology, hn]
      exact Option.some_ne_none n.kind
    · obtain ⟨hplaces, hnone⟩ := places_createNode hnew
      have hij : i ≠ j := by
        rintro rfl
        rw [hnone] at hfound
        cases hfound
      refine ⟨?_, (hplaces.kindAt_of_ne hij).trans hfound, ?_⟩
      · have hdst : m₁.obtainNode .intra dst = .ok (m₂, j) := by
          rw [obtainNode_of_lookup_none hlookup, hnew]
        exact builds_obtainNode_of_plain hfirst.based hdst (by decide) (by decide) rfl
      · rw [hplaces.kindAt_self]
        exact Option.some_ne_none NodeKind.intra
  have hsuits : m₂.topology.Suits ⟨i, j, .intra action⟩ := by
    refine ⟨⟨found, hi, ?_⟩, hj, fun hlabel => ?_, fun hlabel => ?_⟩
    · rw [hplain]
      rfl
    · cases hlabel
    · cases hlabel
  have hthird := hsecond.based.builds_joins (m₂.joins_addEdge i j (.intra action)) hsuits
  refine (hfirst.trans (hsecond.trans hthird)).of_iff ?_
  simp

section Calls

variable {callee : MethodKind} {src dst : String}
  (hcheck : m.checkCall callee.callSite src dst = .ok ())
include hcheck

theorem not_spoils_obtain_callSite : ¬ m.Spoils (.obtain callee.callSite src) := by
  cases hlookup : m.cfg.lookup src with
  | none =>
    rw [spoils_obtain_of_lookup_none hlookup]
    cases callee <;> decide
  | some i =>
    rw [spoils_obtain_of_lookup hlookup]
    rintro ⟨-, hintra, hsome⟩
    exact hsome (outgoing_of_plain hm.passes hcheck hlookup hintra)

/-- A call site without a return site has no edge. -/
theorem outgoing_of_returnSite?_none (hsrc : m.obtainNode callee.callSite src = .ok (m', i))
    (hnone : m'.cfg.returnSite? i = none) : m'.topology.outgoing i = [] := by
  have hfound : m'.topology.outgoing i = m.topology.outgoing i → m.cfg.lookup src = some i →
      m'.topology.outgoing i = [] := by
    intro hsame hlookup
    obtain ⟨n, hn, -⟩ := exists_node_of_lookup hlookup
    obtain ⟨-, -, hchecked⟩ := checkCall_eq_ok hcheck
    rw [outgoing_topology, outgoing_topology] at hsame
    rw [outgoing_topology, hsame]
    rcases checkEdge_eq_ok (hchecked i n hlookup hn).2 with hnil | ⟨e, hout, -, hlabel, -⟩
    · exact hnil
    · simp [Cfg.returnSite?, hsame, hout, hlabel] at hnone
  rcases places_obtainNode hsrc with ⟨hplaces, ⟨hnew, -⟩ | ⟨-, hlookup⟩⟩ | ⟨rfl, hlookup, -⟩
  · rw [hplaces.outgoing_eq]
    exact hm.outgoing_of_kindAt_none hnew
  · exact hfound (hplaces.outgoing_eq i) hlookup
  · exact hfound rfl hlookup

end Calls

/-- So does a call, whose site has no other edge. -/
theorem builds_addCall {callee : MethodKind} {src dst signature : String} {args : List String}
    (h : m.addCall callee src dst signature args = .ok m') :
    m.topology.Builds m'.topology True := by
  obtain ⟨hcheck, m₁, i, hsrc, hrest⟩ := addCall_cases h
  have hfirst : m.topology.Builds m₁.topology True := by
    refine (builds_obtainNode hm hsrc).of_iff ?_
    rw [iff_true]
    exact not_spoils_obtain_callSite hm hcheck
  rcases hrest with ⟨-, rfl⟩ | ⟨hnone, m₂, j, hdst, rfl⟩
  · exact hfirst
  · have hsecond := builds_obtainNode_of_plain hfirst.based hdst (by decide) (by decide) rfl
    have hcall : m₂.topology.kindAt i = some callee.callSite :=
      kindAt_obtainNode_of_ne_intra hdst (kindAt_obtainNode hsrc callee.callSite_ne_intra)
        callee.callSite_ne_intra
    have hreturn : m₂.topology.kindAt j = some .returnSite := kindAt_obtainNode hdst (by decide)
    have hnil : m₂.topology.outgoing i = [] := by
      rw [Topology.outgoing, edges_obtainNode hdst]
      exact outgoing_of_returnSite?_none hm hcheck hsrc hnone
    have hsuits : m₂.topology.Suits ⟨i, j, .callToReturn (invocationText signature args)⟩ := by
      refine ⟨⟨callee.callSite, hcall, ?_⟩, ?_, fun _ => hnil, fun _ => hreturn⟩
      · simp [callee.isCall_callSite, FlowLabel.isCallToReturn]
      · rw [hreturn]
        exact Option.some_ne_none NodeKind.returnSite
    have hthird := hsecond.based.builds_joins (m₂.joins_addEdge i j _) hsuits
    refine (hfirst.trans (hsecond.trans hthird)).of_iff ?_
    simp

end Building

/-! ## Runs -/

section Runs

variable {m m' : Method V} (hm : m.topology.Based)
include hm

theorem builds_of_topology_eq (h : m'.topology = m.topology) :
    m.topology.Builds m'.topology True := by
  rw [h]
  exact hm.builds_self

theorem builds_settle {α : Type} {left : α → Method V} {x : Except Error α}
    (h : ∀ a, x = .ok a → m.topology.Builds (left a).topology True) :
    m.topology.Builds (settle m left x).topology True :=
  settle_keeps (P := fun m' : Method V => m.topology.Builds m'.topology True) hm.builds_self h

/-- So a call keeps the shape unless it spoils it. -/
theorem builds_perform (call : Call V) :
    m.topology.Builds (m.perform call).topology (¬ m.Spoils call) := by
  have hother : m.topology.Builds (m.perform call).topology True → ¬ m.Spoils call →
      m.topology.Builds (m.perform call).topology (¬ m.Spoils call) := by
    intro h hcall
    exact h.of_iff (iff_of_true trivial hcall)
  cases call with
  | obtain kind label =>
    show m.topology.Builds (settle m Prod.fst (m.obtainNode kind label)).topology _
    cases h : m.obtainNode kind label with
    | ok r => exact builds_obtainNode hm h
    | error e =>
      refine hm.builds_self.of_iff ?_
      rw [true_iff]
      exact not_spoils_obtain_of_error h
  | intra src dst action =>
    exact hother (builds_settle hm fun _ h => builds_addIntra hm h) fun h => h
  | call kind src dst callee args =>
    exact hother (builds_settle hm fun _ h => builds_addCall hm h) fun h => h
  | add site s =>
    exact hother
      (builds_settle hm fun _ h => builds_of_topology_eq hm (topology_addStructure h)) fun h => h
  | transition src f dst f' =>
    exact hother
      (builds_settle hm fun _ h => builds_of_topology_eq hm (topology_addTransition h)) fun h => h
  | update => exact hother hm.builds_self fun h => h
  | record f ms => exact hother hm.builds_self fun h => h
  | printAll => exact hother (builds_of_topology_eq hm m.topology_printAll) fun h => h
  | printInterproc => exact hother (builds_of_topology_eq hm m.topology_printInterproc) fun h => h
  | printNode label =>
    exact hother
      (builds_settle hm fun _ h => builds_of_topology_eq hm (topology_printNode h)) fun h => h

/-- A run keeps the shape just if it is careful. -/
theorem builds_execAll (calls : List (Call V)) :
    m.topology.Builds (m.execAll calls).topology (m.Careful calls) := by
  induction calls generalizing m with
  | nil => exact hm.builds_self
  | cons call calls ih =>
    have hstep := builds_perform hm call
    rw [← leaves_command] at hstep
    exact hstep.trans (ih hstep.based)

end Runs

section New

variable {id : MethodId} {signature : String} {kind : MethodKind} {entry exit : String}
  {mode : JoinMode} {m : Method V} (h : new id signature kind entry exit mode = .ok m)
include h

/-- A new method is shaped. -/
theorem shaped_new : m.topology.Shaped := by
  have hwired := wired_new h
  refine ⟨hwired.entry, hwired.exit, fun i found hi hcall e he => ?_, hwired.passes⟩
  obtain ⟨e', hout, hlabel, hdst⟩ := hwired.returns i found hi hcall (by simp)
  rw [hout, List.mem_singleton] at he
  subst he
  exact ⟨hout, hlabel, hdst⟩

theorem based_new : m.topology.Based := by
  have hwired := wired_new h
  have hedges : m.topology.edges = [] := by
    obtain ⟨-, rfl⟩ := new_eq_ok h
    rfl
  refine ⟨hwired.entry.exists, hwired.exit.exists, hwired.leaves, fun e he => ?_, hwired.passes⟩
  rw [hedges] at he
  cases he

end New

/-- When a method keeps its shape.  After any run there are an entry and an exit, the ends
of edges are nodes, and only call sites have an edge that passes over a call.  The method
is shaped exactly if no call of the run spoiled the shape. -/
theorem shaped_iff_careful {id : MethodId} {signature : String} {kind : MethodKind}
    {entry exit : String} {mode : JoinMode} {m : Method V}
    (h : new id signature kind entry exit mode = .ok m) (calls : List (Call V)) :
    (m.execAll calls).topology.Based ∧
      ((m.execAll calls).topology.Shaped ↔ m.Careful calls) := by
  have hbuilds := builds_execAll (based_new h) calls
  refine ⟨hbuilds.based, ?_⟩
  rw [hbuilds.shaped_iff, and_iff_right (shaped_new h)]

/-- A plain node becomes a call site, which then gets its edge.  A statement from there is
refused, and so is its use as an exit. -/
def promotionCalls : List (Call Vocabulary.empty) :=
  [.intra "in" "at" default, .obtain .staticCall "at", .call .static "at" "back" "g" [],
    .intra "at" "out" default, .obtain .exit "at", .intra "back" "out" default]

theorem shaped_promotionCalls :
    ∃ m : Method Vocabulary.empty, new 0 "f" .static "in" "out" .relational = .ok m ∧
      (m.execAll promotionCalls).topology.kindAt 2 = some .staticCall ∧
      (m.execAll promotionCalls).topology.Shaped := by
  obtain ⟨m, hm⟩ : ∃ m : Method Vocabulary.empty,
    new 0 "f" .static "in" "out" .relational = .ok m := ⟨_, rfl⟩
  refine ⟨m, hm, ?_, (shaped_iff_careful hm promotionCalls).2.2 ?_⟩
  · cases hm
    decide
  · cases hm
    decide

/-- A statement leaves the node that becomes a call site, or a second entry is created. -/
theorem not_shaped_obtain :
    ∃ m : Method Vocabulary.empty, new 0 "f" .static "in" "out" .relational = .ok m ∧
      ¬ (m.execAll [.intra "at" "out" default, .obtain .staticCall "at"]).topology.Shaped ∧
      ¬ (m.execAll [.obtain .entry "in2"]).topology.Shaped := by
  obtain ⟨m, hm⟩ : ∃ m : Method Vocabulary.empty,
    new 0 "f" .static "in" "out" .relational = .ok m := ⟨_, rfl⟩
  refine ⟨m, hm, fun hshaped => ?_, fun hshaped => ?_⟩
  · have hcareful := ((builds_execAll (based_new hm) _).shaped_iff.1 hshaped).2
    cases hm
    revert hcareful
    decide
  · have hcareful := ((builds_execAll (based_new hm) _).shaped_iff.1 hshaped).2
    cases hm
    revert hcareful
    decide

end Method

end ShapeAnalysis
