import Mathlib.Logic.ExistsUnique
import ShapeAnalysis.Proofs.Method

/-!
# The topology of a method

The topology of a method is what building it decides: its nodes with their labels
and kinds, and its edges.  It is *wired* when it has one entry and one exit, every
call site has one edge, which passes over the call to a return site, and no other
node has such an edge.

A call is added in steps between which the call site has no edge yet.  `Wired`
therefore allows for one call site that is pending.
-/

namespace ShapeAnalysis

namespace MethodKind

theorem isCall_callSite (kind : MethodKind) : kind.callSite.isCall = true := by
  cases kind <;> rfl

theorem callSite_ne_intra (kind : MethodKind) : kind.callSite ≠ .intra := by
  cases kind <;> decide

theorem callSite_inj {kind kind' : MethodKind} : kind.callSite = kind'.callSite ↔ kind = kind' := by
  cases kind <;> cases kind' <;> decide

end MethodKind

namespace Method

variable {V : Vocabulary}

/-- What building a method decides. -/
structure Topology where
  /-- The number of the method. -/
  id : MethodId
  /-- Its signature. -/
  signature : String
  /-- Its kind. -/
  kind : MethodKind
  /-- The labels and kinds of its nodes. -/
  nodes : List (String × NodeKind)
  /-- Its edges. -/
  edges : List FlowEdge
deriving DecidableEq

/-- The topology of a method. -/
def topology (m : Method V) : Topology where
  id := m.id
  signature := m.signature
  kind := m.kind
  nodes := m.cfg.nodes.map fun n => (n.label, n.kind)
  edges := m.cfg.edges

namespace Topology

/-- The kind of the node at a site. -/
def kindAt (t : Topology) (i : Site) : Option NodeKind := (t.nodes[i]?).map Prod.snd

/-- The edges that leave a node. -/
def outgoing (t : Topology) (i : Site) : List FlowEdge := t.edges.filter fun e => e.src = i

/-- Nodes and edges fit together, but for a call site that may wait for its edge. -/
structure Wired (t : Topology) (pending : Option Site := none) : Prop where
  /-- There is one entry. -/
  entry : ∃! i, t.kindAt i = some .entry
  /-- There is one exit. -/
  exit : ∃! i, t.kindAt i = some .exit
  /-- Edges leave nodes. -/
  leaves : ∀ e ∈ t.edges, t.kindAt e.src ≠ none
  /-- The one edge of a call site passes over the call to a return site. -/
  returns : ∀ i kind, t.kindAt i = some kind → kind.isCall = true → pending ≠ some i →
    ∃ e, t.outgoing i = [e] ∧ e.label.isCallToReturn = true ∧ t.kindAt e.dst = some .returnSite
  /-- Only call sites have such an edge. -/
  passes : ∀ e ∈ t.edges, e.label.isCallToReturn = true →
    ∃ kind, t.kindAt e.src = some kind ∧ kind.isCall = true

/-! ## A node gets its kind -/

/-- A node that is new or plain becomes a node of a kind. -/
structure Places (t t' : Topology) (i : Site) (kind : NodeKind) : Prop where
  method : t'.kind = t.kind
  edges : t'.edges = t.edges
  before : t.kindAt i = none ∨ t.kindAt i = some .intra
  after : ∀ k, t'.kindAt k = if k = i then some kind else t.kindAt k

section Places

variable {t t' : Topology} {i : Site} {kind : NodeKind} (h : Places t t' i kind)
include h

theorem Places.kindAt_self : t'.kindAt i = some kind := by
  rw [h.after, if_pos rfl]

theorem Places.kindAt_of_ne {k : Site} (hk : k ≠ i) : t'.kindAt k = t.kindAt k := by
  rw [h.after, if_neg hk]

/-- A node of another kind than plain is not the one that changes. -/
theorem Places.kindAt_eq {k : Site} {other : NodeKind} (hk : t.kindAt k = some other)
    (hother : other ≠ .intra) : t'.kindAt k = some other := by
  have hne : k ≠ i := by
    rintro rfl
    rcases h.before with hnone | hintra
    · rw [hnone] at hk
      cases hk
    · rw [hintra] at hk
      cases hk
      exact hother rfl
  rw [h.kindAt_of_ne hne, hk]

theorem Places.existsUnique {other : NodeKind} (hother : other ≠ .intra) (hkind : kind ≠ other)
    (hold : ∃! k, t.kindAt k = some other) : ∃! k, t'.kindAt k = some other := by
  obtain ⟨k, hk, hunique⟩ := hold
  refine ⟨k, h.kindAt_eq hk hother, fun j hj => ?_⟩
  dsimp only at hj
  rw [h.after] at hj
  split at hj
  · cases hj
    exact absurd rfl hkind
  · exact hunique j hj

theorem Places.wired {pending pending' : Option Site} (ht : t.Wired pending)
    (hentry : kind ≠ .entry) (hexit : kind ≠ .exit)
    (hold : ∀ k, pending = some k → pending' = some k)
    (hnew : kind.isCall = true → pending' = some i) : t'.Wired pending' := by
  refine ⟨h.existsUnique (by decide) hentry ht.entry, h.existsUnique (by decide) hexit ht.exit,
    fun e he => ?_, fun k other hk hcall hpending => ?_, fun e he hlabel => ?_⟩
  · rw [h.edges] at he
    rw [h.after]
    split
    · exact Option.some_ne_none _
    · exact ht.leaves e he
  · rw [h.after] at hk
    split at hk
    · rename_i hki
      cases hk
      exact absurd (hki ▸ hnew hcall) hpending
    · obtain ⟨e, hout, hlabel, hdst⟩ := ht.returns k other hk hcall fun hp => hpending (hold k hp)
      refine ⟨e, ?_, hlabel, h.kindAt_eq hdst (by decide)⟩
      rw [outgoing, h.edges]
      exact hout
  · rw [h.edges] at he
    obtain ⟨other, hsrc, hcall⟩ := ht.passes e he hlabel
    refine ⟨other, h.kindAt_eq hsrc ?_, hcall⟩
    rintro rfl
    cases hcall

/-- The call sites are those there were, and the node if it became one. -/
theorem Places.kindAt_callSite_iff (k : Site) (callee : MethodKind) :
    t'.kindAt k = some callee.callSite ↔
      k = i ∧ kind = callee.callSite ∨ t.kindAt k = some callee.callSite := by
  constructor
  · intro hk
    rw [h.after] at hk
    split at hk
    · exact .inl ⟨‹_›, Option.some.inj hk⟩
    · exact .inr hk
  · rintro (⟨rfl, rfl⟩ | hk)
    · exact h.kindAt_self
    · exact h.kindAt_eq hk callee.callSite_ne_intra

section Plain

variable (hkind : kind.isCall = false)
include hkind

theorem Places.kindAt_callSite_iff_of_plain (k : Site) (callee : MethodKind) :
    t'.kindAt k = some callee.callSite ↔ t.kindAt k = some callee.callSite := by
  rw [h.kindAt_callSite_iff, or_iff_right]
  rintro ⟨-, rfl⟩
  rw [callee.isCall_callSite] at hkind
  cases hkind

theorem Places.wired_of_plain {pending : Option Site} (ht : t.Wired pending)
    (hentry : kind ≠ .entry) (hexit : kind ≠ .exit) : t'.Wired pending := by
  refine h.wired ht hentry hexit (fun _ hp => hp) fun hcall => ?_
  rw [hkind] at hcall
  cases hcall

end Plain

end Places

/-! ## A new edge -/

/-- An edge is added. -/
structure Joins (t t' : Topology) (e : FlowEdge) : Prop where
  method : t'.kind = t.kind
  edges : t'.edges = t.edges ++ [e]
  kinds : ∀ k, t'.kindAt k = t.kindAt k

section Joins

variable {t t' : Topology} {e : FlowEdge} (h : Joins t t' e)
include h

theorem Joins.outgoing_of_ne {k : Site} (hk : e.src ≠ k) : t'.outgoing k = t.outgoing k := by
  rw [outgoing, h.edges, List.filter_append]
  simp [hk, outgoing]

theorem Joins.outgoing_self : t'.outgoing e.src = t.outgoing e.src ++ [e] := by
  rw [outgoing, h.edges, List.filter_append]
  simp [outgoing]

/-- What an edge does not touch stays wired. -/
theorem Joins.wired {pending : Option Site} {src : NodeKind} (ht : t.Wired pending)
    (hsrc : t.kindAt e.src = some src)
    (hpasses : e.label.isCallToReturn = true → src.isCall = true)
    (hreturns : src.isCall = true → ∃ e', t'.outgoing e.src = [e'] ∧
      e'.label.isCallToReturn = true ∧ t.kindAt e'.dst = some .returnSite)
    (hpending : ∀ k, pending = some k → k = e.src) : t'.Wired := by
  refine ⟨?_, ?_, fun e' he => ?_, fun k kind hk hcall _ => ?_, fun e' he hlabel => ?_⟩
  · simpa only [h.kinds] using ht.entry
  · simpa only [h.kinds] using ht.exit
  · rw [h.kinds]
    rw [h.edges, List.mem_append, List.mem_singleton] at he
    rcases he with he | rfl
    · exact ht.leaves e' he
    · rw [hsrc]
      exact Option.some_ne_none _
  · simp only [h.kinds] at hk ⊢
    by_cases hke : e.src = k
    · subst hke
      rw [hsrc] at hk
      cases hk
      exact hreturns hcall
    · rw [h.outgoing_of_ne hke]
      exact ht.returns k kind hk hcall fun hp => hke (hpending k hp).symm
  · rw [h.kinds]
    rw [h.edges, List.mem_append, List.mem_singleton] at he
    rcases he with he | rfl
    · exact ht.passes e' he hlabel
    · exact ⟨src, hsrc, hpasses hlabel⟩

end Joins

end Topology

/-! ## Building steps -/

section Steps

variable {m m' : Method V}

theorem kindAt_topology (m : Method V) (i : Site) :
    m.topology.kindAt i = (m.cfg.node? i).map (·.kind) := by
  rw [Topology.kindAt, topology, List.getElem?_map, Option.map_map]
  rfl

theorem outgoing_topology (m : Method V) (i : Site) :
    m.topology.outgoing i = m.cfg.outgoing i := rfl

theorem joins_addEdge (m : Method V) (src dst : Site) (label : FlowLabel) :
    m.topology.Joins (m.addEdge src dst label).topology ⟨src, dst, label⟩ :=
  ⟨rfl, rfl, fun _ => rfl⟩

theorem places_createNode {kind : NodeKind} {label : String} {i : Site}
    (h : m.createNode kind label = (m', i)) :
    m.topology.Places m'.topology i kind ∧ m.topology.kindAt i = none := by
  obtain ⟨rfl, rfl⟩ : (m.createNode kind label).1 = m' ∧ m.cfg.nodes.length = i :=
    ⟨congrArg Prod.fst h, congrArg Prod.snd h⟩
  have hnone : m.topology.kindAt m.cfg.nodes.length = none := by
    simp [kindAt_topology, Cfg.node?]
  refine ⟨⟨rfl, rfl, .inl hnone, fun k => ?_⟩, hnone⟩
  rw [kindAt_topology, kindAt_topology]
  simp only [createNode, Cfg.addNode, Cfg.node?]
  by_cases hk : k = m.cfg.nodes.length
  · simp [hk]
  · rw [if_neg hk, List.getElem?_append]
    split
    · rfl
    · have hpast : m.cfg.nodes.length ≤ k := by omega
      have hrest : 1 ≤ k - m.cfg.nodes.length :=
        Nat.sub_pos_of_lt (Nat.lt_of_le_of_ne hpast (Ne.symm hk))
      rw [List.getElem?_eq_none hpast, List.getElem?_eq_none (by exact hrest)]

theorem places_modifyNode {kind : NodeKind} {i : Site} {n : FlowNode}
    (hn : m.cfg.node? i = some n) (hkind : n.kind = .intra) :
    m.topology.Places
      ({ m with cfg := m.cfg.modifyNode i fun n => { n with kind } } : Method V).topology i
      kind := by
  refine ⟨rfl, rfl, .inr ?_, fun k => ?_⟩
  · rw [kindAt_topology, hn, ← hkind]
    rfl
  · rw [kindAt_topology, kindAt_topology]
    simp only [Cfg.modifyNode, Cfg.node?, List.getElem?_modify] at hn ⊢
    by_cases hk : k = i
    · subst hk
      simp [hn]
    · simp [hk, Ne.symm hk]

/-- To obtain a node either gives it its kind or finds it as it is. -/
theorem places_obtainNode {kind : NodeKind} {label : String} {i : Site}
    (h : m.obtainNode kind label = .ok (m', i)) :
    (m.topology.Places m'.topology i kind ∧
        (m.topology.kindAt i = none ∧ m.cfg.lookup label = none ∨
          kind.isCall = true ∧ m.cfg.lookup label = some i)) ∨
      m' = m ∧ m.cfg.lookup label = some i ∧ ∃ found, m.topology.kindAt i = some found ∧
        (found = kind ∨ kind = .intra ∧ found.acceptsIntra = true) := by
  rcases obtainNode_cases h with
    ⟨hlookup, hnew⟩ | ⟨n, hlookup, hn, ⟨rfl, hkind⟩ | ⟨hintra, hcall, rfl⟩⟩
  · obtain ⟨hplaces, hnone⟩ := places_createNode hnew
    exact .inl ⟨hplaces, .inl ⟨hnone, hlookup⟩⟩
  · refine .inr ⟨rfl, hlookup, n.kind, ?_, hkind⟩
    rw [kindAt_topology, hn]
    rfl
  · exact .inl ⟨places_modifyNode hn hintra, .inr ⟨hcall, hlookup⟩⟩

theorem kindAt_obtainNode {kind : NodeKind} {label : String} {i : Site}
    (h : m.obtainNode kind label = .ok (m', i)) (hkind : kind ≠ .intra) :
    m'.topology.kindAt i = some kind := by
  rcases places_obtainNode h with ⟨hplaces, -⟩ | ⟨rfl, -, found, hfound, rfl | ⟨hintra, -⟩⟩
  · exact hplaces.kindAt_self
  · exact hfound
  · exact absurd hintra hkind

theorem edges_obtainNode {kind : NodeKind} {label : String} {i : Site}
    (h : m.obtainNode kind label = .ok (m', i)) : m'.topology.edges = m.topology.edges := by
  rcases places_obtainNode h with ⟨hplaces, -⟩ | ⟨rfl, -⟩
  · exact hplaces.edges
  · rfl

/-- A node of another kind than plain keeps its kind. -/
theorem kindAt_obtainNode_of_ne_intra {kind other : NodeKind} {label : String} {i k : Site}
    (h : m.obtainNode kind label = .ok (m', i)) (hk : m.topology.kindAt k = some other)
    (hother : other ≠ .intra) : m'.topology.kindAt k = some other := by
  rcases places_obtainNode h with ⟨hplaces, -⟩ | ⟨rfl, -⟩
  · exact hplaces.kindAt_eq hk hother
  · exact hk

/-- A node that serves as a plain one is no call site. -/
theorem kindAt_obtainNode_intra {label : String} {i : Site}
    (h : m.obtainNode .intra label = .ok (m', i)) :
    ∃ found, m'.topology.kindAt i = some found ∧ found.isCall = false := by
  rcases places_obtainNode h with ⟨hplaces, -⟩ | ⟨rfl, -, found, hfound, hkind⟩
  · exact ⟨.intra, hplaces.kindAt_self, rfl⟩
  · refine ⟨found, hfound, ?_⟩
    cases found <;> simp_all [NodeKind.acceptsIntra, NodeKind.isCall]

/-! ## Labels -/

theorem lookup_createNode {kind : NodeKind} {label : String} {i : Site}
    (hnone : m.cfg.lookup label = none) (h : m.createNode kind label = (m', i)) (other : String) :
    m'.cfg.lookup other = if other = label then some i else m.cfg.lookup other := by
  obtain ⟨rfl, rfl⟩ : (m.createNode kind label).1 = m' ∧ m.cfg.nodes.length = i :=
    ⟨congrArg Prod.fst h, congrArg Prod.snd h⟩
  unfold Cfg.lookup at hnone ⊢
  simp only [createNode, Cfg.addNode, List.findIdx?_append]
  by_cases hlabel : other = label
  · subst hlabel
    simp [hnone]
  · simp [hlabel, Ne.symm hlabel]

theorem lookup_obtainNode {kind : NodeKind} {label : String} {i : Site}
    (h : m.obtainNode kind label = .ok (m', i)) (other : String) :
    m'.cfg.lookup other = if other = label then some i else m.cfg.lookup other := by
  rcases obtainNode_cases h with ⟨hlookup, hnew⟩ | ⟨n, hlookup, -, ⟨rfl, -⟩ | ⟨-, -, rfl⟩⟩
  · exact lookup_createNode hlookup hnew other
  · by_cases hlabel : other = label
    · rw [if_pos hlabel, hlabel, hlookup]
    · rw [if_neg hlabel]
  · have hlabels : ∀ other, (m.cfg.modifyNode i fun n => { n with kind }).lookup other =
        m.cfg.lookup other := by
      intro other
      rw [Cfg.lookup_eq_findIdx?, Cfg.lookup_eq_findIdx?, Cfg.map_modifyNode (fun n => ?_)]
      rfl
    rw [hlabels]
    by_cases hlabel : other = label
    · rw [if_pos hlabel, hlabel, hlookup]
    · rw [if_neg hlabel]

end Steps

/-! ## Statements -/

section Statements

variable {m m' : Method V}

/-- A statement begins at a node that is no call site, and no call site comes in. -/
theorem wired_obtainNode_intra {label : String} {i : Site} (hm : m.topology.Wired)
    (h : m.obtainNode .intra label = .ok (m', i)) :
    m'.topology.Wired ∧ m'.topology.kind = m.topology.kind ∧
      (∃ found, m'.topology.kindAt i = some found ∧ found.isCall = false) ∧
      ∀ k (callee : MethodKind), m'.topology.kindAt k = some callee.callSite ↔
        m.topology.kindAt k = some callee.callSite := by
  have hplain := kindAt_obtainNode_intra h
  rcases places_obtainNode h with ⟨hplaces, -⟩ | ⟨rfl, -⟩
  · exact ⟨hplaces.wired_of_plain rfl hm (by decide) (by decide), hplaces.method, hplain,
      hplaces.kindAt_callSite_iff_of_plain rfl⟩
  · exact ⟨hm, rfl, hplain, fun k callee => Iff.rfl⟩

/-- A statement leaves the method wired and brings no call site. -/
theorem wired_addIntra {src dst : String} {action : ActionInstance} (hm : m.topology.Wired)
    (h : m.addIntra src dst action = .ok m') :
    m'.topology.Wired ∧ m'.topology.kind = m.topology.kind ∧
      ∀ k (callee : MethodKind), m'.topology.kindAt k = some callee.callSite ↔
        m.topology.kindAt k = some callee.callSite := by
  obtain ⟨m₁, i, m₂, j, hsrc, hdst, rfl⟩ := addIntra_cases h
  obtain ⟨hwired₁, hkind₁, ⟨found, hfound, hplain⟩, hsame₁⟩ := wired_obtainNode_intra hm hsrc
  have hjoins := m₂.joins_addEdge i j (.intra action)
  obtain ⟨hwired₂, hkind₂, hfound₂, hsame₂⟩ : m₂.topology.Wired ∧
      m₂.topology.kind = m₁.topology.kind ∧ m₂.topology.kindAt i = some found ∧
      ∀ k (callee : MethodKind), m₂.topology.kindAt k = some callee.callSite ↔
        m₁.topology.kindAt k = some callee.callSite := by
    rcases hdst with ⟨-, rfl⟩ | ⟨-, hnew⟩
    · exact ⟨hwired₁, rfl, hfound, fun _ _ => Iff.rfl⟩
    · obtain ⟨hplaces, hnone⟩ := places_createNode hnew
      have hij : i ≠ j := by
        rintro rfl
        rw [hnone] at hfound
        cases hfound
      exact ⟨hplaces.wired_of_plain rfl hwired₁ (by decide) (by decide), hplaces.method,
        (hplaces.kindAt_of_ne hij).trans hfound, hplaces.kindAt_callSite_iff_of_plain rfl⟩
  refine ⟨?_, hjoins.method.trans (hkind₂.trans hkind₁), fun k callee => ?_⟩
  · refine hjoins.wired hwired₂ hfound₂ (fun hlabel => ?_) (fun hcall => ?_) (fun _ hp => ?_)
    · cases hlabel
    · rw [hplain] at hcall
      cases hcall
    · cases hp
  · rw [hjoins.kinds, hsame₂, hsame₁]

end Statements

/-! ## Calls -/

section Calls

variable {m m' : Method V} {kind : MethodKind} {src dst : String} {i : Site}

theorem returnSite?_eq_none (h : m.topology.outgoing i = []) : m.cfg.returnSite? i = none := by
  rw [outgoing_topology] at h
  simp [Cfg.returnSite?, h]

/-- A call that passes its checks finds no edge at a plain node. -/
theorem outgoing_of_plain (hpasses : ∀ e ∈ m.topology.edges, e.label.isCallToReturn = true →
      ∃ found, m.topology.kindAt e.src = some found ∧ found.isCall = true)
    (hcheck : m.checkCall kind.callSite src dst = .ok ()) (hlookup : m.cfg.lookup src = some i)
    (hintra : m.topology.kindAt i = some .intra) : m.topology.outgoing i = [] := by
  obtain ⟨n, hn, hkind⟩ : ∃ n, m.cfg.node? i = some n ∧ n.kind = .intra := by
    rw [kindAt_topology] at hintra
    exact Option.map_eq_some_iff.1 hintra
  obtain ⟨-, -, hsrc⟩ := checkCall_eq_ok hcheck
  rcases checkEdge_eq_ok (hsrc i n hlookup hn).2 with hnil | ⟨e, hout, -, hlabel, -⟩
  · exact hnil
  · -- The edge would pass over a call, which no edge of a plain node does.
    have hmem : e ∈ m.topology.outgoing i := by
      rw [outgoing_topology, hout]
      exact List.mem_singleton_self e
    obtain ⟨hedge, hei⟩ := List.mem_filter.1 hmem
    obtain ⟨other, hother, hcall⟩ := hpasses e hedge hlabel
    rw [of_decide_eq_true hei, hintra] at hother
    cases hother
    cases hcall

/-- A node that becomes a call site has no edge. -/
theorem outgoing_of_places (hm : m.topology.Wired)
    (hcheck : m.checkCall kind.callSite src dst = .ok ())
    (hplaces : m.topology.Places m'.topology i kind.callSite)
    (hlookup : m.topology.kindAt i = none ∨ m.cfg.lookup src = some i) :
    m.topology.outgoing i = [] := by
  have hno : m.topology.kindAt i = none → m.topology.outgoing i = [] := by
    intro hnone
    rw [Topology.outgoing, List.filter_eq_nil_iff]
    intro e he hsrc
    refine hm.leaves e he ?_
    rw [of_decide_eq_true hsrc, hnone]
  rcases hplaces.before with hnone | hintra
  · exact hno hnone
  · rcases hlookup with hnone | hlookup
    · exact hno hnone
    · exact outgoing_of_plain hm.passes hcheck hlookup hintra

/-- The return site is placed or found, whatever call site is pending. -/
theorem wired_obtainNode_returnSite {pending : Option Site} {j : Site}
    (hm : m.topology.Wired pending) (h : m.obtainNode .returnSite dst = .ok (m', j)) :
    m'.topology.Wired pending ∧ m'.topology.kind = m.topology.kind ∧
      m'.topology.edges = m.topology.edges ∧ m'.topology.kindAt j = some .returnSite ∧
      ∀ k (callee : MethodKind), m'.topology.kindAt k = some callee.callSite ↔
        m.topology.kindAt k = some callee.callSite := by
  rcases places_obtainNode h with ⟨hplaces, -⟩ | ⟨rfl, -, found, hfound, rfl | ⟨hintra, -⟩⟩
  · exact ⟨hplaces.wired_of_plain rfl hm (by decide) (by decide), hplaces.method, hplaces.edges,
      hplaces.kindAt_self, hplaces.kindAt_callSite_iff_of_plain rfl⟩
  · exact ⟨hm, rfl, rfl, hfound, fun _ _ => Iff.rfl⟩
  · cases hintra

/-- The call site that is pending gets its edge. -/
theorem wired_addEdge_return {j : Site} (hm : m.topology.Wired (some i))
    (hcall : m.topology.kindAt i = some kind.callSite) (hnil : m.topology.outgoing i = [])
    (hreturn : m.topology.kindAt j = some .returnSite) (invocation : String) :
    (m.addEdge i j (.callToReturn invocation)).topology.Wired := by
  have hjoins := m.joins_addEdge i j (.callToReturn invocation)
  have hone : (m.addEdge i j (.callToReturn invocation)).topology.outgoing i =
      [⟨i, j, .callToReturn invocation⟩] := by
    rw [hjoins.outgoing_self]
    exact congrArg (· ++ _) hnil
  refine hjoins.wired hm hcall (fun _ => kind.isCall_callSite)
    (fun _ => ⟨_, hone, rfl, hreturn⟩) fun k hp => ?_
  exact (Option.some.inj hp).symm

/-- A call leaves the method wired, and its call site is the only one that may come
in. -/
theorem wired_addCall {callee : String} {args : List String} (hm : m.topology.Wired)
    (h : m.addCall kind src dst callee args = .ok m') :
    m'.topology.Wired ∧ m'.topology.kind = m.topology.kind ∧
      ∃ i, m'.cfg.lookup src = some i ∧ ∀ k (other : MethodKind),
        m'.topology.kindAt k = some other.callSite ↔
          k = i ∧ other = kind ∨ m.topology.kindAt k = some other.callSite := by
  obtain ⟨hcheck, m₁, i, hsrc, hrest⟩ := addCall_cases h
  have hlookup : m₁.cfg.lookup src = some i := by
    rw [lookup_obtainNode hsrc, if_pos rfl]
  rcases places_obtainNode hsrc with ⟨hplaces, hwhere⟩ | ⟨rfl, -, found, hfound, hkind⟩
  · -- The call site is new or was plain, so it has no edge and gets one now.
    have hnil : m.topology.outgoing i = [] := by
      refine outgoing_of_places hm hcheck hplaces ?_
      rcases hwhere with ⟨hnone, -⟩ | ⟨-, hsome⟩
      · exact .inl hnone
      · exact .inr hsome
    have hnil₁ : m₁.topology.outgoing i = [] := by
      rw [Topology.outgoing, hplaces.edges]
      exact hnil
    rcases hrest with ⟨hsome, -⟩ | ⟨-, m₂, j, hdst, rfl⟩
    · rw [returnSite?_eq_none hnil₁] at hsome
      cases hsome
    · have hwired₁ : m₁.topology.Wired (some i) :=
        hplaces.wired hm (by cases kind <;> decide) (by cases kind <;> decide)
          (fun _ hp => by cases hp) fun _ => rfl
      obtain ⟨hwired₂, hkind₂, hedges₂, hreturn, hsame₂⟩ :=
        wired_obtainNode_returnSite hwired₁ hdst
      have hcall : m₂.topology.kindAt i = some kind.callSite :=
        (hsame₂ i kind).2 hplaces.kindAt_self
      have hnil₂ : m₂.topology.outgoing i = [] := by
        rw [Topology.outgoing, hedges₂]
        exact hnil₁
      have hjoins := m₂.joins_addEdge i j (.callToReturn (invocationText callee args))
      refine ⟨wired_addEdge_return hwired₂ hcall hnil₂ hreturn _,
        hjoins.method.trans (hkind₂.trans hplaces.method), i, ?_, fun k other => ?_⟩
      · obtain ⟨hne, -⟩ := checkCall_eq_ok hcheck
        exact (lookup_obtainNode hdst src).trans ((if_neg hne).trans hlookup)
      · rw [hjoins.kinds, hsame₂, hplaces.kindAt_callSite_iff, MethodKind.callSite_inj,
          eq_comm (a := kind)]
  · -- Another candidate shares the edge.
    rcases hkind with rfl | ⟨hintra, -⟩
    · obtain ⟨e, hout, hlabel, -⟩ := hm.returns i _ hfound kind.isCall_callSite (by simp)
      rcases hrest with ⟨-, rfl⟩ | ⟨hnone, -⟩
      · refine ⟨hm, rfl, i, hlookup, fun k other => ⟨.inr, ?_⟩⟩
        rintro (⟨rfl, rfl⟩ | hk)
        · exact hfound
        · exact hk
      · rw [outgoing_topology] at hout
        simp [Cfg.returnSite?, hout, hlabel] at hnone
    · exact absurd hintra kind.callSite_ne_intra

end Calls

/-! ## New methods -/

section New

variable {id : MethodId} {signature : String} {kind : MethodKind} {entry exit : String}
  {mode : JoinMode} {m : Method V} (h : new id signature kind entry exit mode = .ok m)
include h

theorem kindAt_new_iff {i : Site} {found : NodeKind} : m.topology.kindAt i = some found ↔
    i = 0 ∧ found = .entry ∨ i = 1 ∧ found = .exit := by
  obtain ⟨-, rfl⟩ := new_eq_ok h
  rw [kindAt_topology]
  match i with
  | 0 => simp [Cfg.node?, eq_comm]
  | 1 => simp [Cfg.node?, eq_comm]
  | i + 2 => simp [Cfg.node?]

theorem wired_new : m.topology.Wired := by
  have hedges : m.topology.edges = [] := by
    obtain ⟨-, rfl⟩ := new_eq_ok h
    rfl
  refine ⟨⟨0, by simp [kindAt_new_iff h], fun i hi => ?_⟩,
    ⟨1, by simp [kindAt_new_iff h], fun i hi => ?_⟩, fun e he => ?_,
    fun i found hi hcall => ?_, fun e he => ?_⟩
  · simpa [kindAt_new_iff h] using hi
  · simpa [kindAt_new_iff h] using hi
  · rw [hedges] at he
    cases he
  · rcases (kindAt_new_iff h).1 hi with ⟨-, rfl⟩ | ⟨-, rfl⟩
    · cases hcall
    · cases hcall
  · rw [hedges] at he
    cases he

end New

/-! ## What leaves the topology alone -/

section Same

variable {m m' : Method V}

theorem topology_addStructure {site : Site} {s : Structure V} {changed : Bool} {f : Fact}
    (h : m.addStructure site s = .ok (m', changed, f)) : m'.topology = m.topology := by
  obtain ⟨n, store, -, -, rfl⟩ := addStructure_eq_ok h
  rfl

theorem topology_addTransition {src dst : Site} {f f' : Fact} {new : Bool}
    (h : m.addTransition src f dst f' = .ok (m', new)) : m'.topology = m.topology := by
  obtain ⟨g, -, rfl⟩ := addTransition_eq_ok h
  rfl

theorem topology_cfg {cfg : Cfg} (hedges : cfg.edges = m.cfg.edges)
    (hnodes : cfg.nodes.map (fun n => (n.label, n.kind)) =
      m.cfg.nodes.map fun n => (n.label, n.kind)) :
    ({ m with cfg } : Method V).topology = m.topology := by
  simp only [topology, hedges, hnodes]

theorem topology_printAll (m : Method V) : m.printAll.topology = m.topology := by
  refine topology_cfg rfl (Cfg.map_mapNodes (fun n => ?_) m.cfg)
  rfl

theorem topology_printInterproc (m : Method V) : m.printInterproc.topology = m.topology := by
  refine topology_cfg rfl (Cfg.map_mapNodes (fun n => ?_) m.cfg)
  split <;> rfl

theorem topology_printNode {label : String} (h : m.printNode label = .ok m') :
    m'.topology = m.topology := by
  unfold printNode at h
  split at h
  · rename_i i hlookup
    cases h
    refine topology_cfg rfl (Cfg.map_modifyNode (fun n => ?_) m.cfg i)
    rfl
  · cases h

end Same

end Method

end ShapeAnalysis
