import Mathlib.Data.List.Perm.Basic
import ShapeAnalysis.Proofs.Agreement
import ShapeAnalysis.Proofs.DepthFirst
import ShapeAnalysis.Proofs.Shape

/-!
# The order of reports

A report goes through the nodes of a method in depth-first order, and at each node through
the slots of its state.  It leaves nothing out and repeats nothing.  The order has every
node once, since a search has every node that can be reached once and the others follow
(`Cfg.visits_completed`).  Every node has a state of its own, and every slot belongs to one
state (`StateStore.Owned`).  So the report has every slot once, and with it every structure
of the store (`reports_everything_once`).

None of this needs well-formed structures or a shaped method.  Nodes may be out of reach,
and edges may run in circles or beside each other.
-/

namespace ShapeAnalysis

/-! ## Control flow -/

namespace Cfg

/-- A path of edges leads from one node to another. -/
def Leads (g : Cfg) : Site → Site → Prop :=
  Relation.ReflTransGen fun i j => ∃ e ∈ g.edges, e.src = i ∧ e.dst = j

/-- An order has every node once.  It begins with a start, and the nodes to which that leads
come before the others. -/
structure Visits (g : Cfg) (start : Site) (order : List Site) : Prop where
  /-- Every node is there once. -/
  once : order.Perm (List.range g.nodes.length)
  /-- The start is the first. -/
  first : order.head? = some start
  /-- What can be reached comes first. -/
  reached : ∃ reached rest, order = reached ++ rest ∧
    ∀ i < g.nodes.length, (i ∈ reached ↔ g.Leads start i) ∧ (i ∈ rest ↔ ¬ g.Leads start i)

/-- The targets of a node are where its edges end. -/
theorem mem_targets {g : Cfg} {i j : Site} :
    j ∈ g.targets i ↔ ∃ e ∈ g.edges, e.src = i ∧ e.dst = j := by
  simp [targets, outgoing, and_assoc]

/-- There is one target for each edge. -/
theorem edgesAtMost_targets (g : Cfg) : EdgesAtMost g.targets g.edges.length := by
  intro xs hxs
  have hlength : ∀ i, (g.targets i).length = (g.edges.filter fun e => e.src = i).length :=
    fun i => List.length_map _
  simp only [hlength]
  exact sum_length_filter_le (·.src) g.edges hxs

section Arrives

variable {g : Cfg} (harrives : ∀ e ∈ g.edges, e.dst < g.nodes.length) {start : Site}
  (hstart : start < g.nodes.length)
include harrives hstart

theorem lt_of_leads {i : Site} (h : g.Leads start i) : i < g.nodes.length := by
  cases h with
  | refl => exact hstart
  | tail _ hstep =>
    obtain ⟨e, he, -, rfl⟩ := hstep
    exact harrives e he

/-- Whatever searches along the edges, its order visits every node once the others are
added. -/
theorem visits_completed {order : List Site} (h : Searches g.targets start order) :
    g.Visits start (g.completed order) := by
  have hleads : ∀ {i}, i ∈ order ↔ g.Leads start i := by
    intro i
    rw [h.mem_iff, Reaches, Leads]
    simp only [mem_targets]
  have hnodup : (g.completed order).Nodup := by
    refine List.nodup_append'.2 ⟨h.nodup, List.nodup_range.filter _, ?_⟩
    intro i hi hrest
    exact of_decide_eq_true (List.mem_filter.1 hrest).2 hi
  refine ⟨(List.perm_ext_iff_of_nodup hnodup List.nodup_range).2 fun i => ?_, ?_,
    order, _, rfl, fun i hi => ?_⟩
  · rw [completed, List.mem_append, List.mem_filter, decide_eq_true_eq, List.mem_range]
    constructor
    · rintro (hi | hi)
      · exact lt_of_leads harrives hstart (hleads.1 hi)
      · exact hi.1
    · intro hi
      by_cases hfound : i ∈ order
      · exact .inl hfound
      · exact .inr ⟨hi, hfound⟩
  · rw [completed, List.head?_append, h.first]
    rfl
  · rw [List.mem_filter, decide_eq_true_eq, hleads, List.mem_range]
    exact ⟨Iff.rfl, and_iff_right hi⟩

/-- The depth-first order visits every node once. -/
theorem visits_dfsOrder : g.Visits start (g.dfsOrder start) := by
  rw [dfsOrder, if_pos hstart]
  exact visits_completed harrives hstart (searches_searchOrder g.edgesAtMost_targets start)

end Arrives

end Cfg

/-! ## Slots -/

theorem Repository.map_get? {α : Type} (r : Repository α) :
    (List.range' 1 r.size).map r.get? = r.items.map some := by
  refine List.ext_getElem ?_ fun i hi hi' => ?_
  · simp [size]
  · rw [List.getElem_map, List.getElem_map, List.getElem_range', Nat.one_mul, Nat.add_comm]
    exact List.getElem?_eq_getElem _

namespace StateStore

variable {V : Vocabulary} {st : StateStore V} {state : Nat} {s : Structure V}

/-- A structure that is added leaves every slot with one owner. -/
theorem Owned.addStructure {st' : StateStore V} {changed : Bool} {f : Fact} (h : st.Owned)
    (hadd : st.addStructure state s = .ok (st', changed, f)) : st'.Owned := by
  obtain ⟨slots, hslots, ⟨k, -, t, -, rfl, -⟩ | ⟨rfl, -, -⟩⟩ := addStructure_eq_ok hadd
  · exact h.merged s k t
  · exact h.extended hslots s

/-- State by state, the slots are all slots. -/
theorem flatMap_slots? (st : StateStore V) :
    ((List.range st.states.length).flatMap fun state => (st.slots? state).getD []) =
      st.states.flatten := by
  have hmap : (List.range st.states.length).map (fun state => (st.slots? state).getD []) =
      st.states := by
    refine List.ext_getElem (by simp) fun i hi hi' => ?_
    rw [List.getElem_map, List.getElem_range, slots?, List.getElem?_eq_getElem hi']
    rfl
  rw [List.flatMap_def, hmap]

/-- The structures of a state are those in its slots. -/
theorem Filled.structures_snd (hst : st.Filled) (state : Nat) :
    ((st.structures state).map Prod.snd).map some =
      ((st.slots? state).getD []).map st.repository.get? := by
  unfold structures
  cases hslots : st.slots? state with
  | none => rfl
  | some slots =>
    show ((slots.filterMap _).map Prod.snd).map some = slots.map st.repository.get?
    rw [List.map_map, List.map_filterMap, ← List.filterMap_eq_map]
    refine List.filterMap_congr fun slot hslot => ?_
    obtain ⟨t, ht⟩ := Option.isSome_iff_exists.1 (hst state slots hslots slot hslot)
    simp [ht]

end StateStore

namespace Method

variable {V : Vocabulary}

/-! ## Runs keep slots apart -/

theorem owned_quiet : Quiet fun m : Method V => m.store.Owned where
  node _ _ _ _ hm := hm.allocate
  edge _ _ _ _ hm := hm
  nodes _ _ _ _ hm := hm
  messages m f ms hm := by
    unfold addMessages StateStore.addMessages
    split
    · exact hm
    · exact hm

/-- Every call leaves every slot with one owner. -/
theorem owned_perform {m : Method V} (hm : m.store.Owned) (call : Call V) :
    (m.perform call).store.Owned := by
  cases hnews : call.isNews with
  | false => exact owned_quiet.perform hm hnews
  | true =>
    cases call with
    | add site s =>
      refine settle_keeps (P := fun m' : Method V => m'.store.Owned) hm fun r h => ?_
      obtain ⟨n, store, -, hstore, hr⟩ := addStructure_eq_ok h
      rw [hr]
      exact hm.addStructure hstore
    | transition src f dst f' =>
      refine settle_keeps (P := fun m' : Method V => m'.store.Owned) hm fun r h => ?_
      obtain ⟨g, -, hr⟩ := addTransition_eq_ok h
      rw [hr]
      exact hm
    | update => exact hm
    | _ => cases hnews

/-- So does every run. -/
theorem owned_run {m : Method V} (hm : m.store.Owned) (calls : List (Call V)) :
    (m.run calls).store.Owned := by
  induction calls generalizing m with
  | nil => exact hm
  | cons call calls ih => exact ih (owned_perform hm call)

theorem owned_new {id : MethodId} {signature : String} {kind : MethodKind} {entry exit : String}
    {mode : JoinMode} {m : Method V} (h : new id signature kind entry exit mode = .ok m) :
    m.store.Owned := by
  obtain ⟨-, rfl⟩ := new_eq_ok h
  have hempty : (StateStore.new id mode : StateStore V).Owned := .refl _
  exact hempty.allocate.allocate

/-! ## Reports -/

/-- The slots in the order of a report. -/
def slotOrder (m : Method V) : List Nat :=
  (m.cfg.dfsOrder m.entry).flatMap fun i =>
    ((m.cfg.node? i).bind fun n => m.store.slots? n.state).getD []

/-- A report visits everything once. -/
structure ReportsOnce (m : Method V) : Prop where
  /-- Every node is visited once, from the entry on. -/
  nodes : m.cfg.Visits m.entry (m.cfg.dfsOrder m.entry)
  /-- Every slot comes once. -/
  slots : m.slotOrder.Perm (List.range' 1 m.store.repository.size)
  /-- The structures are those in the slots, in the same order. -/
  structures : m.allStructures.map some = m.slotOrder.map m.store.repository.get?
  /-- So every structure of the store comes once. -/
  all : m.allStructures.Perm m.store.repository.items

section Booked

variable {id : MethodId} {m : Method V} (hm : m.Booked id)
include hm

/-- The state of a node is the one of its number. -/
theorem Booked.slots_at (i : Site) :
    ((m.cfg.node? i).bind fun n => m.store.slots? n.state) = m.store.slots? i := by
  cases hn : m.cfg.node? i with
  | some n =>
    obtain ⟨rfl, -⟩ := Cfg.state_eq hm.placed hn
    rfl
  | none =>
    exact (hm.slots?_eq_none hn).symm

theorem Booked.slotOrder_eq : m.slotOrder =
    (m.cfg.dfsOrder m.entry).flatMap fun i => (m.store.slots? i).getD [] := by
  unfold slotOrder
  simp only [hm.slots_at]

/-- A report reads the slots in its order. -/
theorem Booked.map_allStructures :
    m.allStructures.map some = m.slotOrder.map m.store.repository.get? := by
  unfold allStructures slotOrder
  rw [List.map_flatMap, List.map_flatMap]
  congr 1
  funext i
  unfold structuresAt
  cases m.cfg.node? i with
  | none => rfl
  | some n => exact hm.filled.structures_snd n.state

/-- Where edges end at nodes and every slot has one owner, a report has everything once. -/
theorem Booked.reportsOnce (harrives : ∀ e ∈ m.cfg.edges, e.dst < m.cfg.nodes.length)
    (howned : m.store.Owned) : m.ReportsOnce := by
  have hslots : m.slotOrder.Perm (List.range' 1 m.store.repository.size) := by
    rw [hm.slotOrder_eq]
    refine ((Cfg.visits_dfsOrder harrives hm.begins).once.flatMap_right _).trans ?_
    rw [← hm.length_states, StateStore.flatMap_slots?]
    exact howned
  refine ⟨Cfg.visits_dfsOrder harrives hm.begins, hslots, hm.map_allStructures, ?_⟩
  refine (List.map_perm_map_iff (Option.some_injective _)).1 ?_
  rw [hm.map_allStructures, ← Repository.map_get?]
  exact hslots.map _

end Booked

/-- A report of a method visits every node, every slot and every structure once, whatever
the calls that led to it. -/
theorem reports_everything_once {id : MethodId} {signature : String} {kind : MethodKind}
    {entry exit : String} {mode : JoinMode} {m : Method V}
    (h : new id signature kind entry exit mode = .ok m) (calls : List (Call V)) :
    (m.execAll calls).ReportsOnce := by
  have hbooked : (m.execAll calls).Booked id := by
    rw [execAll_eq_run]
    exact (booked_new h).run calls
  have howned : (m.execAll calls).store.Owned := by
    rw [execAll_eq_run]
    exact owned_run (owned_new h) calls
  refine hbooked.reportsOnce (fun e he => ?_) howned
  have hkind := (builds_execAll (based_new h) calls).based.arrives e he
  rw [kindAt_topology, Ne, Option.map_eq_none_iff] at hkind
  exact Nat.lt_of_not_le fun hle => hkind (List.getElem?_eq_none hle)

/-- A loop, two edges beside each other and a node out of reach.  Each of three nodes gets a
structure. -/
def loopingCalls : List (Call Structure.cellVocabulary) :=
  [.intra "in" "at" default, .intra "in" "at" default, .intra "at" "in" default,
    .intra "in" "out" default, .obtain .intra "apart", .add 3 (StateStore.linkedCell .tt .tt),
    .add 1 (StateStore.linkedCell .tt .tt), .add 2 (StateStore.linkedCell .ff .tt)]

theorem reports_everything_once_loopingCalls :
    ∃ m : Method Structure.cellVocabulary, new 0 "f" .static "in" "out" .pointwise = .ok m ∧
      (m.execAll loopingCalls).cfg.dfsOrder 0 = [0, 2, 1, 3] ∧
      (m.execAll loopingCalls).slotOrder = [3, 2, 1] ∧ (m.execAll loopingCalls).ReportsOnce := by
  obtain ⟨m, hm⟩ : ∃ m : Method Structure.cellVocabulary,
    new 0 "f" .static "in" "out" .pointwise = .ok m := ⟨_, rfl⟩
  refine ⟨m, hm, ?_, ?_, reports_everything_once hm loopingCalls⟩
  · cases hm
    decide
  · cases hm
    decide

end Method

end ShapeAnalysis
