import Mathlib.Data.List.Perm.Basic
import ShapeAnalysis.Proofs.Blur
import ShapeAnalysis.Proofs.Fixpoint
import ShapeAnalysis.Proofs.Isomorphism
import ShapeAnalysis.Proofs.Update

/-!
# Operations do not see the names of nodes

What an operation makes of isomorphic structures is isomorphic again.  Listings
come in another order: the solutions of a formula on the one side are those on
the other with their nodes renamed, up to a permutation
(`Iso.solutions_perm`).  Where an operation takes a new node, the new nodes
correspond.  Where blur keeps one node of a group it may keep different ones on
the two sides, and then the groups correspond.
-/

namespace ShapeAnalysis

namespace Structure

variable {V : Vocabulary}

/-! ## Solutions -/

theorem extensions_perm {f : Node → Node} {nodes nodes' : List Node}
    (h : (nodes.map f).Perm nodes') (vars : List Var) (a : Assignment) :
    ((extensions nodes vars a).map (Assignment.map f)).Perm
      (extensions nodes' vars (a.map f)) := by
  induction vars generalizing a with
  | nil => exact .refl _
  | cons v rest ih =>
    have hinner : (nodes.flatMap fun n =>
        (extensions nodes rest (a.bind v n)).map (Assignment.map f)).Perm
        (nodes.flatMap fun n => extensions nodes' rest ((a.map f).bind v (f n))) := by
      refine List.Perm.flatMap_left _ fun n _ => ?_
      rw [← Assignment.map_bind]
      exact ih _
    have houter := h.flatMap_right fun m => extensions nodes' rest ((a.map f).bind v m)
    rw [List.flatMap_map] at houter
    rw [extensions, extensions, List.map_flatMap]
    exact hinner.trans houter

section

variable {f : Node → Node} {s t : Structure V} (hf : Iso f s t) (hs : s.WellFormed)
  (ht : t.WellFormed)
include hf hs ht

/-- The solutions of a formula are renamed and permuted. -/
theorem Iso.solutions_perm (φ : Formula PredId) {a : Assignment} (ha : a.Within s.nodes) :
    ((s.solutions φ a).map fun e => (e.1.map f, e.2)).Perm (t.solutions φ (a.map f)) := by
  have hbinds : ∀ v, (a.map f).binds v = a.binds v := by
    intro v
    simp [Assignment.binds]
  simp only [solutions, hbinds]
  have hperm := (extensions_perm hf.nodes_perm (φ.freeVars.filter fun v => !a.binds v) a).filterMap
    fun b => if t.eval φ b = .ff then none else some (b, t.eval φ b)
  refine List.Perm.trans (.of_eq ?_) hperm
  rw [List.map_filterMap, List.filterMap_map]
  refine List.filterMap_congr fun b hb => ?_
  have heval : t.eval φ (b.map f) = s.eval φ b := by
    rw [eval_eq_denote, eval_eq_denote, hf.denote_eq hs ht φ (within_of_mem_extensions ha hb)]
  simp only [Function.comp_apply, heval]
  split <;> rfl

theorem Iso.fires_eq {a : Assignment} (ha : a.Within s.nodes) (rule : MessageRule PredId) :
    Action.fires t (a.map f) rule = Action.fires s a rule := by
  have hany : ∀ φ : Formula PredId, ((t.solutions φ (a.map f)).any fun e => e.2 = .tt) =
      (s.solutions φ a).any fun e => e.2 = .tt := by
    intro φ
    rw [← (hf.solutions_perm hs ht φ ha).any_eq, List.any_map]
    rfl
  have hempty : ∀ φ : Formula PredId, (t.solutions φ (a.map f)).isEmpty =
      (s.solutions φ a).isEmpty := by
    intro φ
    rw [← (hf.solutions_perm hs ht φ ha).isEmpty_eq, List.isEmpty_map]
  cases hkind : rule.kind with
  | potential => simp only [Action.fires, hkind, hempty]
  | definiteTrue => simp only [Action.fires, hkind, hany]
  | definiteFalse => simp only [Action.fires, hkind, hany]

theorem Iso.report_eq (act : Action PredId) {a : Assignment} (ha : a.Within s.nodes) :
    act.report t (a.map f) = act.report s a := by
  unfold Action.report
  congr 1
  funext out rule
  rw [hf.fires_eq hs ht ha rule]

theorem Iso.assignments_perm (act : Action PredId) :
    ((act.assignments s).map (Assignment.map f)).Perm (act.assignments t) := by
  unfold Action.assignments
  cases act.precondition with
  | none => exact .refl _
  | some φ =>
    have hperm := (hf.solutions_perm hs ht φ (Assignment.within_empty s.nodes)).map Prod.fst
    rw [List.map_map] at hperm ⊢
    exact hperm

end

theorem within_of_mem_assignments {s : Structure V} {act : Action PredId} {a : Assignment}
    (ha : a ∈ act.assignments s) : a.Within s.nodes := by
  unfold Action.assignments at ha
  split at ha
  · rw [List.mem_singleton.1 ha]
    exact Assignment.within_empty _
  · obtain ⟨⟨b, k⟩, hb, rfl⟩ := List.mem_map.1 ha
    exact within_of_mem_solutions (Assignment.within_empty _) hb

/-! ## Writing values -/

theorem Iso.writeAll {f : Node → Node} {s t : Structure V} (hf : Iso f s t) {p : PredId}
    {ts ts' : List (List Node)} {g g' : List Node → Kleene}
    (hts : ∀ u : List Node, (∀ n ∈ u, n ∈ s.nodes) → (u ∈ ts ↔ u.map f ∈ ts'))
    (hg : ∀ u : List Node, (∀ n ∈ u, n ∈ s.nodes) → u ∈ ts → g' (u.map f) = g u) :
    Iso f (s.writeAll p ts g) (t.writeAll p ts' g') := by
  refine hf.change (by simp) (by simp) fun q u hu => ?_
  have hmem : ∀ n ∈ u, n ∈ s.nodes := by simpa using hu.2.2
  rw [value_writeAll, value_writeAll]
  by_cases h : q = p ∧ u ∈ ts
  · rw [if_pos h, if_pos ⟨h.1, (hts u hmem).1 h.2⟩]
    exact hg u hmem h.2
  · rw [if_neg h, if_neg fun h' => h ⟨h'.1, (hts u hmem).2 h'.2⟩]
    exact hf.value q u ⟨hu.1, hu.2.1, hmem⟩

theorem Iso.set {f : Node → Node} {s t : Structure V} (hf : Iso f s t) (p : PredId)
    {w : List Node} (hw : ∀ n ∈ w, n ∈ s.nodes) (k : Kleene) :
    Iso f (s.set p w k) (t.set p (w.map f) k) := by
  have hwrite : Iso f (s.writeAll p [w] fun _ => k) (t.writeAll p [w.map f] fun _ => k) := by
    refine hf.writeAll (fun u hu => ?_) fun _ _ _ => rfl
    rw [List.mem_singleton, List.mem_singleton]
    exact ⟨fun h => h ▸ rfl, tuple_eq_of_map_eq hf.inj hu hw⟩
  exact hwrite

theorem Iso.writeNodes {f : Node → Node} {s t : Structure V} (hf : Iso f s t) (p : PredId)
    {ns ms : List Node} (hns : ∀ n ∈ s.nodes, n ∈ ns ↔ f n ∈ ms) (k : Kleene) :
    Iso f (s.writeAll p (ns.map fun n => [n]) fun _ => k)
      (t.writeAll p (ms.map fun m => [m]) fun _ => k) := by
  refine hf.writeAll (fun u hu => ?_) fun _ _ _ => rfl
  rw [List.mem_map, List.mem_map]
  constructor
  · rintro ⟨n, hn, rfl⟩
    exact ⟨f n, (hns n (hu n List.mem_cons_self)).1 hn, rfl⟩
  · rintro ⟨m, hm, heq⟩
    obtain ⟨n, rfl, rfl⟩ := List.map_eq_singleton_iff.1 heq.symm
    exact ⟨n, (hns n (hu n List.mem_cons_self)).2 hm, rfl⟩

/-! ## Updates -/

theorem Iso.newNode {f : Node → Node} {s t : Structure V} (hf : Iso f s t) (hs : s.WellFormed)
    (ht : t.WellFormed) :
    Iso (Function.update f s.nextNode t.nextNode) s.newNode.1 t.newNode.1 := by
  obtain ⟨g, hg, hback, -⟩ := hf.exists_inverse
  refine .of_embedding (hf.embedding.newNode hs ht) (hg.embedding.newNode ht hs) fun n hn => ?_
  rcases (s.mem_nodes_newNode n).1 hn with rfl | hn
  · simp
  · rw [Function.update_of_ne (hs.ne_nextNode hn), Function.update_of_ne, hback n hn]
    exact ht.ne_nextNode (hf.maps n hn)

/-- Allocation keeps an isomorphism, and the new node goes to the new node. -/
theorem Iso.exists_allocate {f : Node → Node} {s t : Structure V} (hf : Iso f s t)
    (hs : s.WellFormed) (ht : t.WellFormed) (act : Action PredId) {a : Assignment}
    (ha : a.Within s.nodes) :
    ∃ g, Iso g (act.allocate s a).1 (act.allocate t (a.map f)).1 ∧
      (act.allocate t (a.map f)).2 = (act.allocate s a).2.map g ∧
      (act.allocate s a).2.Within (act.allocate s a).1.nodes := by
  cases h : act.newVar with
  | none =>
    simp only [Action.allocate_eq_none h]
    exact ⟨f, hf, rfl, ha⟩
  | some v =>
    simp only [Action.allocate_eq_some h]
    have hnew := (s.mem_nodes_newNode s.nextNode).2 (.inl rfl)
    refine ⟨Function.update f s.nextNode t.nextNode, ?_, ?_, ?_⟩
    · have hset := (hf.newNode hs ht).set Vocabulary.isNew (w := [s.nextNode]) (by simp) .tt
      simpa using hset
    · rw [Assignment.map_bind, Function.update_self]
      congr 1
      exact ha.map_congr fun n hn => (Function.update_of_ne (hs.ne_nextNode hn) _ _).symm
    · refine Assignment.Within.bind (fun w n hw => ?_) v hnew
      exact (s.mem_nodes_newNode n).2 (.inr (ha w n hw))

section Follow

variable {f : Node → Node} {s t : Structure V} (hf : Iso f s t) (hs : s.WellFormed)
  (ht : t.WellFormed) {a : Assignment} (ha : a.Within s.nodes)
include hf hs ht ha

theorem Iso.applyUpdate (u : Update PredId) {s' t' : Structure V} (hf' : Iso f s' t')
    (hnodes : s'.nodes = s.nodes) :
    Iso f (Action.applyUpdate s a s' u) (Action.applyUpdate t (a.map f) t' u) := by
  rw [Action.applyUpdate_eq_writeAll, Action.applyUpdate_eq_writeAll]
  refine hf'.writeAll (fun w hw => ?_) fun w hw _ => ?_
  · have hmem : ∀ n ∈ w, n ∈ s.nodes := fun n hn => hnodes ▸ hw n hn
    have himage : ∀ m ∈ w.map f, m ∈ t.nodes := by
      intro m hm
      obtain ⟨n, hn, rfl⟩ := List.mem_map.1 hm
      exact hf.maps n (hmem n hn)
    simp only [List.mem_reverse, mem_tuples, List.length_map]
    exact ⟨fun h => ⟨h.1, himage⟩, fun h => ⟨h.1, hmem⟩⟩
  · rw [eval_eq_denote, eval_eq_denote, ← Assignment.map_bindAll]
    exact hf.denote_eq hs ht u.formula (.bindAll u.vars (fun n hn => hnodes ▸ hw n hn) ha)

theorem Iso.foldl_applyUpdate (us : List (Update PredId)) {s' t' : Structure V}
    (hf' : Iso f s' t') (hnodes : s'.nodes = s.nodes) :
    Iso f (us.foldl (Action.applyUpdate s a) s')
      (us.foldl (Action.applyUpdate t (a.map f)) t') := by
  induction us generalizing s' t' with
  | nil => exact hf'
  | cons u us ih =>
    refine ih (hf.applyUpdate hs ht ha u hf' hnodes) ?_
    rw [Action.applyUpdate_eq_writeAll, nodes_writeAll, hnodes]

theorem Iso.update (act : Action PredId) :
    Isomorphic (act.update s a) (act.update t (a.map f)) := by
  obtain ⟨g, hg, hmap, hwithin⟩ := hf.exists_allocate hs ht act ha
  have hpost := hg.foldl_applyUpdate (Action.wellFormed_allocate act hs a)
    (Action.wellFormed_allocate act ht (a.map f)) hwithin act.updates hg rfl
  rw [← hmap] at hpost
  refine ⟨g, ?_⟩
  rw [Action.update_eq, Action.update_eq]
  split
  · rw [setAll_eq_writeAll, setAll_eq_writeAll]
    exact hpost.writeNodes _ (fun n hn => ⟨fun _ => hpost.maps n hn, fun _ => hn⟩) .ff
  · exact hpost

end Follow

/-! ## Removing nodes -/

theorem Iso.filterNodes {f : Node → Node} {s t : Structure V} (hf : Iso f s t)
    (hs : s.WellFormed) (ht : t.WellFormed) (p : PredId) :
    Iso f (s.filterNodes p) (t.filterNodes p) := by
  have hstays : ∀ n ∈ s.nodes, f n ∈ (t.filterNodes p).nodes ↔ n ∈ (s.filterNodes p).nodes := by
    intro n hn
    have hval := hf.value_eq hs ht p (u := [n]) (by simpa using hn)
    rw [List.map_cons, List.map_nil] at hval
    simp only [mem_nodes_filterNodes, hval, hf.maps n hn, hn]
  have hold : ∀ n ∈ (s.filterNodes p).nodes, n ∈ s.nodes := fun n hn =>
    (mem_nodes_filterNodes.1 hn).1
  refine ⟨fun n hn => (hstays n (hold n hn)).2 hn, fun m hm => ?_, fun m hm n hn => ?_,
    fun q u hu => ?_⟩
  · obtain ⟨n, hn, rfl⟩ := hf.onto m (mem_nodes_filterNodes.1 hm).1
    exact ⟨n, (hstays n hn).1 hm, rfl⟩
  · exact hf.inj m (hold m hm) n (hold n hn)
  · have himage : ∀ m ∈ u.map f, m ∈ (t.filterNodes p).nodes := by
      intro m hm
      obtain ⟨n, hn, rfl⟩ := List.mem_map.1 hm
      exact (hstays n (hold n (hu.2.2 n hn))).2 (hu.2.2 n hn)
    rw [value_filterNodes s p q hu.2.2, value_filterNodes t p q himage]
    exact hf.value_eq hs ht q fun n hn => hold n (hu.2.2 n hn)

/-! ## Coerce -/

/-- What coerce leaves of a structure is kept by coerce on an isomorphic one:
it is stable. -/
theorem Iso.retains_coerce {f : Node → Node} {s t : Structure V} (hf : Iso f s t)
    (hs : s.WellFormed) (ht : t.WellFormed) (hcons : s.constraints = t.constraints)
    (htrue : s.coerce.1 = true) : t.coerce.1 = true ∧ Retains f s.coerce.2 t t.coerce.2 := by
  have hsharper := hs.sharper_coerce
  have hembeds : Embedding f s.coerce.2 t := hf.embedding.comp hsharper.sharper
  have hinj : ∀ m ∈ s.coerce.2.nodes, ∀ n ∈ s.coerce.2.nodes, f m = f n → m = n := by
    rw [hsharper.nodes]
    exact hf.inj
  exact hembeds.retains_coerce hinj hsharper.wellFormed ht (hcons ▸ stable_coerce htrue)

/-- Coerce passes isomorphic structures alike and keeps the isomorphism. -/
theorem Iso.coerce {f : Node → Node} {s t : Structure V} (hf : Iso f s t) (hs : s.WellFormed)
    (ht : t.WellFormed) (hcons : s.constraints = t.constraints) :
    s.coerce.1 = t.coerce.1 ∧ (s.coerce.1 = true → Iso f s.coerce.2 t.coerce.2) := by
  obtain ⟨g, hg, hback, -⟩ := hf.exists_inverse
  constructor
  · rw [Bool.eq_iff_iff]
    exact ⟨fun h => (hf.retains_coerce hs ht hcons h).1,
      fun h => (hg.retains_coerce ht hs hcons.symm h).1⟩
  · intro htrue
    obtain ⟨htrue', hto⟩ := hf.retains_coerce hs ht hcons htrue
    obtain ⟨-, hfrom⟩ := hg.retains_coerce ht hs hcons.symm htrue'
    refine .of_embedding hto.embedding hfrom.embedding fun n hn => hback n ?_
    rwa [hs.sharper_coerce.nodes] at hn

/-! ## Blur -/

/-- A join follows a map between the sets of tuples that keeps the values. -/
theorem Joins.transfer {s t : Structure V} {p : PredId} {B B' : List Node → Prop} {k : Kleene}
    {f : List Node → List Node} (h : s.Joins p B k)
    (hto : ∀ u, B u → B' (f u) ∧ t.value p (f u) = s.value p u)
    (hfrom : ∀ w, B' w → ∃ u, B u ∧ f u = w) : t.Joins p B' k := by
  rcases h with hall | ⟨rfl, u, w, hu, hw, hne⟩
  · left
    intro w hw
    obtain ⟨u, hu, rfl⟩ := hfrom w hw
    rw [(hto u hu).2, hall u hu]
  · right
    refine ⟨rfl, f u, f w, (hto u hu).1, (hto w hw).1, ?_⟩
    rwa [(hto u hu).2, (hto w hw).2]

section Blur

variable {f : Node → Node} {s t : Structure V} (hf : Iso f s t) (hs : s.WellFormed)
  (ht : t.WellFormed)
include hf hs ht

/-- Nodes are merged on the one side when their images are on the other. -/
theorem Iso.representative_eq_iff {m n : Node} (hm : m ∈ s.nodes) (hn : n ∈ s.nodes) :
    t.canonicalNaming.representative (f m) = t.canonicalNaming.representative (f n) ↔
      s.canonicalNaming.representative m = s.canonicalNaming.representative n := by
  rw [canonicalNaming, canonicalNaming,
    Structure.representative_eq_iff (hf.maps n hn) (hf.maps m hm),
    Structure.representative_eq_iff hn hm, hf.profile_eq hs ht _ hm, hf.profile_eq hs ht _ hn]

/-- The node kept for a group goes to the node kept for the image of the group. -/
theorem Iso.representative_image {n : Node} (hn : n ∈ s.nodes) :
    t.canonicalNaming.representative (f (s.canonicalNaming.representative n)) =
      t.canonicalNaming.representative (f n) :=
  (hf.representative_eq_iff hs ht (representative_mem hn) hn).2 (representative_representative hn)

theorem Iso.groupSize_eq {n : Node} (hn : n ∈ s.nodes)
    (hrep : s.canonicalNaming.representative n = n) :
    t.canonicalNaming.groupSize (t.canonicalNaming.representative (f n)) =
      s.canonicalNaming.groupSize n := by
  have hfn := hf.maps n hn
  rw [canonicalNaming, canonicalNaming, groupSize_naming hn hrep,
    groupSize_naming (representative_mem hfn) (representative_representative hfn),
    ← (hf.nodes_perm.filter _).length_eq, List.filter_map, List.length_map]
  congr 1
  refine List.filter_congr fun m hm => ?_
  have hiff := hf.representative_eq_iff hs ht hm hn
  rw [hrep, canonicalNaming, canonicalNaming] at hiff
  simpa using hiff

/-- The tuples that are merged into a tuple go to those that are merged into its image. -/
theorem Iso.fibre_perm {u : List Node} (hu : ∀ n ∈ u, n ∈ s.merged.nodes) :
    ((s.fibre s.canonicalNaming.representative u).map (List.map f)).Perm
      (t.fibre t.canonicalNaming.representative
        (u.map fun n => t.canonicalNaming.representative (f n))) := by
  have hwithin : ∀ w ∈ s.fibre s.canonicalNaming.representative u, ∀ n ∈ w, n ∈ s.nodes :=
    fun w hw => (mem_fibre.1 hw).1
  have hnodup : ((s.fibre s.canonicalNaming.representative u).map (List.map f)).Nodup :=
    (nodup_fibre s _ u).map_on fun w hw w' hw' heq =>
      tuple_eq_of_map_eq hf.inj (hwithin w hw) (hwithin w' hw') heq
  refine (List.perm_ext_iff_of_nodup hnodup (nodup_fibre t _ _)).2 fun w => ?_
  rw [List.mem_map, mem_fibre]
  constructor
  · rintro ⟨w, hw, rfl⟩
    obtain ⟨hws, rfl⟩ := mem_fibre.1 hw
    constructor
    · intro m hm
      obtain ⟨n, hn, rfl⟩ := List.mem_map.1 hm
      exact hf.maps n (hws n hn)
    · rw [List.map_map, List.map_map]
      exact List.map_congr_left fun n hn => (hf.representative_image hs ht (hws n hn)).symm
  · rintro ⟨hw, hrep⟩
    obtain ⟨w, hws, rfl⟩ := hf.embedding.exists_tuple hw
    refine ⟨w, mem_fibre.2 ⟨hws, ?_⟩, rfl⟩
    rw [List.map_map] at hrep
    clear hw hwithin hnodup
    induction w generalizing u with
    | nil => rw [List.map_eq_nil_iff.1 hrep.symm, List.map_nil]
    | cons n w ih =>
      cases u with
      | nil => cases hrep
      | cons m u =>
        simp only [List.map_cons, List.cons.injEq, List.forall_mem_cons] at hrep hws hu ⊢
        obtain ⟨hm, hmrep⟩ := mem_nodes_merged.1 hu.1
        refine ⟨?_, ih hu.2 hws.2 hrep.2⟩
        rw [(hf.representative_eq_iff hs ht hws.1 hm).1 hrep.1, hmrep]

/-- What is overlooked on the one side is overlooked on the other. -/
theorem Iso.overlooks (p : PredId) {u : List Node} (hu : ∀ n ∈ u, n ∈ s.merged.nodes) :
    t.Overlooks t.canonicalNaming.representative p
        (u.map fun n => t.canonicalNaming.representative (f n)) ↔
      s.Overlooks s.canonicalNaming.representative p u := by
  have hperm := hf.fibre_perm hs ht hu
  have hvalue : ∀ w ∈ s.fibre s.canonicalNaming.representative u,
      t.value p (w.map f) = s.value p w := fun w hw => hf.value_eq hs ht p (mem_fibre.1 hw).1
  have hexists : ∀ k, (∃ w ∈ t.fibre t.canonicalNaming.representative
        (u.map fun n => t.canonicalNaming.representative (f n)), t.value p w = k) ↔
      ∃ w ∈ s.fibre s.canonicalNaming.representative u, s.value p w = k := by
    intro k
    constructor
    · rintro ⟨w, hw, hk⟩
      obtain ⟨w, hws, rfl⟩ := List.mem_map.1 (hperm.mem_iff.2 hw)
      exact ⟨w, hws, hvalue w hws ▸ hk⟩
    · rintro ⟨w, hw, hk⟩
      exact ⟨_, hperm.mem_iff.1 (List.mem_map_of_mem hw), (hvalue w hw).trans hk⟩
  have hcount : ((t.fibre t.canonicalNaming.representative
        (u.map fun n => t.canonicalNaming.representative (f n))).filter
          fun w => t.value p w = .tt).length =
      ((s.fibre s.canonicalNaming.representative u).filter fun w => s.value p w = .tt).length := by
    rw [← (hperm.filter _).length_eq, List.filter_map, List.length_map]
    congr 1
    refine List.filter_congr fun w hw => ?_
    rw [Function.comp_apply, hvalue w hw]
  have hdefinite := not_congr (hexists .unknown)
  push Not at hdefinite
  constructor
  · intro h
    exact ⟨hdefinite.1 h.definite, (hexists .ff).1 h.exists_ff, (hexists .tt).1 h.exists_tt,
      by simpa [hcount, ← hperm.length_eq] using h.wraps⟩
  · intro h
    exact ⟨hdefinite.2 h.definite, (hexists .ff).2 h.exists_ff, (hexists .tt).2 h.exists_tt,
      by simpa [hcount, ← hperm.length_eq] using h.wraps⟩

theorem Iso.value_merged (p : PredId) {u : List Node} (hu : ∀ n ∈ u, n ∈ s.merged.nodes) :
    t.merged.value p (u.map fun n => t.canonicalNaming.representative (f n)) =
      s.merged.value p u := by
  have hself : s.MergedInto s.canonicalNaming.representative u u :=
    ⟨fun n hn => (mem_nodes_merged.1 (hu n hn)).1,
      map_eq_self fun n hn => (mem_nodes_merged.1 (hu n hn)).2⟩
  have hperm := hf.fibre_perm hs ht hu
  have himage := mem_fibre.1 (hperm.mem_iff.1 (List.mem_map_of_mem (mem_fibre.2 hself)))
  have hover := hf.overlooks hs ht p hu
  rcases hs.closed.merged_cases (p := p) sizes_groupSize ⟨u, hself⟩ with ⟨h, htt⟩ | ⟨h, hjoins⟩
  · rcases ht.closed.merged_cases (p := p) sizes_groupSize ⟨_, himage⟩ with ⟨-, htt'⟩ | ⟨h', -⟩
    · exact htt'.trans htt.symm
    · exact absurd (hover.2 h) h'
  · rcases ht.closed.merged_cases (p := p) sizes_groupSize ⟨_, himage⟩ with ⟨h', -⟩ | ⟨-, hjoins'⟩
    · exact absurd (hover.1 h') h
    · refine hjoins'.unique ⟨_, himage⟩ (hjoins.transfer (f := List.map f) (fun w hw => ?_) ?_)
      · exact ⟨mem_fibre.1 (hperm.mem_iff.1 (List.mem_map_of_mem (mem_fibre.2 hw))),
          hf.value_eq hs ht p hw.1⟩
      · intro w hw
        obtain ⟨w, hws, rfl⟩ := List.mem_map.1 (hperm.mem_iff.2 (mem_fibre.2 hw))
        exact ⟨w, mem_fibre.1 hws, rfl⟩

theorem Iso.merged : Iso (fun n => t.canonicalNaming.representative (f n)) s.merged t.merged := by
  refine ⟨fun n hn => ?_, fun m hm => ?_, fun m hm n hn h => ?_, fun p u hu => ?_⟩
  · exact representative_mem_merged (hf.maps n (mem_nodes_merged.1 hn).1)
  · obtain ⟨hm, hrep⟩ := mem_nodes_merged.1 hm
    obtain ⟨n, hn, rfl⟩ := hf.onto m hm
    refine ⟨s.canonicalNaming.representative n, representative_mem_merged hn, ?_⟩
    exact (hf.representative_image hs ht hn).trans hrep
  · obtain ⟨hm, hmrep⟩ := mem_nodes_merged.1 hm
    obtain ⟨hn, hnrep⟩ := mem_nodes_merged.1 hn
    rw [← hmrep, ← hnrep]
    exact (hf.representative_eq_iff hs ht hm hn).1 h
  · exact hf.value_merged hs ht p hu.2.2

/-- Blur keeps an isomorphism. -/
theorem Iso.blur : Isomorphic s.blur t.blur := by
  have hnames : s.canonicalNaming.names.Nodup ↔ t.canonicalNaming.names.Nodup :=
    (hf.names_perm hs ht V.abstraction).nodup_iff
  rw [blur_eq, blur_eq]
  by_cases hnodup : s.canonicalNaming.names.Nodup
  · rw [if_pos hnodup, if_pos (hnames.1 hnodup)]
    exact ⟨f, hf⟩
  · rw [if_neg hnodup, if_neg fun h => hnodup (hnames.2 h)]
    refine ⟨_, (hf.merged hs ht).writeNodes _ (fun n hn => ?_) .unknown⟩
    obtain ⟨hns, hrep⟩ := mem_nodes_merged.1 hn
    rw [mem_crowded, mem_crowded, hf.groupSize_eq hs ht hns hrep]
    exact ⟨fun h => ⟨(hf.merged hs ht).maps n hn, h.2⟩, fun h => ⟨hn, h.2⟩⟩

end Blur

end Structure

end ShapeAnalysis
