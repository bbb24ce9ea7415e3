import ShapeAnalysis.Proofs.Focus
import ShapeAnalysis.Proofs.Invariance
import ShapeAnalysis.Proofs.Pairing

/-!
# The order of splits does not matter

Focus splits at the first tuple that it finds, and which one is first depends on
the names of the nodes.  But two splits may change places: deciding about one
tuple and then about another gives, up to isomorphism, the structures that the
other order gives (`isomorphic_resolve_comm`).  When both splits divide a node,
the two copies have changed their names.

So splitting may start at any tuple that has to be settled, by induction on the
number of unknown atoms, and isomorphic structures are split into isomorphic
ones.
-/

namespace ShapeAnalysis

namespace Structure

variable {V : Vocabulary}

/-- The structures differ only in the names of their nodes. -/
structure Alike (s t : Structure V) : Prop where
  left : s.WellFormed
  right : t.WellFormed
  constraints : s.constraints = t.constraints
  isomorphic : Isomorphic s t

theorem Alike.refl {s : Structure V} (hs : s.WellFormed) : Alike s s :=
  ⟨hs, hs, rfl, .refl s⟩

theorem Alike.symm {s t : Structure V} (h : Alike s t) : Alike t s :=
  ⟨h.right, h.left, h.constraints.symm, h.isomorphic.symm⟩

theorem Alike.trans {r s t : Structure V} (h₁ : Alike r s) (h₂ : Alike s t) : Alike r t :=
  ⟨h₁.left, h₂.right, h₁.constraints.trans h₂.constraints, h₁.isomorphic.trans h₂.isomorphic⟩

instance : IsTrans (Structure V) Alike := ⟨fun _ _ _ => Alike.trans⟩

/-! ## Tuples that have to be settled -/

/-- An atom is unknown at a tuple at which the structure can be split. -/
structure Unsettled (s : Structure V) (p : PredId) (vars : List Var) (t : List Node) : Prop where
  assigned : ∃ a : Assignment, a.Assigns vars s.nodes ∧ a.tuple? vars = some t
  unknown : s.value p t = .unknown
  splittable : s.splittable t

section

variable {s : Structure V} {p : PredId} {vars : List Var} {t : List Node}

theorem Unsettled.length (h : s.Unsettled p vars t) : t.length = vars.length := by
  obtain ⟨a, -, ha⟩ := h.assigned
  exact Assignment.length_of_tuple? ha

theorem Unsettled.mem (h : s.Unsettled p vars t) : ∀ n ∈ t, n ∈ s.nodes := by
  obtain ⟨a, ha, hat⟩ := h.assigned
  exact ha.within.of_mem_tuple? hat

theorem unsettled_of_unsettled? (h : s.unsettled? p vars = some t) : s.Unsettled p vars t := by
  obtain ⟨a, ha, hat, hval⟩ := mem_unknownTuples.1 (List.mem_of_find?_eq_some h)
  exact ⟨⟨a, ha, hat⟩, hval, List.find?_some h⟩

/-- Where a tuple has to be settled, focus finds one. -/
theorem Unsettled.exists_unsettled? (h : s.Unsettled p vars t) :
    ∃ t₀, s.unsettled? p vars = some t₀ := by
  obtain ⟨a, ha, hat⟩ := h.assigned
  cases hnone : s.unsettled? p vars with
  | some t₀ => exact ⟨t₀, rfl⟩
  | none =>
    have hsettled := settled_of_unsettled?_eq_none hnone
    exact absurd h.unknown (hsettled a ha t hat h.splittable)

theorem splittable_congr {r : Structure V} {f : Node → Node}
    (h : ∀ n ∈ t, r.isSummary (f n) = s.isSummary n) : r.splittable (t.map f) = s.splittable t := by
  have hall : (t.all fun n => !r.isSummary (f n)) = t.all fun n => !s.isSummary n := by
    rw [Bool.eq_iff_iff, List.all_eq_true, List.all_eq_true]
    exact forall₂_congr fun n hn => by rw [h n hn]
  simp only [Structure.splittable, List.length_map, List.all_map, Function.comp_def, hall]

/-- An isomorphism carries tuples that have to be settled to such tuples. -/
theorem Unsettled.map {s' : Structure V} {f : Node → Node} (h : s.Unsettled p vars t)
    (hf : Iso f s s') (hs : s.WellFormed) (hs' : s'.WellFormed) :
    s'.Unsettled p vars (t.map f) := by
  obtain ⟨a, ha, hat⟩ := h.assigned
  refine ⟨⟨a.map f, hf.embedding.assigns_map ha, ?_⟩, ?_, ?_⟩
  · rw [Assignment.tuple?_map, hat, Option.map_some]
  · rw [hf.value_eq hs hs' p h.mem, h.unknown]
  · rw [splittable_congr fun n hn => hf.isSummary_eq (h.mem n hn)]
    exact h.splittable

end

/-! ## The options of a split -/

/-- Decide about a predicate at a tuple: it has one value there, or it differs
behind a node, which is divided. -/
def resolve (s : Structure V) (p : PredId) (t : List Node) : Option Bool → Structure V
  | some b => s.set p t (.ofBool b)
  | none => s.divide p (t.headD 0)

/-- What can be decided about a tuple. -/
def options (s : Structure V) (t : List Node) : List (Option Bool) :=
  [some false, some true] ++ if t.length = 1 && t.all s.isSummary then [none] else []

/-- A split makes every decision that there is. -/
theorem splitAt_eq (s : Structure V) (p : PredId) (t : List Node) :
    s.splitAt p t = (s.options t).map (s.resolve p t) := by
  match t with
  | [] => rfl
  | [u] => cases h : s.isSummary u <;> simp [splitAt, options, resolve, Kleene.ofBool, h]
  | _ :: _ :: _ => simp [splitAt, options, resolve, Kleene.ofBool]

theorem eq_singleton_of_mem_options {s : Structure V} {t : List Node} (h : none ∈ s.options t) :
    ∃ u, t = [u] := by
  have hlen : t.length = 1 ∧ ∀ n ∈ t, s.isSummary n = true := by simpa [options] using h
  exact List.length_eq_one_iff.1 hlen.1

/-- What can be decided depends on which nodes are summaries. -/
theorem options_congr {r s : Structure V} {t : List Node} {f : Node → Node}
    (h : ∀ n ∈ t, r.isSummary (f n) = s.isSummary n) : r.options (t.map f) = s.options t := by
  have hall : (t.all fun n => r.isSummary (f n)) = t.all s.isSummary := by
    rw [Bool.eq_iff_iff, List.all_eq_true, List.all_eq_true]
    exact forall₂_congr fun n hn => by rw [h n hn]
  simp only [options, List.length_map, List.all_map, Function.comp_def, hall]

/-! ## A split of isomorphic structures -/

/-- Isomorphic structures are divided into isomorphic ones, and the new nodes correspond. -/
theorem Iso.divide {f : Node → Node} {s t : Structure V} (hf : Iso f s t) (hs : s.WellFormed)
    (ht : t.WellFormed) (p : PredId) {u : Node} (hu : u ∈ s.nodes) :
    Iso (Function.update f s.nextNode t.nextNode) (s.divide p u) (t.divide p (f u)) := by
  have hnew := hf.newNode hs ht
  have hself : Function.update f s.nextNode t.nextNode s.nextNode = t.nextNode :=
    Function.update_self ..
  have hold : ∀ n ∈ s.nodes, Function.update f s.nextNode t.nextNode n = f n := fun n hn =>
    Function.update_of_ne (hs.ne_nextNode hn) _ _
  refine hnew.change (nodes_divide u) (nodes_divide (f u)) fun q w hw => ?_
  have hmem : ∀ n ∈ w, n ∈ s.newNode.1.nodes := fun n hn => nodes_divide (s := s) u ▸ hw.2.2 n hn
  have hsingle : ∀ m ∈ s.newNode.1.nodes,
      w.map (Function.update f s.nextNode t.nextNode) =
        [Function.update f s.nextNode t.nextNode m] ↔ w = [m] := by
    intro m hm
    refine ⟨fun h => tuple_eq_of_map_eq hnew.inj hmem (by simpa using hm) h, ?_⟩
    rintro rfl
    rfl
  have hback : (w.map (Function.update f s.nextNode t.nextNode)).map (uncopy t.nextNode (f u)) =
      (w.map (uncopy s.nextNode u)).map f := by
    rw [List.map_map, List.map_map]
    refine List.map_congr_left fun n hn => ?_
    rcases (s.mem_nodes_newNode n).1 (hmem n hn) with rfl | hn
    · simp [uncopy]
    · simp [uncopy, hs.ne_nextNode hn, ht.ne_nextNode (hf.maps n hn)]
  have huncopy : ∀ n ∈ w.map (uncopy s.nextNode u), n ∈ s.nodes := by
    intro n hn
    obtain ⟨m, hm, rfl⟩ := List.mem_map.1 hn
    rcases (s.mem_nodes_newNode m).1 (hmem m hm) with rfl | hm
    · simpa [uncopy] using hu
    · simpa [uncopy, hs.ne_nextNode hm] using hm
  have hfresh := (s.mem_nodes_newNode s.nextNode).2 (.inl rfl)
  have hkept := (s.mem_nodes_newNode u).2 (.inr hu)
  have hcopy := hsingle s.nextNode hfresh
  have horig := hsingle u hkept
  rw [hself] at hcopy
  rw [hold u hu] at horig
  have hreached : Reached (f u) t.nextNode (w.map (Function.update f s.nextNode t.nextNode)) ↔
      Reached u s.nextNode w := by
    refine reached_map (fun n hn => ?_) fun n hn => ?_
    · rw [← hold u hu]
      exact ⟨hnew.inj n (hmem n hn) u hkept, congrArg _⟩
    · nth_rewrite 2 [← hself]
      exact ⟨hnew.inj n (hmem n hn) _ hfresh, congrArg _⟩
  rw [value_divide ht, value_divide hs, hback, hf.value_eq hs ht q huncopy, hreached]
  simp only [hcopy, horig]

/-- The same decision about isomorphic structures gives isomorphic ones. -/
theorem Iso.resolve {f : Node → Node} {s s' : Structure V} (hf : Iso f s s') (hs : s.WellFormed)
    (hs' : s'.WellFormed) (p : PredId) {t : List Node} (ht : ∀ n ∈ t, n ∈ s.nodes)
    {o : Option Bool} (ho : o ∈ s.options t) :
    Isomorphic (s.resolve p t o) (s'.resolve p (t.map f) o) := by
  cases o with
  | some b => exact ⟨f, hf.set p ht _⟩
  | none =>
    obtain ⟨u, rfl⟩ := eq_singleton_of_mem_options ho
    exact ⟨_, hf.divide hs hs' p (ht u List.mem_cons_self)⟩

/-! ## Two splits change places -/

section Comm

variable {s : Structure V} {p : PredId}

theorem iso_of_value_eq {s t : Structure V} (hnodes : s.nodes = t.nodes)
    (h : ∀ q w, s.value q w = t.value q w) : Iso id s t := by
  refine (Iso.refl s).change rfl hnodes.symm fun q w _ => ?_
  rw [List.map_id, h]

/-- Two values may be set in either order. -/
theorem isomorphic_set_comm {t t₀ : List Node} (hne : t ≠ t₀) (k k₀ : Kleene) :
    Isomorphic ((s.set p t₀ k₀).set p t k) ((s.set p t k).set p t₀ k₀) := by
  refine ⟨id, iso_of_value_eq rfl fun q w => ?_⟩
  simp only [value_set]
  split <;> split <;> simp_all

/-- Putting a copy back changes no tuple of one other node. -/
theorem map_uncopy_eq_singleton {c u m : Node} (hmu : m ≠ u) (hmc : m ≠ c) {w : List Node} :
    w.map (uncopy c u) = [m] ↔ w = [m] := by
  simp only [List.map_eq_singleton_iff, uncopy_eq_iff_of_ne hmu hmc, exists_eq_right]

theorem reached_singleton (u c m : Node) : Reached u c [m] := reached_of_length_le (by simp)

/-- A value may be set before or after another node is divided. -/
theorem isomorphic_divide_set (hs : s.WellFormed) {u u₀ : Node} (hne : u₀ ≠ u)
    (hu₀ : s.Admits ⟨p, [u₀]⟩) (k : Kleene) :
    Isomorphic ((s.set p [u₀] k).divide p u) ((s.divide p u).set p [u₀] k) := by
  have hnodes : ((s.set p [u₀] k).divide p u).nodes = ((s.divide p u).set p [u₀] k).nodes :=
    (nodes_divide u).trans (nodes_divide (s := s) (p := p) u).symm
  refine ⟨id, iso_of_value_eq hnodes fun q w => ?_⟩
  have hnew : u₀ ≠ s.nextNode := hs.ne_nextNode (hu₀.2.2 u₀ List.mem_cons_self)
  have hnext : (s.set p [u₀] k).nextNode = s.nextNode := rfl
  rw [value_divide (hs.set hu₀ k), value_set, value_set, value_divide hs, hnext]
  simp only [map_uncopy_eq_singleton hne hnew]
  by_cases h : q = p ∧ w = [u₀]
  · obtain ⟨rfl, rfl⟩ := h
    simp [hne, hnew, reached_singleton]
  · simp only [if_neg h]

theorem WellFormed.ne_succ_nextNode (hs : s.WellFormed) {n : Node} (hn : n ∈ s.nodes) :
    n ≠ s.nextNode + 1 :=
  Nat.ne_of_lt (Nat.lt_succ_of_lt (hs.node_lt n hn))

open scoped Classical in
/-- After two nodes are divided, the predicate is false on both copies and true
on both originals. -/
theorem value_divide_divide (hs : s.WellFormed) {u u₀ : Node} (hd : (s.divide p u₀).WellFormed)
    (hu : u ∈ s.nodes) (hu₀ : u₀ ∈ s.nodes) (hne : u₀ ≠ u) (q : PredId) (w : List Node) :
    ((s.divide p u₀).divide p u).value q w =
      if q = p ∧ (w = [s.nextNode] ∨ w = [s.nextNode + 1]) then .ff
      else if q = p ∧ (w = [u₀] ∨ w = [u]) then .tt
      else if Reached u (s.nextNode + 1) w ∧ Reached u₀ s.nextNode w then
        s.value q (w.map fun n => uncopy s.nextNode u₀ (uncopy (s.nextNode + 1) u n))
      else .ff := by
  have hun := hs.ne_nextNode hu
  have hcopy : (s.nextNode : Node) ≠ s.nextNode + 1 := Nat.ne_of_lt (Nat.lt_succ_self _)
  have hnew := hs.ne_succ_nextNode hu₀
  -- Putting the second copy back does not touch the first one.
  have hreached : Reached u₀ s.nextNode (w.map (uncopy (s.nextNode + 1) u)) ↔
      Reached u₀ s.nextNode w :=
    reached_map (fun _ _ => uncopy_eq_iff_of_ne hne hnew)
      fun _ _ => uncopy_eq_iff_of_ne hun.symm hcopy
  have hsingle : ∀ m v c, w = [m] → Reached v c w := by
    rintro m v c rfl
    exact reached_singleton v c m
  rw [value_divide hd, value_divide hs, nextNode_divide, hreached, List.map_map,
    Function.comp_def]
  simp only [map_uncopy_eq_singleton hun.symm hcopy, map_uncopy_eq_singleton hne hnew]
  grind

/-- After two nodes are divided, there are two more. -/
theorem mem_nodes_divide_divide {u u₀ n : Node} : n ∈ ((s.divide p u₀).divide p u).nodes ↔
    n = s.nextNode + 1 ∨ n = s.nextNode ∨ n ∈ s.nodes := by
  rw [mem_nodes_divide, mem_nodes_divide, nextNode_divide]

/-! ### The copies change their names -/

/-- The two copies change their names, and the other nodes keep theirs. -/
def swapCopies (s : Structure V) : Equiv.Perm Node := Equiv.swap s.nextNode (s.nextNode + 1)

@[simp] theorem swapCopies_first (s : Structure V) :
    s.swapCopies s.nextNode = s.nextNode + 1 := Equiv.swap_apply_left _ _

@[simp] theorem swapCopies_second (s : Structure V) :
    s.swapCopies (s.nextNode + 1) = s.nextNode := Equiv.swap_apply_right _ _

@[simp] theorem swapCopies_swapCopies (s : Structure V) (n : Node) :
    s.swapCopies (s.swapCopies n) = n := Equiv.swap_apply_self _ _ _

theorem WellFormed.swapCopies_of_mem (hs : s.WellFormed) {n : Node} (hn : n ∈ s.nodes) :
    s.swapCopies n = n :=
  Equiv.swap_apply_of_ne_of_ne (hs.ne_nextNode hn) (hs.ne_succ_nextNode hn)

theorem WellFormed.swapCopies_mem (hs : s.WellFormed) {u u₀ v v₀ n : Node}
    (hn : n ∈ ((s.divide p u₀).divide p u).nodes) :
    s.swapCopies n ∈ ((s.divide p v₀).divide p v).nodes := by
  rw [mem_nodes_divide_divide] at hn ⊢
  rcases hn with rfl | rfl | hn
  · simp
  · simp
  · rw [hs.swapCopies_of_mem hn]
    exact .inr (.inr hn)

theorem map_swapCopies_eq_singleton {w : List Node} {m : Node} :
    w.map s.swapCopies = [m] ↔ w = [s.swapCopies m] := by
  rw [List.map_eq_singleton_iff]
  constructor
  · rintro ⟨n, rfl, rfl⟩
    rw [swapCopies_swapCopies]
  · rintro rfl
    exact ⟨_, rfl, swapCopies_swapCopies s m⟩

/-- The copies have changed their names, and each is still the copy of its node. -/
theorem WellFormed.reached_swapCopies (hs : s.WellFormed) {v c : Node} (hv : v ∈ s.nodes)
    {w : List Node} : Reached v (s.swapCopies c) (w.map s.swapCopies) ↔ Reached v c w :=
  reached_map (fun _ _ => by rw [swapCopies, Equiv.swap_apply_eq_iff, ← swapCopies,
    hs.swapCopies_of_mem hv]) fun _ _ => s.swapCopies.injective.eq_iff

open scoped Classical in
/-- Two nodes may be divided in either order.  The copies change their names. -/
theorem isomorphic_divide_divide (hs : s.WellFormed) {u u₀ : Node}
    (hd : (s.divide p u).WellFormed) (hd₀ : (s.divide p u₀).WellFormed) (hu : u ∈ s.nodes)
    (hu₀ : u₀ ∈ s.nodes) (hne : u₀ ≠ u) :
    Isomorphic ((s.divide p u₀).divide p u) ((s.divide p u).divide p u₀) := by
  refine ⟨s.swapCopies, fun n hn => hs.swapCopies_mem hn,
    fun m hm => ⟨_, hs.swapCopies_mem hm, swapCopies_swapCopies s m⟩,
    fun m _ n _ h => s.swapCopies.injective h, fun q w hw => ?_⟩
  have hback : (w.map s.swapCopies).map
        (fun n => uncopy s.nextNode u (uncopy (s.nextNode + 1) u₀ n)) =
      w.map fun n => uncopy s.nextNode u₀ (uncopy (s.nextNode + 1) u n) := by
    rw [List.map_map]
    refine List.map_congr_left fun n hn => ?_
    rcases mem_nodes_divide_divide.1 (hw.2.2 n hn) with rfl | rfl | hn
    · simp [uncopy, hs.ne_nextNode hu]
    · simp [uncopy, hs.ne_nextNode hu₀]
    · simp [uncopy, hs.swapCopies_of_mem hn, hs.ne_nextNode hn, hs.ne_succ_nextNode hn]
  have hleft := hs.reached_swapCopies (c := s.nextNode) hu₀ (w := w)
  have hright := hs.reached_swapCopies (c := s.nextNode + 1) hu (w := w)
  rw [swapCopies_first] at hleft
  rw [swapCopies_second] at hright
  rw [value_divide_divide hs hd hu₀ hu hne.symm, value_divide_divide hs hd₀ hu hu₀ hne, hback,
    hleft, hright]
  simp only [map_swapCopies_eq_singleton, swapCopies_first, swapCopies_second,
    hs.swapCopies_of_mem hu, hs.swapCopies_of_mem hu₀]
  simp only [or_comm, and_comm]

end Comm

/-! ## One split after another -/

section Split

variable {s : Structure V} (hs : s.WellFormed) {p : PredId} (hp : p ≠ Vocabulary.sm)
  {vars : List Var} {t t₀ : List Node}
include hs hp

theorem caseOf_resolve (ht : s.value p t = .unknown) {o : Option Bool} (ho : o ∈ s.options t) :
    (s.resolve p t o).CaseOf s := by
  refine caseOf_splitAt hs hp ht ?_
  rw [splitAt_eq]
  exact List.mem_map_of_mem ho

theorem isSummary_resolve (o : Option Bool) {n : Node} (hn : n ∈ s.nodes) :
    (s.resolve p t o).isSummary n = s.isSummary n := by
  cases o with
  | some b => exact isSummary_set hp t _ n
  | none => rw [resolve, isSummary_divide hs hp, uncopy, if_neg (hs.ne_nextNode hn)]

/-- A split leaves another tuple to be settled. -/
theorem Unsettled.resolve (h : s.Unsettled p vars t) (hne : t ≠ t₀) {o : Option Bool}
    (ho : o ∈ s.options t₀) : (s.resolve p t₀ o).Unsettled p vars t := by
  have hnodes : ∀ n ∈ s.nodes, n ∈ (s.resolve p t₀ o).nodes := by
    intro n hn
    cases o with
    | some b => exact hn
    | none => exact mem_nodes_divide.2 (.inr hn)
  obtain ⟨a, ha, hat⟩ := h.assigned
  refine ⟨⟨a, ⟨fun v n hv => hnodes n (ha.within v n hv), ha.bound⟩, hat⟩, ?_, ?_⟩
  · cases o with
    | some b =>
      rw [Structure.resolve, value_set, if_neg fun h => hne h.2]
      exact h.unknown
    | none =>
      obtain ⟨u, rfl⟩ := eq_singleton_of_mem_options ho
      have hnew : t ≠ [s.nextNode] := by
        rintro rfl
        exact hs.nextNode_not_mem (h.mem _ List.mem_cons_self)
      have hback : t.map (uncopy s.nextNode u) = t :=
        map_eq_self fun n hn => if_neg (hs.ne_nextNode (h.mem n hn))
      have hreached : Reached u s.nextNode t :=
        reached_of_not_mem fun hn => hs.nextNode_not_mem (h.mem _ hn)
      rw [Structure.resolve, List.headD_cons, value_divide hs, if_neg fun h => hnew h.2,
        if_neg fun h => hne h.2, if_pos hreached, hback]
      exact h.unknown
  · have hsplit : (s.resolve p t₀ o).splittable (t.map id) = s.splittable t :=
      splittable_congr fun n hn => isSummary_resolve hs hp o (h.mem n hn)
    rw [List.map_id] at hsplit
    rw [hsplit]
    exact h.splittable

/-- A decision about one tuple leaves open what can be decided about another. -/
theorem options_resolve (ht : ∀ n ∈ t, n ∈ s.nodes) (o : Option Bool) :
    (s.resolve p t₀ o).options t = s.options t := by
  have h : (s.resolve p t₀ o).options (t.map id) = s.options t :=
    options_congr fun n hn => isSummary_resolve hs hp o (ht n hn)
  rwa [List.map_id] at h

/-- Decisions about two tuples may change places. -/
theorem isomorphic_resolve_comm (ht : s.Unsettled p vars t) (ht₀ : s.Unsettled p vars t₀)
    (hne : t ≠ t₀) {o o₀ : Option Bool} (ho : o ∈ s.options t) (ho₀ : o₀ ∈ s.options t₀) :
    Isomorphic ((s.resolve p t₀ o₀).resolve p t o) ((s.resolve p t o).resolve p t₀ o₀) := by
  have hlen : t.length = t₀.length := ht.length.trans ht₀.length.symm
  have hadm := hs.admits_of_unknown ht.unknown
  have hadm₀ := hs.admits_of_unknown ht₀.unknown
  have hwf := (caseOf_resolve hs hp ht.unknown ho).wellFormed
  have hwf₀ := (caseOf_resolve hs hp ht₀.unknown ho₀).wellFormed
  cases o with
  | some b =>
    cases o₀ with
    | some b₀ => exact isomorphic_set_comm hne _ _
    | none =>
      obtain ⟨u₀, rfl⟩ := eq_singleton_of_mem_options ho₀
      obtain ⟨u, rfl⟩ := List.length_eq_one_iff.1 hlen
      have hne' : u ≠ u₀ := fun h => hne (congrArg (fun n => [n]) h)
      exact (isomorphic_divide_set hs hne' hadm _).symm
  | none =>
    obtain ⟨u, rfl⟩ := eq_singleton_of_mem_options ho
    obtain ⟨u₀, rfl⟩ := List.length_eq_one_iff.1 hlen.symm
    have hne' : u₀ ≠ u := fun h => hne (congrArg (fun n => [n]) h.symm)
    cases o₀ with
    | some b₀ => exact isomorphic_divide_set hs hne' hadm₀ _
    | none =>
      exact isomorphic_divide_divide hs hwf hwf₀ (ht.mem u List.mem_cons_self)
        (ht₀.mem u₀ List.mem_cons_self) hne'

/-- Two splits may change places. -/
theorem paired_splitAt_comm (ht : s.Unsettled p vars t) (ht₀ : s.Unsettled p vars t₀)
    (hne : t ≠ t₀) : Paired Alike ((s.splitAt p t₀).flatMap (·.splitAt p t))
      ((s.splitAt p t).flatMap (·.splitAt p t₀)) := by
  have hlist : ∀ {t t₀ : List Node}, (∀ n ∈ t, n ∈ s.nodes) →
      (s.splitAt p t₀).flatMap (·.splitAt p t) = (s.options t₀).flatMap fun o₀ =>
        (s.options t).map fun o => (s.resolve p t₀ o₀).resolve p t o := by
    intro t t₀ hmem
    rw [splitAt_eq, List.flatMap_map]
    refine List.flatMap_congr fun o₀ _ => ?_
    rw [splitAt_eq, options_resolve hs hp hmem]
  rw [hlist ht.mem, hlist ht₀.mem]
  refine Paired.flatMap_comm fun o₀ ho₀ o ho => ?_
  have hcase := caseOf_resolve hs hp ht.unknown ho
  have hcase₀ := caseOf_resolve hs hp ht₀.unknown ho₀
  have hstill : o ∈ (s.resolve p t₀ o₀).options t := by
    rw [options_resolve hs hp ht.mem]
    exact ho
  have hstill₀ : o₀ ∈ (s.resolve p t o).options t₀ := by
    rw [options_resolve hs hp ht₀.mem]
    exact ho₀
  have hthen :=
    caseOf_resolve hcase₀.wellFormed hp (ht.resolve hs hp hne ho₀).unknown hstill
  have hthen₀ :=
    caseOf_resolve hcase.wellFormed hp (ht₀.resolve hs hp hne.symm ho).unknown hstill₀
  exact ⟨hthen.wellFormed, hthen₀.wellFormed,
    (hthen.constraints.trans hcase₀.constraints).trans
      (hthen₀.constraints.trans hcase.constraints).symm,
    isomorphic_resolve_comm hs hp ht ht₀ hne ho ho₀⟩

/-- Isomorphic structures split into isomorphic ones at corresponding tuples. -/
theorem Iso.splitAt {s' : Structure V} {f : Node → Node} (hf : Iso f s s') (hs' : s'.WellFormed)
    (hcons : s.constraints = s'.constraints) (ht : s.Unsettled p vars t) :
    Paired Alike (s.splitAt p t) (s'.splitAt p (t.map f)) := by
  have hopts : s'.options (t.map f) = s.options t :=
    options_congr fun n hn => hf.isSummary_eq (ht.mem n hn)
  have hval := (ht.map hf hs hs').unknown
  rw [splitAt_eq, splitAt_eq, hopts]
  refine Paired.map_left fun o ho => ?_
  have hcase := caseOf_resolve hs hp ht.unknown ho
  have hcase' := caseOf_resolve hs' hp hval (hopts.symm ▸ ho)
  exact ⟨hcase.wellFormed, hcase'.wellFormed,
    (hcase.constraints.trans hcons).trans hcase'.constraints.symm, hf.resolve hs hs' p ht.mem ho⟩

end Split

/-! ## Any order of splits -/

section Settle

variable (p : PredId) (vars : List Var)

/-- Split until the atom is settled, with fuel for all the unknown atoms. -/
def settleFully (s : Structure V) : List (Structure V) :=
  settle p vars (s.unknownCount p vars.length) s

variable {p vars}

theorem settleFully_of_none {s : Structure V} (h : s.unsettled? p vars = none) :
    settleFully p vars s = [s] := by
  unfold settleFully
  cases s.unknownCount p vars.length with
  | zero => rfl
  | succ n => rw [settle, h]

/-- To settle a structure splits it at the first tuple and settles the results. -/
theorem settleFully_of_some (hp : p ≠ Vocabulary.sm) {s : Structure V} (hs : s.WellFormed)
    {t : List Node} (h : s.unsettled? p vars = some t) :
    settleFully p vars s = (s.splitAt p t).flatMap (settleFully p vars) := by
  have ht := unsettled_of_unsettled? h
  have hlt : ∀ q ∈ s.splitAt p t, q.unknownCount p vars.length < s.unknownCount p vars.length := by
    intro q hq
    rw [← ht.length]
    exact unknownCount_splitAt_lt hs ht.unknown hq
  unfold settleFully
  cases hcount : s.unknownCount p vars.length with
  | zero =>
    have hnone := unsettled?_eq_none_of_unknownCount hcount
    rw [h] at hnone
    cases hnone
  | succ n =>
    rw [settle, h]
    refine List.flatMap_congr fun q hq => ?_
    have hle := hlt q hq
    exact settle_eq_of_le hp (by omega) (caseOf_splitAt hs hp ht.unknown hq).wellFormed
      (Nat.le_refl _)

/-- Among structures with at most `n` unknown atoms, splitting may start at any
tuple that has to be settled. -/
def StartsAnywhere (V : Vocabulary) (p : PredId) (vars : List Var) (n : Nat) : Prop :=
  ∀ s : Structure V, s.WellFormed → s.unknownCount p vars.length ≤ n →
    ∀ t, s.Unsettled p vars t →
      Paired Alike (settleFully p vars s) ((s.splitAt p t).flatMap (settleFully p vars))

/-- Structures with at most `n` unknown atoms that are alike are settled alike. -/
def SettlesAlike (V : Vocabulary) (p : PredId) (vars : List Var) (n : Nat) : Prop :=
  ∀ s s' : Structure V, Alike s s' → s.unknownCount p vars.length ≤ n →
    s'.unknownCount p vars.length ≤ n →
      Paired Alike (settleFully p vars s) (settleFully p vars s')

theorem startsAnywhere_zero : StartsAnywhere V p vars 0 := by
  intro s _ hcount t ht
  obtain ⟨t₀, hsome⟩ := ht.exists_unsettled?
  rw [unsettled?_eq_none_of_unknownCount (Nat.le_zero.1 hcount)] at hsome
  cases hsome

theorem settlesAlike_zero : SettlesAlike V p vars 0 := by
  intro s s' h hcount hcount'
  rw [settleFully_of_none (unsettled?_eq_none_of_unknownCount (Nat.le_zero.1 hcount)),
    settleFully_of_none (unsettled?_eq_none_of_unknownCount (Nat.le_zero.1 hcount'))]
  exact .singleton h

theorem unknownCount_le_of_mem_splitAt {n : Nat} {s : Structure V} (hs : s.WellFormed)
    (hcount : s.unknownCount p vars.length ≤ n + 1) {t : List Node} (ht : s.Unsettled p vars t)
    {q : Structure V} (hq : q ∈ s.splitAt p t) : q.unknownCount p vars.length ≤ n := by
  have hlt := unknownCount_splitAt_lt hs ht.unknown hq
  rw [ht.length] at hlt
  omega

theorem Unsettled.of_mem_splitAt (hp : p ≠ Vocabulary.sm) {s : Structure V} (hs : s.WellFormed)
    {t t₀ : List Node} (ht : s.Unsettled p vars t) (hne : t ≠ t₀) {q : Structure V}
    (hq : q ∈ s.splitAt p t₀) : q.Unsettled p vars t := by
  rw [splitAt_eq] at hq
  obtain ⟨o, ho, rfl⟩ := List.mem_map.1 hq
  exact ht.resolve hs hp hne ho

/-- The step of the induction: the two splits change places, and fewer atoms are unknown then.
-/
theorem startsAnywhere_succ (hp : p ≠ Vocabulary.sm) {n : Nat} (hstart : StartsAnywhere V p vars n)
    (halike : SettlesAlike V p vars n) : StartsAnywhere V p vars (n + 1) := by
  intro s hs hcount t ht
  obtain ⟨t₀, hsome⟩ := ht.exists_unsettled?
  have ht₀ := unsettled_of_unsettled? hsome
  rw [settleFully_of_some hp hs hsome]
  by_cases hne : t = t₀
  · rw [hne]
    refine Paired.refl fun r hr => ?_
    obtain ⟨q, hq, hrq⟩ := List.mem_flatMap.1 hr
    exact .refl (caseOf_settle hp _ (caseOf_splitAt hs hp ht₀.unknown hq).wellFormed hrq).wellFormed
  · -- Settle `t` right after `t₀`, let the two change places, and take `t₀` back.
    have hsettle : ∀ {u u₀ : List Node}, s.Unsettled p vars u → s.Unsettled p vars u₀ → u ≠ u₀ →
        Paired Alike ((s.splitAt p u₀).flatMap (settleFully p vars))
          (((s.splitAt p u₀).flatMap (·.splitAt p u)).flatMap (settleFully p vars)) := by
      intro u u₀ hu hu₀ huu₀
      rw [List.flatMap_assoc]
      refine Paired.flatMap_left fun q hq => ?_
      exact hstart q (caseOf_splitAt hs hp hu₀.unknown hq).wellFormed
        (unknownCount_le_of_mem_splitAt hs hcount hu₀ hq) u (hu.of_mem_splitAt hp hs huu₀ hq)
    have hcounts : ∀ {u u₀ : List Node}, s.Unsettled p vars u → s.Unsettled p vars u₀ → u ≠ u₀ →
        ∀ q ∈ (s.splitAt p u₀).flatMap (·.splitAt p u), q.unknownCount p vars.length ≤ n := by
      intro u u₀ hu hu₀ huu₀ q hq
      obtain ⟨r, hr, hqr⟩ := List.mem_flatMap.1 hq
      have hrcount := unknownCount_le_of_mem_splitAt hs hcount hu₀ hr
      exact unknownCount_le_of_mem_splitAt (caseOf_splitAt hs hp hu₀.unknown hr).wellFormed
        (Nat.le_succ_of_le hrcount) (hu.of_mem_splitAt hp hs huu₀ hr) hqr
    have hswap := (paired_splitAt_comm hs hp ht ht₀ hne).flatMap fun q hq r hr h =>
      halike q r h (hcounts ht ht₀ hne q hq) (hcounts ht₀ ht (Ne.symm hne) r hr)
    have hback := (hsettle ht₀ ht (Ne.symm hne)).flip.mono fun _ _ _ _ h => h.symm
    exact ((hsettle ht ht₀ hne).trans hswap).trans hback

/-- A split at the image of a tuple is as good as one at the first tuple found. -/
theorem settlesAlike_succ (hp : p ≠ Vocabulary.sm) {n : Nat} (halike : SettlesAlike V p vars n)
    (hstart : StartsAnywhere V p vars (n + 1)) : SettlesAlike V p vars (n + 1) := by
  intro s s' h hcount hcount'
  obtain ⟨f, hf⟩ := h.isomorphic
  cases hpick : s.unsettled? p vars with
  | none =>
    -- A tuple to settle on the other side would have one here behind it.
    have hnone : s'.unsettled? p vars = none := by
      cases hpick' : s'.unsettled? p vars with
      | none => rfl
      | some t =>
        obtain ⟨g, hg, -⟩ := hf.exists_inverse
        have ht := (unsettled_of_unsettled? hpick').map hg h.right h.left
        obtain ⟨t₀, hsome⟩ := ht.exists_unsettled?
        rw [hpick] at hsome
        cases hsome
    rw [settleFully_of_none hpick, settleFully_of_none hnone]
    exact .singleton h
  | some t =>
    have ht := unsettled_of_unsettled? hpick
    have ht' := ht.map hf h.left h.right
    have hsplit := hf.splitAt h.left hp h.right h.constraints ht
    have hsettle := hsplit.flatMap fun q hq r hr hqr =>
      halike q r hqr (unknownCount_le_of_mem_splitAt h.left hcount ht hq)
        (unknownCount_le_of_mem_splitAt h.right hcount' ht' hr)
    rw [settleFully_of_some hp h.left hpick]
    exact hsettle.trans ((hstart s' h.right hcount' _ ht').flip.mono fun _ _ _ _ h => h.symm)

/-- Structures that are alike are settled alike. -/
theorem Alike.settleFully (hp : p ≠ Vocabulary.sm) {s s' : Structure V} (h : Alike s s') :
    Paired Alike (settleFully p vars s) (settleFully p vars s') := by
  have hall : ∀ n, StartsAnywhere V p vars n ∧ SettlesAlike V p vars n := by
    intro n
    induction n with
    | zero => exact ⟨startsAnywhere_zero, settlesAlike_zero⟩
    | succ n ih =>
      have hstart := startsAnywhere_succ hp ih.1 ih.2
      exact ⟨hstart, settlesAlike_succ hp ih.2 hstart⟩
  exact (hall _).2 s s' h (Nat.le_max_left _ _) (Nat.le_max_right _ _)

end Settle

/-! ## Focus -/

/-- Focus on one formula gives alike results of alike structures. -/
theorem Alike.focusOn {s s' : Structure V} (h : Alike s s') (φ : Formula PredId) :
    Paired Alike (s.focusOn φ) (s'.focusOn φ) := by
  unfold Structure.focusOn
  split
  · exact .singleton h
  · split
    · exact .singleton h
    · exact h.settleFully ‹_›

/-- Focus splits structures that are alike into structures that are alike. -/
theorem Alike.focus (fs : List (Formula PredId)) {s s' : Structure V} (h : Alike s s') :
    Paired Alike (s.focus fs) (s'.focus fs) := by
  induction fs generalizing s s' with
  | nil => exact .singleton h
  | cons φ fs ih =>
    rw [focus_cons, focus_cons]
    exact (h.focusOn φ).flatMap fun _ _ _ _ hqr => ih hqr

end Structure

end ShapeAnalysis
