import ShapeAnalysis.Proofs.Store

/-!
# Facts

A fact names a slot of a state.  The facts that a store knows are the facts that
a run on it has returned (`Valid.contains_run`).

A fact *covers* the structure it was returned for: the structure in its slot is
above it.  Slots only grow, so this holds ever after.  No other slot of the
state is related to the structure, so a copy of it finds this slot again.
-/

namespace ShapeAnalysis

namespace StateStore

open Structure

variable {V : Vocabulary}

/-! ## The facts of a store -/

/-- The slot belongs to the state. -/
def Owns (st : StateStore V) (state slot : Nat) : Prop :=
  ∃ slots, st.slots? state = some slots ∧ slot ∈ slots

/-- A slot with a structure belongs to exactly one state. -/
theorem Valid.existsUnique_owner {st : StateStore V} (hst : st.Valid) {slot : Nat}
    (h : st.repository.get? slot ≠ none) : ∃! state, st.Owns state slot := by
  obtain ⟨s, hs⟩ := Option.ne_none_iff_exists'.1 h
  obtain ⟨state, slots, hslots, hslot⟩ := hst.exists_owner hs
  refine ⟨state, ⟨slots, hslots, hslot⟩, ?_⟩
  rintro other ⟨owns, howns, hmem⟩
  exact hst.owner_unique howns hslots hmem hslot

theorem Valid.not_owns_zero {st : StateStore V} (hst : st.Valid) (state : Nat) :
    ¬ st.Owns state 0 := by
  rintro ⟨slots, hslots, hmem⟩
  obtain ⟨s, hs⟩ := hst.exists_get? hslots hmem
  cases hs

theorem Valid.contains_iff {st : StateStore V} (hst : st.Valid) {f : Fact} :
    st.contains f = true ↔ f.store = st.id ∧ st.Owns f.state f.slot := by
  unfold contains structure? Owns
  cases hslots : st.slots? f.state with
  | none => simp
  | some slots =>
    rw [Bool.and_eq_true, List.contains_iff_mem]
    constructor
    · rintro ⟨hmem, hsome⟩
      split at hsome
      · exact ⟨‹_›, slots, rfl, hmem⟩
      · cases hsome
    · rintro ⟨hid, slots', h, hmem⟩
      cases h
      rw [if_pos hid]
      exact ⟨hmem, Option.isSome_iff_exists.2 (hst.exists_get? hslots hmem)⟩

theorem Valid.contains_perform {st : StateStore V} (hst : st.Valid) {call : Call V}
    (hcall : call.WellFormed) (f : Fact) :
    (st.perform call).contains f = true ↔ st.contains f = true ∨ st.answer? call = some f := by
  rw [(hst.perform hcall).contains_iff, hst.contains_iff, (extends_perform hst hcall).id, Owns,
    Owns]
  rcases perform_cases hst hcall with ⟨hsame, hans⟩ | ⟨heq, hans⟩ |
    ⟨state, slots, s, k, t, hslots, -, hk, -, -, heq, hans⟩ |
    ⟨state, slots, s, hslots, -, -, heq, hans⟩
  · unfold slots?
    simp [hans, hsame.states]
  · -- The new state has no slots.
    rw [heq, hans, slots?_allocate]
    split
    · rename_i hstate
      have hnone : st.slots? f.state = none := List.getElem?_eq_none (Nat.le_of_eq hstate.symm)
      simp [hnone]
    · simp
  · rw [heq, hans]
    constructor
    · exact .inl
    · rintro (h | h)
      · exact h
      · cases h
        exact ⟨rfl, slots, hslots, hk⟩
  · rw [heq, hans, slots?_extended hslots]
    constructor
    · rintro ⟨hid, owns, howns, hmem⟩
      split at howns
      · rename_i hstate
        cases howns
        rcases List.mem_append.1 hmem with hmem | hmem
        · exact .inl ⟨hid, slots, hstate ▸ hslots, hmem⟩
        · right
          obtain ⟨store, state', slot⟩ := f
          simp_all [fact]
      · exact .inl ⟨hid, owns, howns, hmem⟩
    · rintro (⟨hid, owns, howns, hmem⟩ | h)
      · refine ⟨hid, ?_⟩
        split
        · rename_i hstate
          rw [hstate, hslots] at howns
          cases howns
          exact ⟨_, rfl, List.mem_append_left _ hmem⟩
        · exact ⟨owns, howns, hmem⟩
      · cases h
        exact ⟨rfl, by simp [fact]⟩

/-- A run adds the facts that it returns. -/
theorem Valid.contains_run {st : StateStore V} (hst : st.Valid) {calls : List (Call V)}
    (hcalls : ∀ c ∈ calls, c.WellFormed) (f : Fact) :
    (st.run calls).contains f = true ↔ st.contains f = true ∨ f ∈ st.answers calls := by
  induction calls generalizing st with
  | nil => simp [StateStore.run, answers]
  | cons c calls ih =>
    obtain ⟨hc, hrest⟩ := List.forall_mem_cons.1 hcalls
    have hstep := ih (hst.perform hc) hrest
    rw [hst.contains_perform hc, or_assoc] at hstep
    rw [answers, List.mem_append, Option.mem_toList]
    exact hstep

/-! ## Covered structures -/

/-- The structure behind a fact is above `s`. -/
structure Covering (st : StateStore V) (f : Fact) (s : Structure V) : Prop where
  store : f.store = st.id
  slot : st.Owns f.state f.slot
  below : ∃ t, st.repository.get? f.slot = some t ∧ Below st.mode s t

theorem Covering.extends {st st' : StateStore V} {f : Fact} {s : Structure V}
    (h : Covering st f s) (hext : Extends st st') : Covering st' f s := by
  obtain ⟨slots, hslots, hmem⟩ := h.slot
  obtain ⟨more, hmore⟩ := hext.slots _ _ hslots
  obtain ⟨t, ht, hbelow⟩ := h.below
  obtain ⟨t', ht', hgrows⟩ := hext.grows _ _ ht
  refine ⟨h.store.trans hext.id.symm, ⟨_, hmore, List.mem_append_left _ hmem⟩, t', ht', ?_⟩
  rw [hext.mode]
  exact hbelow.trans hgrows.below

theorem Covering.of_isomorphic {st : StateStore V} {f : Fact} {s s' : Structure V}
    (h : Covering st f s) (hiso : Isomorphic s s') : Covering st f s' := by
  obtain ⟨t, ht, hbelow⟩ := h.below
  exact ⟨h.store, h.slot, t, ht, hiso.symm.below.trans hbelow⟩

/-- The fact that is returned covers the structure. -/
theorem Valid.covering_of_add {st st' : StateStore V} (hst : st.Valid) {s : Structure V}
    (hs : s.WellFormed) {state : Nat} {changed : Bool} {f : Fact}
    (h : st.addStructure state s = .ok (st', changed, f)) :
    Covering st' f s ∧ f.state = state := by
  cases hslots : st.slots? state with
  | none =>
    rw [addStructure_of_none hslots] at h
    cases h
  | some slots =>
    rcases addStructure_cases hst hs hslots with ⟨k, hk, t, ht, hrel, heq⟩ | ⟨-, heq⟩
    · rw [heq] at h
      cases h
      have hjoined := joined_of_related hst hs ht hrel
      refine ⟨⟨(extends_merged hst hs ht hrel).id.symm, ⟨slots, hslots, hk⟩, _, ?_,
        hjoined.right⟩, rfl⟩
      rw [get?_merged ht]
      exact if_pos rfl
    · rw [heq] at h
      cases h
      refine ⟨⟨rfl, ⟨slots ++ [st.repository.items.length + 1], ?_, by simp [fact]⟩, s, ?_,
        .refl s⟩, rfl⟩
      · rw [slots?_extended hslots]
        exact if_pos rfl
      · rw [get?_extended]
        exact if_pos rfl

section Covered

variable {st : StateStore V} (hst : st.Valid) {f : Fact} {s : Structure V} (hs : s.WellFormed)
  (h : Covering st f s)
include hst hs h

/-- A covered structure is found behind its fact and behind no other fact of the state. -/
theorem Covering.factFor?_eq : st.factFor? f.state s = some f := by
  obtain ⟨slots, hslots, hmem⟩ := h.slot
  obtain ⟨t, ht, hbelow⟩ := h.below
  have hcovers : ∀ slot r, st.repository.get? slot = some r →
      (st.covers s slot = true ↔ Below st.mode s r) := by
    intro slot r hr
    rw [covers, hr, decide_eq_true_iff]
    exact merge_eq_subsumed_iff (hst.wellFormed slot r hr) hs
  have hfind : slots.find? (st.covers s) = some f.slot := by
    cases hfound : slots.find? (st.covers s) with
    | none => exact absurd ((hcovers _ t ht).2 hbelow) (List.find?_eq_none.1 hfound _ hmem)
    | some j =>
      have hj := List.mem_of_find?_eq_some hfound
      obtain ⟨r, hr⟩ := hst.exists_get? hslots hj
      have hrs := (hcovers j r hr).1 (List.find?_some hfound)
      rw [hst.slot_unique hslots hj hmem hr ht hrs.related.symm hbelow.related.symm]
  simp only [factFor?, hslots, hfind, Option.map_some, fact, ← h.store]

/-- To add a covered structure changes nothing and returns its fact. -/
theorem Covering.add_eq : ∃ st', st.addStructure f.state s = .ok (st', false, f) := by
  obtain ⟨slots, hslots, hmem⟩ := h.slot
  obtain ⟨t, ht, hbelow⟩ := h.below
  rcases addStructure_cases hst hs hslots with ⟨k, hk, r, hr, hrel, heq⟩ | ⟨hnew, -⟩
  · have hkf := hst.slot_unique hslots hk hmem hr ht hrel hbelow.related.symm
    subst hkf
    rw [ht] at hr
    cases hr
    have hsubsumed := (merge_eq_subsumed_iff (hst.wellFormed _ t ht) hs).2 hbelow
    rw [hsubsumed, fact, ← h.store] at heq
    exact ⟨_, heq⟩
  · exact absurd hbelow.related.symm (hnew f.slot hmem t ht)

end Covered

/-- Adding to a state leaves the structures of the other states alone. -/
theorem Valid.structures_add {st st' : StateStore V} (hst : st.Valid) {s : Structure V}
    (hs : s.WellFormed) {state : Nat} {changed : Bool} {f : Fact}
    (h : st.addStructure state s = .ok (st', changed, f)) {other : Nat} (hother : other ≠ state) :
    st'.structures other = st.structures other := by
  -- It is enough that the other state keeps its slots and these their structures.
  have hcongr : st'.id = st.id → st'.slots? other = st.slots? other →
      (∀ slots, st.slots? other = some slots → ∀ j ∈ slots,
        st'.repository.get? j = st.repository.get? j) →
      st'.structures other = st.structures other := by
    intro hid hslots hget
    unfold structures fact
    rw [hid, hslots]
    cases howns : st.slots? other with
    | none => rfl
    | some slots =>
      refine List.filterMap_congr fun j hj => ?_
      rw [hget slots howns j hj]
  cases hslots : st.slots? state with
  | none =>
    rw [addStructure_of_none hslots] at h
    cases h
  | some slots =>
    rcases addStructure_cases hst hs hslots with ⟨k, hk, t, ht, hrel, heq⟩ | ⟨-, heq⟩
    · rw [heq] at h
      cases h
      refine hcongr (extends_merged hst hs ht hrel).id rfl fun owns howns j hj => ?_
      rw [get?_merged ht, if_neg]
      rintro rfl
      exact hother (hst.owner_unique howns hslots hj hk)
    · rw [heq] at h
      cases h
      refine hcongr rfl ?_ fun owns howns j hj => ?_
      · rw [slots?_extended hslots, if_neg hother]
      · rw [get?_extended, if_neg (hst.ne_new_slot howns hj)]

theorem Valid.of_add {st st' : StateStore V} (hst : st.Valid) {s : Structure V}
    (hs : s.WellFormed) {state : Nat} {changed : Bool} {f : Fact}
    (h : st.addStructure state s = .ok (st', changed, f)) : st'.Valid := by
  have hst' : (st.perform (.add state s)).Valid := hst.perform hs
  rwa [StateStore.perform, h] at hst'

/-! ## Facts are kept -/

/-- A fact covers its structure forever.  Once it was returned it stays in the
store, copies of the structure find it, and the structure behind it keeps its
nodes while its values only rise.  Other states do not notice an addition, every
slot belongs to exactly one state and slot 0 to none, and the facts of a store are
those that were returned. -/
theorem fact_covers_forever (id : Nat) (mode : JoinMode) (calls : List (Call V))
    (hcalls : ∀ c ∈ calls, c.WellFormed) :
    (∀ (state : Nat) (s : Structure V), s.WellFormed → ∀ st changed f,
      ((new id mode).run calls).addStructure state s = .ok (st, changed, f) →
        (∀ later : List (Call V), (∀ c ∈ later, c.WellFormed) →
          (st.run later).contains f = true ∧
          (∀ s', s'.WellFormed → Isomorphic s s' →
            (st.run later).factFor? state s' = some f ∧
            ∃ st', (st.run later).addStructure state s' = .ok (st', false, f)) ∧
          ∀ more : List (Call V), (∀ c ∈ more, c.WellFormed) →
            ∃ r t, (st.run later).structure? f = some r ∧
              ((st.run later).run more).structure? f = some t ∧ t.nodes = r.nodes ∧
              ∀ p u, (r.value p u).le (t.value p u)) ∧
        ∀ other, other ≠ state →
          st.structures other = ((new id mode).run calls).structures other) ∧
      (∀ slot, ((new id mode).run calls).repository.get? slot ≠ none →
        ∃! state, ((new id mode).run calls).Owns state slot) ∧
      (∀ state, ¬ ((new id mode).run calls).Owns state 0) ∧
      ∀ g, ((new id mode).run calls).contains g = true ↔ g ∈ (new id mode).answers calls := by
  have hnew := valid_new (V := V) id mode
  have hst := hnew.run hcalls
  refine ⟨fun state s hs st changed f hadd => ⟨fun later hlater => ?_, fun other hother => ?_⟩,
    fun slot hslot => hst.existsUnique_owner hslot, hst.not_owns_zero, fun g => ?_⟩
  · have hvalid := hst.of_add hs hadd
    have hvalid' := hvalid.run hlater
    obtain ⟨hcovering, rfl⟩ := hst.covering_of_add hs hadd
    have hcovering' := hcovering.extends (extends_run hvalid hlater)
    refine ⟨hvalid'.contains_iff.2 ⟨hcovering'.store, hcovering'.slot⟩, fun s' hs' hiso => ?_,
      fun more hmore => ?_⟩
    · have hcopy := hcovering'.of_isomorphic hiso
      exact ⟨hcopy.factFor?_eq hvalid' hs', hcopy.add_eq hvalid' hs'⟩
    · obtain ⟨r, hr, -⟩ := hcovering'.below
      have hext := extends_run hvalid' hmore
      obtain ⟨t, ht, hgrows⟩ := hext.grows _ _ hr
      refine ⟨r, t, ?_, ?_, hgrows.nodes, hgrows.rises⟩
      · rw [structure?, if_pos hcovering'.store, hr]
      · rw [structure?, if_pos (hcovering'.store.trans hext.id.symm), ht]
  · exact hst.structures_add hs hadd hother
  · have hnone : (new id mode : StateStore V).contains g = false := rfl
    rw [hnew.contains_run hcalls, hnone]
    simp

theorem fact_covers_forever_cells :
    (∀ c ∈ joinedCells.take 2, c.WellFormed) ∧
      ∃ st, ((new 0 .pointwise).run (joinedCells.take 2)).addStructure 0 (linkedCell .tt .ff) =
          .ok (st, true, ⟨0, 0, 1⟩) ∧
        (st.run joinedCells).contains ⟨0, 0, 1⟩ = true ∧
        (st.run joinedCells).factFor? 0 (linkedCell .tt .ff) = some ⟨0, 0, 1⟩ := by
  have hcalls : ∀ c ∈ joinedCells.take 2, c.WellFormed := by decide
  obtain ⟨st, hst⟩ : ∃ st, ((new 0 .pointwise).run (joinedCells.take 2)).addStructure 0
      (linkedCell .tt .ff) = .ok (st, true, ⟨0, 0, 1⟩) := ⟨_, rfl⟩
  obtain ⟨hkept, -⟩ := (fact_covers_forever 0 .pointwise _ hcalls).1 0 _ (by decide) st _ _ hst
  obtain ⟨hcontains, hcopies, -⟩ := hkept joinedCells (by decide)
  exact ⟨hcalls, st, hst, hcontains, (hcopies _ (by decide) (.refl _)).1⟩

end StateStore

end ShapeAnalysis
