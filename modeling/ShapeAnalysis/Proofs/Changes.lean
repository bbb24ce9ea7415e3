import ShapeAnalysis.Proofs.Portrait
import ShapeAnalysis.Proofs.Store

/-!
# A state changes finitely often

The *weight* of a state counts its slots whose structures have unique names,
each with the unknown values of its structure.  Slots stay and structures only
grow, so the weight never falls.  When a structure with unique names changes the
state, either it gets a slot of its own, or the slot it is merged into has one
more unknown value at least.  In both cases the weight rises.

The slots of a state hold no isomorphic structures, so by the portraits the
weight has a bound that depends on the vocabulary alone.  Hence so has the number
of changes (`changes_bounded`).
-/

namespace ShapeAnalysis

/-- How often structures with unique names can change a state. -/
def Vocabulary.changeBound (V : Vocabulary) : Nat := V.portraitCount * (V.atomCount + 1)

namespace Structure

variable {V : Vocabulary}

/-- What a structure counts towards its state. -/
def weight (s : Structure V) : Nat :=
  if s.canonicalNames.Nodup then s.unknownAtoms.length + 1 else 0

theorem WellFormed.weight_le {s : Structure V} (hs : s.WellFormed) :
    s.weight ≤ V.atomCount + 1 := by
  unfold weight
  split
  · rename_i h
    exact Nat.succ_le_succ (hs.length_unknownAtoms_le h)
  · exact Nat.zero_le _

theorem weight_pos {s : Structure V} (h : s.canonicalNames.Nodup) : 0 < s.weight := by
  rw [weight, if_pos h]
  exact Nat.succ_pos _

theorem Related.nodup_iff {mode : JoinMode} {s t : Structure V} (h : Related mode s t) :
    s.canonicalNames.Nodup ↔ t.canonicalNames.Nodup := by
  obtain ⟨f, hf⟩ := h
  exact hf.outline.canonicalNames_perm.nodup_iff

section Rises

variable {s t : Structure V} (hrises : ∀ p u, (s.value p u).le (t.value p u))
include hrises

theorem unknownAtoms_subset : s.unknownAtoms ⊆ t.unknownAtoms := by
  intro a ha
  rw [mem_unknownAtoms] at ha ⊢
  have hle := hrises a.pred a.args
  rw [ha] at hle
  exact Kleene.eq_unknown_of_le hle

theorem length_unknownAtoms_le_of_rises : s.unknownAtoms.length ≤ t.unknownAtoms.length :=
  (List.subperm_of_subset s.nodup_unknownAtoms (unknownAtoms_subset hrises)).length_le

/-- Values that rise without more of them unknown have not risen. -/
theorem value_eq_of_length_unknownAtoms (h : t.unknownAtoms.length ≤ s.unknownAtoms.length)
    (p : PredId) (u : List Node) : t.value p u = s.value p u := by
  have hperm := (List.subperm_of_subset s.nodup_unknownAtoms
    (unknownAtoms_subset hrises)).perm_of_length_le h
  by_cases hunknown : t.value p u = .unknown
  · have hmem : (⟨p, u⟩ : Atom) ∈ s.unknownAtoms :=
      hperm.mem_iff.2 (mem_unknownAtoms.2 hunknown)
    rw [hunknown, mem_unknownAtoms.1 hmem]
  · exact (Kleene.eq_of_le (hrises p u) hunknown).symm

end Rises

/-- A merge that changes a structure makes more of its values unknown. -/
theorem length_unknownAtoms_lt_of_merged {mode : JoinMode} {s t : Structure V}
    (hs : s.WellFormed) (ht : t.WellFormed) (h : (merge mode s t).1 = .merged) :
    s.unknownAtoms.length < (merge mode s t).2.unknownAtoms.length := by
  have hrel : Related mode s t := by
    by_contra hno
    rw [merge_of_not_related hs ht hno] at h
    cases h
  obtain ⟨-, hjoined⟩ := joined_merge hs ht hrel
  by_contra hle
  have hvalue := value_eq_of_length_unknownAtoms hjoined.rises (Nat.le_of_not_lt hle)
  -- Otherwise what was joined is the old structure, which was above `t` before.
  have hsame : Isomorphic (merge mode s t).2 s := by
    refine ⟨id, (Iso.refl s).change hjoined.nodes rfl fun p u _ => ?_⟩
    rw [List.map_id]
    exact (hvalue p u).symm
  have hsubsumed := (merge_eq_subsumed_iff hs ht).2 (hjoined.right.trans hsame.below)
  rw [h] at hsubsumed
  cases hsubsumed

end Structure

namespace StateStore

open Structure

variable {V : Vocabulary}

/-! ## The weight of a state -/

/-- What a slot counts towards its state. -/
def slotWeight (st : StateStore V) (slot : Nat) : Nat :=
  ((st.repository.get? slot).map Structure.weight).getD 0

/-- The weight of a state. -/
def weight (st : StateStore V) (state : Nat) : Nat :=
  (((st.slots? state).getD []).map st.slotWeight).sum

theorem slotWeight_of_get? {st : StateStore V} {slot : Nat} {s : Structure V}
    (h : st.repository.get? slot = some s) : st.slotWeight slot = s.weight := by
  rw [slotWeight, h]
  rfl

theorem weight_of_slots? {st : StateStore V} {state : Nat} {slots : List Nat}
    (h : st.slots? state = some slots) : st.weight state = (slots.map st.slotWeight).sum := by
  rw [weight, h]
  rfl

/-- Slots without a structure with unique names count nothing. -/
theorem sum_slotWeight_le (st : StateStore V) (hst : st.Valid) (slots : List Nat) :
    (slots.map st.slotWeight).sum ≤
      (slots.filter fun k => 0 < st.slotWeight k).length * (V.atomCount + 1) := by
  induction slots with
  | nil => simp
  | cons k slots ih =>
    rw [List.map_cons, List.sum_cons, List.filter_cons]
    by_cases hpos : 0 < st.slotWeight k
    · have hle : st.slotWeight k ≤ V.atomCount + 1 := by
        cases hget : st.repository.get? k with
        | none => simp [slotWeight, hget] at hpos
        | some s =>
          rw [slotWeight_of_get? hget]
          exact (hst.wellFormed k s hget).weight_le
      simp only [hpos, decide_true, if_true, List.length_cons, Nat.succ_mul]
      omega
    · simp only [hpos, decide_false, Bool.false_eq_true, if_false]
      omega

/-- What a slot that counts holds. -/
theorem exists_of_slotWeight {st : StateStore V} {slot : Nat} (h : 0 < st.slotWeight slot) :
    ∃ s, st.repository.get? slot = some s ∧ s.canonicalNames.Nodup := by
  cases hget : st.repository.get? slot with
  | none => simp [slotWeight, hget] at h
  | some s =>
    refine ⟨s, rfl, ?_⟩
    by_contra hdup
    simp [slotWeight, hget, Structure.weight, hdup] at h

/-- The slots of a state that count have different portraits. -/
theorem Valid.length_counting_le {st : StateStore V} (hst : st.Valid) {state : Nat}
    {slots : List Nat} (hslots : st.slots? state = some slots) :
    (slots.filter fun k => 0 < st.slotWeight k).length ≤ V.portraitCount := by
  let look (k : Nat) : Portrait V := ((st.repository.get? k).map portrait).getD default
  have hnodup : ((slots.filter fun k => 0 < st.slotWeight k).map look).Nodup := by
    refine ((hst.nodup_slots hslots).filter _).map_on fun i hi j hj heq => ?_
    simp only [List.mem_filter, decide_eq_true_eq] at hi hj
    obtain ⟨s, hs, hsn⟩ := exists_of_slotWeight hi.2
    obtain ⟨t, ht, htn⟩ := exists_of_slotWeight hj.2
    simp only [look, hs, ht, Option.map_some, Option.getD_some] at heq
    by_contra hne
    exact hst.apart state slots hslots i hi.1 j hj.1 hne s t hs ht
      (isomorphic_of_portrait_eq hsn htn heq).below.related
  have hle := hnodup.length_le_card
  rwa [List.length_map, card_portrait] at hle

theorem Valid.weight_le {st : StateStore V} (hst : st.Valid) (state : Nat) :
    st.weight state ≤ V.changeBound := by
  cases hslots : st.slots? state with
  | none => simp [weight, hslots]
  | some slots =>
    calc st.weight state
        = (slots.map st.slotWeight).sum := weight_of_slots? hslots
      _ ≤ (slots.filter fun k => 0 < st.slotWeight k).length * (V.atomCount + 1) :=
          sum_slotWeight_le st hst slots
      _ ≤ V.changeBound := Nat.mul_le_mul_right _ (hst.length_counting_le hslots)

/-! ## The weight rises -/

theorem Grows.weight_le {mode : JoinMode} {s t : Structure V} (h : Grows mode s t) :
    s.weight ≤ t.weight := by
  by_cases hs : s.canonicalNames.Nodup
  · have ht := h.below.related.nodup_iff.1 hs
    rw [Structure.weight, Structure.weight, if_pos hs, if_pos ht]
    exact Nat.succ_le_succ (length_unknownAtoms_le_of_rises h.rises)
  · rw [Structure.weight, if_neg hs]
    exact Nat.zero_le _

theorem Extends.slotWeight_le {st st' : StateStore V} (h : Extends st st') (slot : Nat) :
    st.slotWeight slot ≤ st'.slotWeight slot := by
  cases hget : st.repository.get? slot with
  | none => simp [slotWeight, hget]
  | some s =>
    obtain ⟨t, ht, hgrows⟩ := h.grows slot s hget
    rw [slotWeight_of_get? hget, slotWeight_of_get? ht]
    exact hgrows.weight_le

theorem Extends.weight_le {st st' : StateStore V} (h : Extends st st') (state : Nat) :
    st.weight state ≤ st'.weight state := by
  cases hslots : st.slots? state with
  | none => simp [weight, hslots]
  | some slots =>
    obtain ⟨more, hmore⟩ := h.slots state slots hslots
    rw [weight_of_slots? hslots, weight_of_slots? hmore, List.map_append, List.sum_append]
    exact Nat.le_add_right_of_le (List.sum_le_sum fun k _ => h.slotWeight_le k)

/-- A structure with unique names that changes a state makes it heavier. -/
theorem Valid.weight_lt_of_changed {st st' : StateStore V} (hst : st.Valid) {s : Structure V}
    (hs : s.WellFormed) (hnames : s.canonicalNames.Nodup) {state : Nat} {f : Fact}
    (h : st.addStructure state s = .ok (st', true, f)) : st.weight state < st'.weight state := by
  obtain ⟨slots, hslots, ⟨k, hk, t, ht, hrel, rfl, hmerged, -⟩ | ⟨rfl, -, -⟩⟩ :=
    addStructure_inv hst hs h
  · have hext := extends_merged hst hs ht hrel
    have hget : (st.merged s k t).repository.get? k = some (merge st.mode t s).2 := by
      rw [get?_merged ht, if_pos rfl]
    -- The slot that takes the structure in is the one that counts more.
    have hslot : st.slotWeight k < (st.merged s k t).slotWeight k := by
      have htn := hrel.nodup_iff.2 hnames
      have hjoined := joined_of_related hst hs ht hrel
      rw [slotWeight_of_get? ht, slotWeight_of_get? hget, Structure.weight, Structure.weight,
        if_pos htn, if_pos (hjoined.left.related.nodup_iff.1 htn)]
      exact Nat.succ_lt_succ
        (length_unknownAtoms_lt_of_merged (hst.wellFormed k t ht) hs (hmerged.1 rfl))
    have hslots' : (st.merged s k t).slots? state = some slots := hslots
    rw [weight_of_slots? hslots, weight_of_slots? hslots']
    exact List.sum_lt_sum _ _ (fun j _ => hext.slotWeight_le j) ⟨k, hk, hslot⟩
  · have hslots' := slots?_extended hslots (s := s) state
    rw [if_pos rfl] at hslots'
    have hext := extends_extended hslots s
    have hget : (st.extended state s).repository.get? (st.repository.items.length + 1) =
        some s := by
      rw [get?_extended, if_pos rfl]
    rw [weight_of_slots? hslots, weight_of_slots? hslots', List.map_append, List.sum_append,
      List.map_singleton, List.sum_singleton, slotWeight_of_get? hget]
    have hold := List.sum_le_sum fun j (_ : j ∈ slots) => hext.slotWeight_le j
    have hnew := weight_pos hnames
    omega

/-! ## Counting changes -/

/-- Whether a call changes a state. -/
def changes (st : StateStore V) (state : Nat) : Call V → Bool
  | .add other s =>
    match st.addStructure other s with
    | .ok (_, changed, _) => other = state && changed
    | .error _ => false
  | _ => false

/-- How often a list of calls changes a state. -/
def changeCount (st : StateStore V) (state : Nat) : List (Call V) → Nat
  | [] => 0
  | call :: rest => (st.changes state call).toNat + changeCount (st.perform call) state rest

theorem Valid.weight_perform {st : StateStore V} (hst : st.Valid) {call : Call V}
    (hcall : call.WellFormed) (state : Nat)
    (hnames : ∀ s, call = .add state s → s.canonicalNames.Nodup) :
    (st.changes state call).toNat + st.weight state ≤ (st.perform call).weight state := by
  have hle := (extends_perform hst hcall).weight_le state
  cases hchanges : st.changes state call with
  | false => simpa using hle
  | true =>
    cases call with
    | allocate => cases hchanges
    | record f m => cases hchanges
    | add other s =>
      cases hadd : st.addStructure other s with
      | error e => simp [changes, hadd] at hchanges
      | ok result =>
        obtain ⟨st', changed, f⟩ := result
        obtain ⟨rfl, rfl⟩ : other = state ∧ changed = true := by
          simpa [changes, hadd] using hchanges
        have hlt := hst.weight_lt_of_changed hcall (hnames s rfl) hadd
        simp only [StateStore.perform, hadd, Bool.toNat_true]
        omega

theorem Valid.changeCount_add_weight_le {st : StateStore V} (hst : st.Valid)
    (calls : List (Call V)) (hcalls : ∀ c ∈ calls, c.WellFormed) (state : Nat)
    (hnames : ∀ s, Call.add state s ∈ calls → s.canonicalNames.Nodup) :
    st.changeCount state calls + st.weight state ≤ (st.run calls).weight state := by
  induction calls generalizing st with
  | nil => simp [changeCount, StateStore.run]
  | cons c calls ih =>
    obtain ⟨hc, hrest⟩ := List.forall_mem_cons.1 hcalls
    have hstep := hst.weight_perform hc state fun s hs => hnames s (hs ▸ List.mem_cons_self)
    have hrun := ih (hst.perform hc) hrest fun s hs => hnames s (List.mem_cons_of_mem _ hs)
    simp only [changeCount]
    have hfold : st.run (c :: calls) = (st.perform c).run calls := rfl
    rw [hfold]
    omega

/-- No state changes forever.  Whatever a store has been through before, and
whatever else happens meanwhile, structures with unique names change a state at
most `V.changeBound` times. -/
theorem changes_bounded (id : Nat) (mode : JoinMode) (before calls : List (Call V))
    (hbefore : ∀ c ∈ before, c.WellFormed) (hcalls : ∀ c ∈ calls, c.WellFormed) (state : Nat)
    (hnames : ∀ s, Call.add state s ∈ calls → s.canonicalNames.Nodup) :
    ((new id mode).run before).changeCount state calls ≤ V.changeBound := by
  have hst := (valid_new (V := V) id mode).run hbefore
  have hcount := hst.changeCount_add_weight_le calls hcalls state hnames
  have hbound := (hst.run hcalls).weight_le state
  omega

theorem changes_bounded_cells :
    (∀ c ∈ joinedCells, c.WellFormed) ∧
      (∀ s, Call.add 0 s ∈ joinedCells → s.canonicalNames.Nodup) ∧
      ((new 0 .pointwise).run []).changeCount 0 joinedCells = 3 ∧
      ((new 0 .pointwise).run []).changeCount 0 joinedCells ≤ cellVocabulary.changeBound := by
  have hcalls : ∀ c ∈ joinedCells, c.WellFormed := by decide
  have hnames : ∀ s, Call.add 0 s ∈ joinedCells → s.canonicalNames.Nodup := by
    intro s hs
    simp only [joinedCells, List.mem_cons, reduceCtorEq, Call.add.injEq, true_and, false_or,
      List.not_mem_nil, or_false] at hs
    rcases hs with rfl | rfl | rfl <;> decide
  have hcount : ((new 0 .pointwise).run []).changeCount 0 joinedCells = 3 := by decide
  exact ⟨hcalls, hnames, hcount,
    changes_bounded 0 .pointwise [] joinedCells (by simp) hcalls 0 hnames⟩

end StateStore

end ShapeAnalysis
