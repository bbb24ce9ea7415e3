import Mathlib.Data.List.Range
import ShapeAnalysis.Store.StateStore
import ShapeAnalysis.Proofs.Merge

/-!
# Runs of a state store

A run is a list of calls on a store.  `Valid` says what holds of a store after
any run: every slot belongs to one state, and the structures of a state are
pairwise unrelated.  A structure is merged into the one slot that is related to
it, and since a merge makes no other structures related, the slots stay apart.

`Extends` says how a store may change along a run: states get new slots at the
end, and the structure in a slot only grows.
-/

namespace ShapeAnalysis

/-! ## Repositories -/

namespace Repository

variable {α : Type}

/-- Slots count from 1, without gaps. -/
theorem get?_isSome {r : Repository α} {slot : Nat} :
    (r.get? slot).isSome ↔ slot ∈ List.range' 1 r.items.length := by
  cases slot with
  | zero => simp [get?]
  | succ n => simp [get?]; omega

/-- A new value is in the next slot, and the others stay where they are. -/
theorem get?_add (r : Repository α) (x : α) (slot : Nat) :
    (r.add x).1.get? slot = if slot = r.items.length + 1 then some x else r.get? slot := by
  cases slot with
  | zero => simp [get?]
  | succ n =>
    simp only [get?, add, Nat.add_right_cancel_iff, List.getElem?_append, List.getElem?_singleton]
    split
    · rw [if_neg (by omega)]
    · rename_i hlt
      split
      · rw [if_pos (by omega)]
      · rw [if_neg (by omega), List.getElem?_eq_none (by omega)]

/-- To replace a value changes its slot alone. -/
theorem get?_set {r : Repository α} {slot : Nat} (h : (r.get? slot).isSome) (x : α) (j : Nat) :
    (r.set slot x).get? j = if j = slot then some x else r.get? j := by
  cases slot with
  | zero => simp [get?] at h
  | succ n =>
    have hlt : n < r.items.length := by simpa [get?] using h
    cases j with
    | zero => simp [get?]
    | succ k =>
      simp only [get?, set, List.getElem?_set, Nat.add_right_cancel_iff, hlt, if_true]
      split
      · rename_i hnk
        rw [if_pos hnk.symm]
      · rename_i hnk
        rw [if_neg (Ne.symm hnk)]

end Repository

namespace StateStore

open Structure

variable {V : Vocabulary}

/-! ## Calls and runs -/

/-- A call that may change a store. -/
inductive Call (V : Vocabulary) where
  | allocate
  | add (state : Nat) (s : Structure V)
  | record (f : Fact) (m : Messages V)

/-- The structure that a call adds is well formed. -/
def Call.WellFormed : Call V → Prop
  | .add _ s => s.WellFormed
  | _ => True

instance : DecidablePred (Call.WellFormed (V := V))
  | .add _ s => inferInstanceAs (Decidable s.WellFormed)
  | .allocate => .isTrue trivial
  | .record _ _ => .isTrue trivial

/-- The store after a call.  A call that fails leaves it as it was. -/
def perform (st : StateStore V) : Call V → StateStore V
  | .allocate => st.allocate.1
  | .add state s =>
    match st.addStructure state s with
    | .ok (st', _, _) => st'
    | .error _ => st
  | .record f m => st.addMessages f m

/-- The fact that a call returns, if it returns one. -/
def answer? (st : StateStore V) : Call V → Option Fact
  | .add state s =>
    match st.addStructure state s with
    | .ok (_, _, f) => some f
    | .error _ => none
  | _ => none

/-- The store after a list of calls. -/
def run (st : StateStore V) (calls : List (Call V)) : StateStore V := calls.foldl perform st

/-- The facts that a list of calls returns. -/
def answers (st : StateStore V) : List (Call V) → List Fact
  | [] => []
  | call :: rest => (st.answer? call).toList ++ answers (st.perform call) rest

/-! ## Valid stores -/

/-- What every run keeps. -/
structure Valid (st : StateStore V) : Prop where
  wellFormed : ∀ slot s, st.repository.get? slot = some s → s.WellFormed
  owned : st.states.flatten.Perm (List.range' 1 st.repository.items.length)
  apart : ∀ state slots, st.slots? state = some slots → ∀ i ∈ slots, ∀ j ∈ slots, i ≠ j →
    ∀ s t, st.repository.get? i = some s → st.repository.get? j = some t →
      ¬ Related st.mode s t

/-- A store without states is valid. -/
theorem valid_new (id : Nat) (mode : JoinMode) : (new id mode : StateStore V).Valid := by
  refine ⟨fun slot s h => ?_, .refl _, fun state slots h => ?_⟩
  · cases slot <;> cases h
  · cases h

section Owners

variable {st : StateStore V} (hst : st.Valid)
include hst

/-- Every slot of a state holds a structure. -/
theorem Valid.exists_get? {state : Nat} {slots : List Nat} (hslots : st.slots? state = some slots)
    {slot : Nat} (hslot : slot ∈ slots) : ∃ s, st.repository.get? slot = some s := by
  have hmem : slot ∈ st.states.flatten :=
    List.mem_flatten.2 ⟨slots, List.mem_of_getElem? hslots, hslot⟩
  exact Option.isSome_iff_exists.1 (Repository.get?_isSome.2 (hst.owned.mem_iff.1 hmem))

/-- The next slot belongs to no state yet. -/
theorem Valid.ne_new_slot {state : Nat} {slots : List Nat}
    (hslots : st.slots? state = some slots) {slot : Nat} (hslot : slot ∈ slots) :
    slot ≠ st.repository.items.length + 1 := by
  have hsome := Option.isSome_iff_exists.2 (hst.exists_get? hslots hslot)
  rw [Repository.get?_isSome, List.mem_range'_1] at hsome
  omega

theorem Valid.nodup_flatten : st.states.flatten.Nodup :=
  hst.owned.nodup_iff.2 List.nodup_range'

theorem Valid.nodup_slots {state : Nat} {slots : List Nat}
    (hslots : st.slots? state = some slots) : slots.Nodup :=
  (List.nodup_flatten.1 hst.nodup_flatten).1 slots (List.mem_of_getElem? hslots)

/-- A slot belongs to one state only. -/
theorem Valid.owner_unique {i j : Nat} {is js : List Nat} (hi : st.slots? i = some is)
    (hj : st.slots? j = some js) {slot : Nat} (his : slot ∈ is) (hjs : slot ∈ js) : i = j := by
  have hpairwise := List.pairwise_iff_getElem.1 (List.nodup_flatten.1 hst.nodup_flatten).2
  obtain ⟨hilt, rfl⟩ := List.getElem?_eq_some_iff.1 hi
  obtain ⟨hjlt, rfl⟩ := List.getElem?_eq_some_iff.1 hj
  rcases Nat.lt_trichotomy i j with hlt | heq | hgt
  · exact absurd hjs (hpairwise i j hilt hjlt hlt his)
  · exact heq
  · exact absurd his (hpairwise j i hjlt hilt hgt hjs)

/-- Every structure is in a slot of some state. -/
theorem Valid.exists_owner {slot : Nat} {s : Structure V}
    (h : st.repository.get? slot = some s) :
    ∃ state slots, st.slots? state = some slots ∧ slot ∈ slots := by
  have hmem := hst.owned.mem_iff.2 (Repository.get?_isSome.1 (Option.isSome_iff_exists.2 ⟨s, h⟩))
  obtain ⟨slots, hslots, hslot⟩ := List.mem_flatten.1 hmem
  obtain ⟨state, hstate⟩ := List.mem_iff_getElem?.1 hslots
  exact ⟨state, slots, hstate, hslot⟩

/-- A structure is related to at most one slot of a state. -/
theorem Valid.slot_unique {state : Nat} {slots : List Nat} (hslots : st.slots? state = some slots)
    {i j : Nat} (hi : i ∈ slots) (hj : j ∈ slots) {s t x : Structure V}
    (hs : st.repository.get? i = some s) (ht : st.repository.get? j = some t)
    (hsx : Related st.mode s x) (htx : Related st.mode t x) : i = j := by
  by_contra hne
  exact hst.apart state slots hslots i hi j hj hne s t hs ht (hsx.trans htx.symm)

end Owners

/-! ## What adding a structure can do -/

section Add

variable {st : StateStore V} {s : Structure V}

/-- The slot that takes a structure in is one of those offered, and holds a structure that
merges with it. -/
theorem absorb?_eq_some {slots : List Nat} {k : Nat} {o : MergeOutcome} {r : Structure V}
    (h : st.absorb? s slots = some (k, o, r)) :
    k ∈ slots ∧ o ≠ .unrelated ∧
      ∃ t, st.repository.get? k = some t ∧ merge st.mode t s = (o, r) := by
  induction slots with
  | nil => cases h
  | cons j rest ih =>
    rw [absorb?] at h
    split at h
    · obtain ⟨hmem, hrest⟩ := ih h
      exact ⟨List.mem_cons_of_mem _ hmem, hrest⟩
    · rename_i t ht
      split at h
      · obtain ⟨hmem, hrest⟩ := ih h
        exact ⟨List.mem_cons_of_mem _ hmem, hrest⟩
      · rename_i o' r' hne hmerge
        cases h
        exact ⟨List.mem_cons_self, fun ho => hne (ho ▸ rfl), t, ht, hmerge⟩

/-- If none takes it in, it merges with no structure in the slots offered. -/
theorem absorb?_eq_none {slots : List Nat} (h : st.absorb? s slots = none) {k : Nat}
    (hk : k ∈ slots) {t : Structure V} (ht : st.repository.get? k = some t) :
    (merge st.mode t s).1 = .unrelated := by
  induction slots with
  | nil => cases hk
  | cons j rest ih =>
    rw [absorb?] at h
    split at h
    · rename_i hnone
      rcases List.mem_cons.1 hk with rfl | hk
      · rw [ht] at hnone
        cases hnone
      · exact ih h hk
    · rename_i t' ht'
      split at h
      · rename_i hmerge
        rcases List.mem_cons.1 hk with rfl | hk
        · rw [ht] at ht'
          cases ht'
          rw [hmerge]
        · exact ih h hk
      · cases h

/-- The store after a structure was merged into a slot. -/
def merged (st : StateStore V) (s : Structure V) (k : Nat) (t : Structure V) : StateStore V :=
  { st with
    joinTimer := st.joinTimer.record {}
    repository := st.repository.set k (merge st.mode t s).2 }

/-- The store after a structure got a new slot. -/
def extended (st : StateStore V) (state : Nat) (s : Structure V) : StateStore V :=
  { st with
    joinTimer := st.joinTimer.record {}
    repository := (st.repository.add s).1
    states := st.states.modify state (· ++ [st.repository.items.length + 1]) }

/-- A structure is merged into the slot that is related to it, or gets a new slot. -/
theorem addStructure_cases (hst : st.Valid) (hs : s.WellFormed) {state : Nat} {slots : List Nat}
    (hslots : st.slots? state = some slots) :
    (∃ k ∈ slots, ∃ t, st.repository.get? k = some t ∧ Related st.mode t s ∧
        st.addStructure state s = .ok (st.merged s k t, (merge st.mode t s).1 = .merged,
          st.fact state k)) ∨
      (∀ k ∈ slots, ∀ t, st.repository.get? k = some t → ¬ Related st.mode t s) ∧
        st.addStructure state s = .ok (st.extended state s, true,
          st.fact state (st.repository.items.length + 1)) := by
  unfold addStructure
  rw [hslots]
  dsimp only
  cases habsorb : absorb? { st with joinTimer := st.joinTimer.record {} } s slots with
  | some found =>
    obtain ⟨k, o, r⟩ := found
    obtain ⟨hk, ho, t, ht, hmerge⟩ := absorb?_eq_some habsorb
    dsimp only at ht hmerge
    refine .inl ⟨k, hk, t, ht, ?_, ?_⟩
    · by_contra hno
      rw [merge_of_not_related (hst.wellFormed k t ht) hs hno] at hmerge
      cases hmerge
      exact ho rfl
    · simp only [merged, hmerge]
      rfl
  | none =>
    refine .inr ⟨fun k hk t ht => ?_, rfl⟩
    exact (merge_eq_unrelated_iff (hst.wellFormed k t ht) hs).1 (absorb?_eq_none habsorb hk ht)

theorem addStructure_of_none {state : Nat} (h : st.slots? state = none) :
    st.addStructure state s = .error (.unknownState state) := by
  unfold addStructure
  rw [h]

/-- What an addition that was accepted has done. -/
theorem addStructure_inv (hst : st.Valid) (hs : s.WellFormed) {st' : StateStore V} {state : Nat}
    {changed : Bool} {f : Fact} (h : st.addStructure state s = .ok (st', changed, f)) :
    ∃ slots, st.slots? state = some slots ∧
      ((∃ k ∈ slots, ∃ t, st.repository.get? k = some t ∧ Related st.mode t s ∧
          st' = st.merged s k t ∧ (changed = true ↔ (merge st.mode t s).1 = .merged) ∧
          f = st.fact state k) ∨
        st' = st.extended state s ∧ changed = true ∧
          f = st.fact state (st.repository.items.length + 1)) := by
  cases hslots : st.slots? state with
  | none =>
    rw [addStructure_of_none hslots] at h
    cases h
  | some slots =>
    refine ⟨slots, rfl, ?_⟩
    rcases addStructure_cases hst hs hslots with ⟨k, hk, t, ht, hrel, heq⟩ | ⟨-, heq⟩
    · rw [heq] at h
      cases h
      exact .inl ⟨k, hk, t, ht, hrel, rfl, decide_eq_true_iff, rfl⟩
    · rw [heq] at h
      cases h
      exact .inr ⟨rfl, rfl, rfl⟩

end Add

/-! ## Slots belong to states -/

/-- To add a slot to one state adds it to all slots. -/
theorem flatten_modify_append {states : List (List Nat)} {state : Nat} {slots : List Nat}
    (h : states[state]? = some slots) (x : Nat) :
    (states.modify state (· ++ [x])).flatten.Perm (states.flatten ++ [x]) := by
  induction states generalizing state with
  | nil => cases h
  | cons l rest ih =>
    cases state with
    | zero =>
      rw [List.modify_zero_cons, List.flatten_cons, List.flatten_cons, List.append_assoc,
        List.append_assoc]
      exact (List.perm_append_comm).append_left l
    | succ state =>
      rw [List.modify_succ_cons, List.flatten_cons, List.flatten_cons, List.append_assoc]
      exact (ih h).append_left l

section Owned

variable {st : StateStore V}

/-- Every slot belongs to one state. -/
def Owned (st : StateStore V) : Prop :=
  st.states.flatten.Perm (List.range' 1 st.repository.size)

theorem Owned.allocate (h : st.Owned) : st.allocate.1.Owned := by
  have hflatten : (st.states ++ [[]]).flatten = st.states.flatten := by simp
  show (st.states ++ [[]]).flatten.Perm (List.range' 1 st.repository.size)
  rw [hflatten]
  exact h

theorem Owned.merged (h : st.Owned) (s : Structure V) (k : Nat) (t : Structure V) :
    (st.merged s k t).Owned := by
  have hsize : (st.merged s k t).repository.size = st.repository.size := by
    cases k with
    | zero => rfl
    | succ k => exact List.length_set
  show st.states.flatten.Perm _
  rw [hsize]
  exact h

/-- A new slot belongs to the state that gets it, and to no other. -/
theorem Owned.extended (h : st.Owned) {state : Nat} {slots : List Nat}
    (hslots : st.slots? state = some slots) (s : Structure V) : (st.extended state s).Owned := by
  have hsize : (st.extended state s).repository.size = st.repository.size + 1 :=
    List.length_append
  show (st.states.modify state (· ++ [st.repository.size + 1])).flatten.Perm _
  rw [hsize, List.range'_concat, Nat.one_mul, Nat.add_comm 1]
  exact (flatten_modify_append hslots _).trans (h.append_right _)

end Owned

/-! ## A merge into a slot -/

section Merged

variable {st : StateStore V} (hst : st.Valid) {s : Structure V} (hs : s.WellFormed) {k : Nat}
  {t : Structure V} (ht : st.repository.get? k = some t)
include ht

/-- A merge changes one slot. -/
theorem get?_merged (j : Nat) : (st.merged s k t).repository.get? j =
    if j = k then some (merge st.mode t s).2 else st.repository.get? j :=
  Repository.get?_set (Option.isSome_iff_exists.2 ⟨t, ht⟩) _ j

include hst hs

/-- Where two structures are related, a merge joins them. -/
theorem joined_of_related (hrel : Related st.mode t s) :
    Joined st.mode t s (merge st.mode t s).2 :=
  (joined_merge (hst.wellFormed k t ht) hs hrel).2

/-- What a slot holds after a merge has grown from what it held before. -/
theorem exists_get?_of_merged (hrel : Related st.mode t s) {j : Nat} {r : Structure V}
    (hr : (st.merged s k t).repository.get? j = some r) :
    ∃ r₀, st.repository.get? j = some r₀ ∧ Below st.mode r₀ r ∧ r.WellFormed := by
  rw [get?_merged ht] at hr
  split at hr
  · rename_i hjk
    cases hr
    have hjoined := joined_of_related hst hs ht hrel
    exact ⟨t, hjk ▸ ht, hjoined.left, hjoined.wellFormed⟩
  · exact ⟨r, hr, .refl r, hst.wellFormed j r hr⟩

/-- A merge into a related structure keeps a store valid. -/
theorem Valid.merged (hrel : Related st.mode t s) : (st.merged s k t).Valid := by
  refine ⟨fun j r hr => ?_, ?_, fun state slots hslots i hi j hj hne r q hr hq hrq => ?_⟩
  · obtain ⟨-, -, -, hwf⟩ := exists_get?_of_merged hst hs ht hrel hr
    exact hwf
  · exact Owned.merged hst.owned s k t
  · -- Growing makes no structures related that were not.
    obtain ⟨r₀, hr₀, hbelow, -⟩ := exists_get?_of_merged hst hs ht hrel hr
    obtain ⟨q₀, hq₀, hbelow', -⟩ := exists_get?_of_merged hst hs ht hrel hq
    exact hst.apart state slots hslots i hi j hj hne r₀ q₀ hr₀ hq₀
      ((hbelow.related.trans hrq).trans hbelow'.related.symm)

end Merged

/-! ## A new slot -/

section Extended

variable {st : StateStore V} {state : Nat} {slots : List Nat}
  (hslots : st.slots? state = some slots) {s : Structure V}

/-- An extension fills the next slot and changes no other. -/
theorem get?_extended (j : Nat) : (st.extended state s).repository.get? j =
    if j = st.repository.items.length + 1 then some s else st.repository.get? j :=
  Repository.get?_add _ _ j

include hslots

theorem slots?_extended (other : Nat) : (st.extended state s).slots? other =
    if other = state then some (slots ++ [st.repository.items.length + 1])
    else st.slots? other := by
  unfold slots? extended
  rw [List.getElem?_modify]
  split
  · rename_i h
    subst h
    rw [if_pos rfl, show st.states[state]? = some slots from hslots]
    rfl
  · rename_i h
    rw [if_neg (Ne.symm h)]
    simp

/-- A structure that is related to none in its state may get a slot of its own. -/
theorem Valid.extended (hst : st.Valid) (hs : s.WellFormed)
    (hnew : ∀ k ∈ slots, ∀ t, st.repository.get? k = some t → ¬ Related st.mode t s) :
    (st.extended state s).Valid := by
  have hold : ∀ other slots, st.slots? other = some slots → ∀ j ∈ slots,
      (st.extended state s).repository.get? j = st.repository.get? j := by
    intro other slots hother j hj
    rw [get?_extended, if_neg (hst.ne_new_slot hother hj)]
  refine ⟨fun j r hr => ?_, ?_, fun other owns hother i hi j hj hne r q hr hq => ?_⟩
  · rw [get?_extended] at hr
    split at hr
    · cases hr
      exact hs
    · exact hst.wellFormed j r hr
  · exact Owned.extended hst.owned hslots s
  · rw [slots?_extended hslots] at hother
    split at hother
    · rename_i hstate
      cases hother
      rw [List.mem_append, List.mem_singleton] at hi hj
      rcases hi with hi | rfl
      · rw [hold state slots hslots i hi] at hr
        rcases hj with hj | rfl
        · rw [hold state slots hslots j hj] at hq
          exact hst.apart state slots hslots i hi j hj hne r q hr hq
        · rw [get?_extended, if_pos rfl] at hq
          cases hq
          exact hnew i hi r hr
      · rw [get?_extended, if_pos rfl] at hr
        cases hr
        rcases hj with hj | rfl
        · rw [hold state slots hslots j hj] at hq
          exact fun hrel => hnew j hj q hq hrel.symm
        · exact absurd rfl hne
    · rw [hold other owns hother i hi] at hr
      rw [hold other owns hother j hj] at hq
      exact hst.apart other owns hother i hi j hj hne r q hr hq

end Extended

/-! ## What a call can do -/

/-- The stores differ in messages and counters at most. -/
structure SameStates (st st' : StateStore V) : Prop where
  repository : st'.repository = st.repository
  mode : st'.mode = st.mode
  states : st'.states = st.states

theorem sameStates_addMessages (st : StateStore V) (f : Fact) (m : Messages V) :
    SameStates st (st.addMessages f m) := by
  unfold addMessages
  split
  · exact ⟨rfl, rfl, rfl⟩
  · exact ⟨rfl, rfl, rfl⟩

/-- A call changes nothing, allocates a state, merges into a slot or makes one. -/
theorem perform_cases {st : StateStore V} (hst : st.Valid) {call : Call V}
    (hcall : call.WellFormed) :
    (SameStates st (st.perform call) ∧ st.answer? call = none) ∨
      (st.perform call = st.allocate.1 ∧ st.answer? call = none) ∨
      (∃ state slots s k t, st.slots? state = some slots ∧ s.WellFormed ∧ k ∈ slots ∧
        st.repository.get? k = some t ∧ Related st.mode t s ∧
        st.perform call = st.merged s k t ∧ st.answer? call = some (st.fact state k)) ∨
      ∃ state slots s, st.slots? state = some slots ∧ s.WellFormed ∧
        (∀ k ∈ slots, ∀ t, st.repository.get? k = some t → ¬ Related st.mode t s) ∧
        st.perform call = st.extended state s ∧
        st.answer? call = some (st.fact state (st.repository.items.length + 1)) := by
  cases call with
  | allocate => exact .inr (.inl ⟨rfl, rfl⟩)
  | record f m => exact .inl ⟨sameStates_addMessages st f m, rfl⟩
  | add state s =>
    cases hslots : st.slots? state with
    | none =>
      left
      simp only [perform, answer?, addStructure_of_none hslots, and_true]
      exact ⟨rfl, rfl, rfl⟩
    | some slots =>
      right
      right
      rcases addStructure_cases hst hcall hslots with ⟨k, hk, t, ht, hrel, heq⟩ | ⟨hnew, heq⟩
      · left
        refine ⟨state, slots, s, k, t, hslots, hcall, hk, ht, hrel, ?_⟩
        simp only [perform, answer?, heq, and_self]
      · right
        refine ⟨state, slots, s, hslots, hcall, hnew, ?_⟩
        simp only [perform, answer?, heq, and_self]

/-- Messages and timers have no part in validity. -/
theorem Valid.of_sameStates {st st' : StateStore V} (hst : st.Valid) (h : SameStates st st') :
    st'.Valid := by
  refine ⟨?_, ?_, ?_⟩
  · rw [h.repository]
    exact hst.wellFormed
  · rw [h.repository, h.states]
    exact hst.owned
  · unfold slots?
    rw [h.repository, h.states, h.mode]
    exact hst.apart

theorem slots?_allocate (st : StateStore V) (state : Nat) :
    st.allocate.1.slots? state = if state = st.states.length then some [] else st.slots? state := by
  unfold slots? allocate
  rw [List.getElem?_append, List.getElem?_singleton]
  split
  · rw [if_neg (by omega)]
  · split
    · rw [if_pos (by omega)]
    · rw [if_neg (by omega), List.getElem?_eq_none (by omega)]

theorem Valid.allocate {st : StateStore V} (hst : st.Valid) : st.allocate.1.Valid := by
  refine ⟨hst.wellFormed, Owned.allocate hst.owned, fun state slots hslots i hi => ?_⟩
  · rw [slots?_allocate] at hslots
    split at hslots
    · cases hslots
      cases hi
    · exact hst.apart state slots hslots i hi

/-- Every call keeps a store valid. -/
theorem Valid.perform {st : StateStore V} (hst : st.Valid) {call : Call V}
    (hcall : call.WellFormed) : (st.perform call).Valid := by
  rcases perform_cases hst hcall with ⟨hsame, -⟩ | ⟨heq, -⟩ |
    ⟨_, _, s, k, t, -, hs, -, ht, hrel, heq, -⟩ | ⟨state, slots, s, hslots, hs, hnew, heq, -⟩
  · exact hst.of_sameStates hsame
  · exact heq ▸ hst.allocate
  · exact heq ▸ hst.merged hs ht hrel
  · exact heq ▸ Valid.extended hslots hst hs hnew

/-- So does every run. -/
theorem Valid.run {st : StateStore V} (hst : st.Valid) {calls : List (Call V)}
    (hcalls : ∀ c ∈ calls, c.WellFormed) : (st.run calls).Valid := by
  induction calls generalizing st with
  | nil => exact hst
  | cons c calls ih =>
    obtain ⟨hc, hrest⟩ := List.forall_mem_cons.1 hcalls
    exact ih (hst.perform hc) hrest

/-! ## How a store changes -/

/-- The structure in a slot has grown. -/
structure Grows (mode : JoinMode) (s t : Structure V) : Prop where
  nodes : t.nodes = s.nodes
  rises : ∀ p u, (s.value p u).le (t.value p u)
  below : Below mode s t

theorem Grows.refl {mode : JoinMode} (s : Structure V) : Grows mode s s :=
  ⟨rfl, fun _ _ => Kleene.le_refl _, .refl s⟩

/-- A slot that grows and grows again has grown. -/
theorem Grows.trans {mode : JoinMode} {r s t : Structure V} (h₁ : Grows mode r s)
    (h₂ : Grows mode s t) : Grows mode r t :=
  ⟨h₂.nodes.trans h₁.nodes, fun p u => Kleene.le_trans (h₁.rises p u) (h₂.rises p u),
    h₁.below.trans h₂.below⟩

/-- States keep their slots, and slots keep their structures or let them grow. -/
structure Extends (st st' : StateStore V) : Prop where
  id : st'.id = st.id
  mode : st'.mode = st.mode
  slots : ∀ state slots, st.slots? state = some slots →
    ∃ more, st'.slots? state = some (slots ++ more)
  grows : ∀ slot s, st.repository.get? slot = some s →
    ∃ t, st'.repository.get? slot = some t ∧ Grows st.mode s t

/-- To extend a store twice extends it. -/
theorem Extends.trans {st₁ st₂ st₃ : StateStore V} (h₁ : Extends st₁ st₂)
    (h₂ : Extends st₂ st₃) : Extends st₁ st₃ := by
  refine ⟨h₂.id.trans h₁.id, h₂.mode.trans h₁.mode, fun state slots hslots => ?_,
    fun slot r hr => ?_⟩
  · obtain ⟨more, hmore⟩ := h₁.slots state slots hslots
    obtain ⟨more', hmore'⟩ := h₂.slots state _ hmore
    exact ⟨more ++ more', by rw [hmore', List.append_assoc]⟩
  · obtain ⟨s, hs, hgrows⟩ := h₁.grows slot r hr
    obtain ⟨t, ht, hgrows'⟩ := h₂.grows slot s hs
    exact ⟨t, ht, hgrows.trans (h₁.mode ▸ hgrows')⟩

theorem Extends.of_sameStates {st st' : StateStore V} (h : SameStates st st') :
    Extends st st' := by
  refine ⟨?_, h.mode, fun state slots hslots => ⟨[], ?_⟩, fun slot s hs => ⟨s, ?_, .refl s⟩⟩
  · unfold StateStore.id
    rw [h.repository]
  · unfold slots? at hslots ⊢
    rw [h.states, hslots, List.append_nil]
  · rw [h.repository, hs]

theorem Extends.refl (st : StateStore V) : Extends st st := .of_sameStates ⟨rfl, rfl, rfl⟩

theorem extends_allocate (st : StateStore V) : Extends st st.allocate.1 := by
  refine ⟨rfl, rfl, fun state slots hslots => ⟨[], ?_⟩, fun slot s hs => ⟨s, hs, .refl s⟩⟩
  have hlt : state < st.states.length := (List.getElem?_eq_some_iff.1 hslots).1
  rw [slots?_allocate, if_neg (by omega), hslots, List.append_nil]

/-- A merge lets one slot grow and loses no other. -/
theorem extends_merged {st : StateStore V} (hst : st.Valid) {s : Structure V} (hs : s.WellFormed)
    {k : Nat} {t : Structure V} (ht : st.repository.get? k = some t)
    (hrel : Related st.mode t s) : Extends st (st.merged s k t) := by
  have hid : (st.merged s k t).id = st.id := by
    unfold StateStore.id merged Repository.set
    cases k <;> rfl
  refine ⟨hid, rfl, fun state slots hslots => ⟨[], ?_⟩, fun slot r hr => ?_⟩
  · rw [List.append_nil]
    exact hslots
  · rw [get?_merged ht]
    split
    · rename_i hslot
      rw [hslot, ht] at hr
      cases hr
      have hjoined := joined_of_related hst hs ht hrel
      exact ⟨_, rfl, hjoined.nodes, hjoined.rises, hjoined.left⟩
    · exact ⟨r, hr, .refl r⟩

/-- An extension leaves every slot as it was. -/
theorem extends_extended {st : StateStore V} {state : Nat} {slots : List Nat}
    (hslots : st.slots? state = some slots) (s : Structure V) :
    Extends st (st.extended state s) := by
  refine ⟨rfl, rfl, fun other owns hother => ?_, fun slot r hr => ⟨r, ?_, .refl r⟩⟩
  · rw [slots?_extended hslots]
    split
    · rename_i h
      rw [h, hslots] at hother
      cases hother
      exact ⟨_, rfl⟩
    · exact ⟨[], by rw [hother, List.append_nil]⟩
  · have hmem := Repository.get?_isSome.1 (Option.isSome_iff_exists.2 ⟨r, hr⟩)
    rw [List.mem_range'_1] at hmem
    rw [get?_extended, if_neg (by omega), hr]

/-- A call only extends a store. -/
theorem extends_perform {st : StateStore V} (hst : st.Valid) {call : Call V}
    (hcall : call.WellFormed) : Extends st (st.perform call) := by
  rcases perform_cases hst hcall with ⟨hsame, -⟩ | ⟨heq, -⟩ |
    ⟨_, _, s, k, t, -, hs, -, ht, hrel, heq, -⟩ | ⟨state, slots, s, hslots, -, -, heq, -⟩
  · exact .of_sameStates hsame
  · exact heq ▸ extends_allocate st
  · exact heq ▸ extends_merged hst hs ht hrel
  · exact heq ▸ extends_extended hslots s

/-- So does a run. -/
theorem extends_run {st : StateStore V} (hst : st.Valid) {calls : List (Call V)}
    (hcalls : ∀ c ∈ calls, c.WellFormed) : Extends st (st.run calls) := by
  induction calls generalizing st with
  | nil => exact .refl st
  | cons c calls ih =>
    obtain ⟨hc, hrest⟩ := List.forall_mem_cons.1 hcalls
    exact (extends_perform hst hc).trans (ih (hst.perform hc) hrest)

/-! ## Slots stay apart -/

/-- The slots of a state stay apart.  After any run, merging the structure of one
slot into that of another slot of the state is refused. -/
theorem slots_unrelated (id : Nat) (mode : JoinMode) (calls : List (Call V))
    (hcalls : ∀ c ∈ calls, c.WellFormed) (state : Nat) (slots : List Nat)
    (hslots : ((new id mode).run calls).slots? state = some slots) (i j : Nat) (hi : i ∈ slots)
    (hj : j ∈ slots) (hne : i ≠ j) :
    ∃ s t, ((new id mode).run calls).repository.get? i = some s ∧
      ((new id mode).run calls).repository.get? j = some t ∧
      (merge mode s t).1 = .unrelated ∧ (mode = .relational → ¬ Isomorphic s t) := by
  have hst := (valid_new (V := V) id mode).run hcalls
  have hmode : ((new id mode).run calls).mode = mode :=
    (extends_run (valid_new id mode) hcalls).mode
  obtain ⟨s, hs⟩ := hst.exists_get? hslots hi
  obtain ⟨t, ht⟩ := hst.exists_get? hslots hj
  have happart := hst.apart state slots hslots i hi j hj hne s t hs ht
  rw [hmode] at happart
  refine ⟨s, t, hs, ht, ?_, fun _ hiso => ?_⟩
  · exact (merge_eq_unrelated_iff (hst.wellFormed i s hs) (hst.wellFormed j t ht)).2 happart
  · exact happart (Isomorphic.below hiso).related

/-- A cell with values for `x` and for its link to itself. -/
def linkedCell (x link : Kleene) : Structure cellVocabulary :=
  ((newNodes 1 {}).set 6 [0] x).set 7 [0, 0] link

/-- Two cells to which `x` points are joined in one slot, and a third cell gets
another slot. -/
def joinedCells : List (Call cellVocabulary) :=
  [.allocate, .add 0 (linkedCell .tt .tt), .add 0 (linkedCell .ff .tt),
    .add 0 (linkedCell .tt .ff)]

theorem slots_unrelated_cells :
    (∀ c ∈ joinedCells, c.WellFormed) ∧
      ((new 0 .pointwise).run joinedCells).slots? 0 = some [1, 2] ∧
      ∃ s t, ((new 0 .pointwise).run joinedCells).repository.get? 1 = some s ∧
        ((new 0 .pointwise).run joinedCells).repository.get? 2 = some t ∧
        s.value 7 [0, 0] = .unknown ∧ (merge .pointwise s t).1 = .unrelated := by
  have hcalls : ∀ c ∈ joinedCells, c.WellFormed := by decide
  have hslots : ((new 0 .pointwise).run joinedCells).slots? 0 = some [1, 2] := by decide
  obtain ⟨s, t, hs, ht, hmerge, -⟩ := slots_unrelated 0 .pointwise joinedCells hcalls 0 [1, 2]
    hslots 1 2 (by decide) (by decide) (by decide)
  have hvalue : (((new 0 .pointwise).run joinedCells).repository.get? 1).map
      (fun r => r.value 7 [0, 0]) = some .unknown := by decide
  rw [hs] at hvalue
  exact ⟨hcalls, hslots, s, t, hs, ht, by simpa using hvalue, hmerge⟩

end StateStore

end ShapeAnalysis
