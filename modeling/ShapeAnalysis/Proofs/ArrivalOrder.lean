import ShapeAnalysis.Proofs.Pairing
import ShapeAnalysis.Proofs.Store

/-!
# The order of arrival does not matter

The structures that were added to a state fall into classes of related ones, and
each slot of the state holds the least structure above the members of one class
(`IsSum`).  Such a structure is unique up to isomorphism and does not depend on
an order of the members.  So a state is determined, up to isomorphism, by what
was added to it.
-/

namespace ShapeAnalysis

namespace Structure

variable {V : Vocabulary}

/-- The structure is the least one above the members of a list that are related
to it, of which there are some. -/
structure IsSum (mode : JoinMode) (l : List (Structure V)) (t : Structure V) : Prop where
  member : ∃ x ∈ l, Related mode x t
  above : ∀ x ∈ l, Related mode x t → Below mode x t
  least : ∀ g : Structure V, (∀ x ∈ l, Related mode x t → Below mode x g) → Below mode t g

section

variable {mode : JoinMode} {l : List (Structure V)} {r t x : Structure V}

theorem IsSum.perm (h : IsSum mode l t) {l' : List (Structure V)} (hperm : l.Perm l') :
    IsSum mode l' t := by
  obtain ⟨x, hx, hrel⟩ := h.member
  refine ⟨⟨x, hperm.mem_iff.1 hx, hrel⟩, fun y hy => h.above y (hperm.mem_iff.2 hy),
    fun g hg => h.least g fun y hy => hg y (hperm.mem_iff.1 hy)⟩

/-- Related sums of the same members are isomorphic. -/
theorem IsSum.isomorphic (hr : IsSum mode l r) (ht : IsSum mode l t) (h : Related mode r t) :
    Isomorphic r t := by
  have hle : Below mode r t := hr.least t fun y hy hyr => ht.above y hy (hyr.trans h)
  have hge : Below mode t r := ht.least r fun y hy hyt => hr.above y hy (hyt.trans h.symm)
  exact hle.antisymm hge

/-- A structure that is not related to a sum does not count towards it. -/
theorem IsSum.append_of_not_related (h : IsSum mode l t) (hx : ¬ Related mode x t) :
    IsSum mode (l ++ [x]) t := by
  obtain ⟨y, hy, hrel⟩ := h.member
  refine ⟨⟨y, List.mem_append_left _ hy, hrel⟩, fun z hz hzt => ?_,
    fun g hg => h.least g fun z hz => hg z (List.mem_append_left _ hz)⟩
  rcases List.mem_append.1 hz with hz | hz
  · exact h.above z hz hzt
  · rw [List.mem_singleton.1 hz] at hzt
    exact absurd hzt hx

/-- Joining a structure to a sum gives the sum with one more member. -/
theorem IsSum.joined (h : IsSum mode l t) (hjoined : Joined mode t x r) :
    IsSum mode (l ++ [x]) r := by
  have hgrown := hjoined.left.related
  have hlast : x ∈ l ++ [x] := List.mem_append_right _ List.mem_cons_self
  refine ⟨⟨x, hlast, hjoined.right.related⟩, fun y hy hyr => ?_, fun g hg => ?_⟩
  · rcases List.mem_append.1 hy with hy | hy
    · exact (h.above y hy (hyr.trans hgrown.symm)).trans hjoined.left
    · rw [List.mem_singleton.1 hy]
      exact hjoined.right
  · refine hjoined.least g (h.least g fun y hy hyt => ?_) (hg x hlast hjoined.right.related)
    exact hg y (List.mem_append_left _ hy) (hyt.trans hgrown)

/-- A structure that is related to nothing before is a sum of its own. -/
theorem isSum_append_self (h : ∀ y ∈ l, ¬ Related mode y x) : IsSum mode (l ++ [x]) x := by
  have hself : Related mode x x := (Below.refl x).related
  have hlast : x ∈ l ++ [x] := List.mem_append_right _ List.mem_cons_self
  refine ⟨⟨x, hlast, hself⟩, fun y hy hyx => ?_, fun g hg => hg x hlast hself⟩
  rcases List.mem_append.1 hy with hy | hy
  · exact absurd hyx (h y hy)
  · rw [List.mem_singleton.1 hy]
    exact Below.refl x

end

end Structure

namespace StateStore

open Structure

variable {V : Vocabulary}

/-- Add structures to a state, one after another. -/
def addAll (st : StateStore V) (state : Nat) : List (Structure V) → Except Error (StateStore V)
  | [] => .ok st
  | s :: rest =>
    match st.addStructure state s with
    | .ok (st', _, _) => addAll st' state rest
    | .error e => .error e

/-- The structures that a state holds. -/
def held (st : StateStore V) (state : Nat) : List (Structure V) :=
  (st.structures state).map Prod.snd

/-! ## The sums of a state -/

/-- Every slot of the state holds a sum of what was added, and everything that
was added is in one of them. -/
structure Sums (st : StateStore V) (state : Nat) (l : List (Structure V)) : Prop where
  slots : ∃ slots, st.slots? state = some slots
  found : ∀ x ∈ l, ∃ slots k t, st.slots? state = some slots ∧ k ∈ slots ∧
    st.repository.get? k = some t ∧ Related st.mode t x
  isSum : ∀ slots k t, st.slots? state = some slots → k ∈ slots →
    st.repository.get? k = some t → IsSum st.mode l t

section Step

variable {st : StateStore V} (hst : st.Valid) {state : Nat} {slots : List Nat}
  (hslots : st.slots? state = some slots) {l : List (Structure V)} (h : Sums st state l)
  {x : Structure V} (hx : x.WellFormed)
include hst hslots h hx

theorem Sums.merged {k : Nat} (hk : k ∈ slots) {t : Structure V}
    (ht : st.repository.get? k = some t) (hrel : Related st.mode t x) :
    Sums (st.merged x k t) state (l ++ [x]) := by
  have hjoined := joined_of_related hst hx ht hrel
  refine ⟨⟨slots, hslots⟩, fun y hy => ?_, fun owns j r howns hj hr => ?_⟩
  · -- The slot in which `y` is found has grown at most.
    obtain ⟨j, r, hj, hr, hry⟩ : ∃ j r, j ∈ slots ∧
        (st.merged x k t).repository.get? j = some r ∧ Related st.mode r y := by
      rcases List.mem_append.1 hy with hy | hy
      · obtain ⟨owns, j, r, howns, hj, hr, hry⟩ := h.found y hy
        rw [hslots] at howns
        cases howns
        obtain ⟨r', hr', hgrows⟩ := (extends_merged hst hx ht hrel).grows j r hr
        exact ⟨j, r', hj, hr', hgrows.below.related.symm.trans hry⟩
      · rw [List.mem_singleton.1 hy]
        refine ⟨k, _, hk, ?_, hjoined.right.related.symm⟩
        rw [get?_merged ht, if_pos rfl]
    exact ⟨slots, j, r, hslots, hj, hr, hry⟩
  · rw [show (st.merged x k t).slots? state = st.slots? state from rfl, hslots] at howns
    cases howns
    rw [get?_merged ht] at hr
    split at hr
    · cases hr
      exact (h.isSum slots k t hslots hk ht).joined hjoined
    · rename_i hjk
      refine (h.isSum slots j r hslots hj hr).append_of_not_related fun hxr => ?_
      exact hjk (hst.slot_unique hslots hj hk hr ht hxr.symm hrel)

omit hx in
theorem Sums.extended
    (hnew : ∀ k ∈ slots, ∀ t, st.repository.get? k = some t → ¬ Related st.mode t x) :
    Sums (st.extended state x) state (l ++ [x]) := by
  have hslots' := slots?_extended hslots (s := x) state
  rw [if_pos rfl] at hslots'
  have hnone : ∀ y ∈ l, ¬ Related st.mode y x := by
    intro y hy hyx
    obtain ⟨owns, j, r, howns, hj, hr, hry⟩ := h.found y hy
    rw [hslots] at howns
    cases howns
    exact hnew j hj r hr (hry.trans hyx)
  refine ⟨⟨_, hslots'⟩, fun y hy => ?_, fun owns j r howns hj hr => ?_⟩
  · rcases List.mem_append.1 hy with hy | hy
    · obtain ⟨owns, j, r, howns, hj, hr, hry⟩ := h.found y hy
      rw [hslots] at howns
      cases howns
      refine ⟨_, j, r, hslots', List.mem_append_left _ hj, ?_, hry⟩
      rw [get?_extended, if_neg (hst.ne_new_slot hslots hj), hr]
    · rw [List.mem_singleton.1 hy]
      refine ⟨_, _, x, hslots', List.mem_append_right _ List.mem_cons_self, ?_,
        (Below.refl x).related⟩
      rw [get?_extended, if_pos rfl]
  · rw [hslots'] at howns
    cases howns
    rw [get?_extended] at hr
    split at hr
    · cases hr
      exact isSum_append_self hnone
    · rename_i hj'
      have hold : j ∈ slots := (List.mem_append.1 hj).resolve_right fun h =>
        hj' (List.mem_singleton.1 h)
      refine (h.isSum slots j r hslots hold hr).append_of_not_related fun hxr => ?_
      exact hnew j hold r hr hxr.symm

end Step

theorem Sums.add {st : StateStore V} (hst : st.Valid) {state : Nat} {l : List (Structure V)}
    (h : Sums st state l) {x : Structure V} (hx : x.WellFormed) :
    ∃ st' changed f, st.addStructure state x = .ok (st', changed, f) ∧ st'.Valid ∧
      st'.mode = st.mode ∧ Sums st' state (l ++ [x]) := by
  obtain ⟨slots, hslots⟩ := h.slots
  rcases addStructure_cases hst hx hslots with ⟨k, hk, t, ht, hrel, heq⟩ | ⟨hnew, heq⟩
  · exact ⟨_, _, _, heq, hst.merged hx ht hrel, rfl, h.merged hst hslots hx hk ht hrel⟩
  · exact ⟨_, _, _, heq, Valid.extended hslots hst hx hnew, rfl, h.extended hst hslots hnew⟩

/-- Adding structures to a state that is there succeeds and sums them up. -/
theorem Sums.addAll {st : StateStore V} (hst : st.Valid) {state : Nat}
    {before : List (Structure V)} (h : Sums st state before) (l : List (Structure V))
    (hl : ∀ s ∈ l, s.WellFormed) :
    ∃ st', st.addAll state l = .ok st' ∧ st'.Valid ∧ st'.mode = st.mode ∧
      Sums st' state (before ++ l) := by
  induction l generalizing st before with
  | nil => exact ⟨st, rfl, hst, rfl, by rwa [List.append_nil]⟩
  | cons x l ih =>
    obtain ⟨hx, hrest⟩ := List.forall_mem_cons.1 hl
    obtain ⟨st₁, changed, f, hadd, hst₁, hmode₁, h₁⟩ := h.add hst hx
    obtain ⟨st₂, hall, hst₂, hmode₂, h₂⟩ := ih hst₁ h₁ hrest
    refine ⟨st₂, ?_, hst₂, hmode₂.trans hmode₁, ?_⟩
    · rw [StateStore.addAll, hadd]
      exact hall
    · rwa [List.append_assoc] at h₂

theorem sums_allocate (id : Nat) (mode : JoinMode) :
    Sums (new id mode : StateStore V).allocate.1 (new id mode : StateStore V).allocate.2 [] := by
  refine ⟨⟨[], rfl⟩, fun x hx => ?_, fun slots k t hslots hk => ?_⟩
  · cases hx
  · cases hslots
    cases hk

/-! ## What a state holds -/

section Held

variable {st : StateStore V} {state : Nat} {slots : List Nat}
  (hslots : st.slots? state = some slots)
include hslots

theorem held_eq : st.held state = slots.filterMap st.repository.get? := by
  rw [held, structures, hslots, Option.getD_some, List.map_filterMap]
  refine List.filterMap_congr fun k _ => ?_
  rw [Option.map_map]
  exact Option.map_id'

theorem mem_held {t : Structure V} :
    t ∈ st.held state ↔ ∃ k ∈ slots, st.repository.get? k = some t := by
  rw [held_eq hslots, List.mem_filterMap]

theorem Valid.length_held (hst : st.Valid) : (st.held state).length = slots.length := by
  rw [held_eq hslots, List.filterMap_length_eq_length]
  intro k hk
  exact Option.isSome_iff_exists.2 (hst.exists_get? hslots hk)

theorem Valid.pairwise_held (hst : st.Valid) :
    (st.held state).Pairwise fun s t => ¬ Related st.mode s t := by
  rw [held_eq hslots, List.pairwise_filterMap]
  refine (hst.nodup_slots hslots).imp_of_mem fun hi hj hne s hs t ht => ?_
  exact hst.apart state slots hslots _ hi _ hj hne s t hs ht

end Held

/-- What one state holds, another state that sums up the same structures holds too. -/
theorem Sums.exists_held {st st' : StateStore V} (hmode : st'.mode = st.mode)
    {state state' : Nat} {l l' : List (Structure V)} (h : Sums st state l)
    (h' : Sums st' state' l') (hperm : l.Perm l') {t : Structure V} (ht : t ∈ st.held state) :
    ∃ t' ∈ st'.held state', Isomorphic t t' := by
  obtain ⟨slots, hslots⟩ := h.slots
  obtain ⟨k, hk, hget⟩ := (mem_held hslots).1 ht
  have hsum := h.isSum slots k t hslots hk hget
  -- A member of the sum is found in the other state.
  obtain ⟨x, hx, hxt⟩ := hsum.member
  obtain ⟨slots', k', t', hslots', hk', hget', htx⟩ := h'.found x (hperm.mem_iff.1 hx)
  have hsum' := (h'.isSum slots' k' t' hslots' hk' hget').perm hperm.symm
  rw [hmode] at hsum' htx
  exact ⟨t', (mem_held hslots').2 ⟨k', hk', hget'⟩, hsum.isomorphic hsum' (htx.trans hxt).symm⟩

/-- States that sum up the same structures hold isomorphic ones. -/
theorem Sums.paired_held {st st' : StateStore V} (hst : st.Valid) (hst' : st'.Valid)
    (hmode : st'.mode = st.mode) {state state' : Nat} {l l' : List (Structure V)}
    (h : Sums st state l) (h' : Sums st' state' l') (hperm : l.Perm l') :
    Paired Isomorphic (st.held state) (st'.held state') := by
  obtain ⟨slots, hslots⟩ := h.slots
  obtain ⟨slots', hslots'⟩ := h'.slots
  refine Paired.of_pairwise (fun t ht => h.exists_held hmode h' hperm ht) (fun t ht => ?_) ?_ ?_
  · obtain ⟨r, hr, hiso⟩ := h'.exists_held hmode.symm h hperm.symm ht
    exact ⟨r, hr, hiso.symm⟩
  · refine (hst.pairwise_held hslots).imp fun hne c hac hbc => ?_
    exact hne (Isomorphic.below (hac.trans hbc.symm)).related
  · refine (hst'.pairwise_held hslots').imp fun hne c hca hcb => ?_
    exact hne (Isomorphic.below (hca.symm.trans hcb)).related

/-- The join does not depend on the order of arrival.  Adding structures in two
orders to new states of new stores succeeds, makes equally many slots, and the
structures in the slots can be paired so that each pair is isomorphic. -/
theorem join_ignores_arrival_order (mode : JoinMode) (id id' : Nat) (l l' : List (Structure V))
    (hl : ∀ s ∈ l, s.WellFormed) (hperm : l.Perm l') :
    ∃ st st' slots slots',
      (new id mode).allocate.1.addAll (new id mode : StateStore V).allocate.2 l = .ok st ∧
      (new id' mode).allocate.1.addAll (new id' mode : StateStore V).allocate.2 l' = .ok st' ∧
      st.slots? (new id mode : StateStore V).allocate.2 = some slots ∧
      st'.slots? (new id' mode : StateStore V).allocate.2 = some slots' ∧
      slots.length = slots'.length ∧
      Paired Isomorphic (slots.filterMap st.repository.get?)
        (slots'.filterMap st'.repository.get?) := by
  have hl' : ∀ s ∈ l', s.WellFormed := fun s hs => hl s (hperm.mem_iff.2 hs)
  obtain ⟨st, hall, hst, hmode, h⟩ :=
    (sums_allocate id mode).addAll (valid_new id mode).allocate l hl
  obtain ⟨st', hall', hst', hmode', h'⟩ :=
    (sums_allocate id' mode).addAll (valid_new id' mode).allocate l' hl'
  obtain ⟨slots, hslots⟩ := h.slots
  obtain ⟨slots', hslots'⟩ := h'.slots
  rw [List.nil_append] at h h'
  have hpaired := h.paired_held hst hst' (hmode'.trans hmode.symm) h' hperm
  refine ⟨st, st', slots, slots', hall, hall', hslots, hslots', ?_, ?_⟩
  · rw [← hst.length_held hslots, ← hst'.length_held hslots']
    exact hpaired.length_eq
  · rwa [held_eq hslots, held_eq hslots'] at hpaired

theorem join_ignores_arrival_order_cells :
    (∀ s ∈ [linkedCell .tt .tt, linkedCell .ff .tt, linkedCell .tt .ff], s.WellFormed) ∧
      ∃ st st' slots slots',
        (new 0 .pointwise).allocate.1.addAll 0
          [linkedCell .tt .tt, linkedCell .ff .tt, linkedCell .tt .ff] = .ok st ∧
        (new 0 .pointwise).allocate.1.addAll 0
          [linkedCell .ff .tt, linkedCell .tt .ff, linkedCell .tt .tt] = .ok st' ∧
        st.slots? 0 = some slots ∧ st'.slots? 0 = some slots' ∧ slots.length = slots'.length ∧
        Paired Isomorphic (slots.filterMap st.repository.get?)
          (slots'.filterMap st'.repository.get?) := by
  have hl : ∀ s ∈ [linkedCell .tt .tt, linkedCell .ff .tt, linkedCell .tt .ff], s.WellFormed := by
    decide
  have hperm : ([linkedCell .tt .tt] ++ [linkedCell .ff .tt, linkedCell .tt .ff]).Perm
      ([linkedCell .ff .tt, linkedCell .tt .ff] ++ [linkedCell .tt .tt]) := List.perm_append_comm
  exact ⟨hl, join_ignores_arrival_order .pointwise 0 0 _ _ hl hperm⟩

end StateStore

end ShapeAnalysis
