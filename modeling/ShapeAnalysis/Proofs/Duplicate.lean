import Mathlib.Data.Nat.Bitwise
import ShapeAnalysis.Proofs.Isomorphism

/-!
# Copying a node with masks

A node is copied by repeating every entry that mentions it, once for each set of its places
but the empty one.  The sets are enumerated as 32-bit masks.  A tuple is *reached* when some
mask has the copy just where the tuple has it (`Reached`).  The copy gives a reached tuple the
value that it had with the original in the place of the copy, and any other tuple is false
(`WellFormed.value_duplicateByMasks`).

With at most 31 places the masks give every set of them, so every tuple is reached
(`reached_of_length_le`).

The predicates are copied one after the other.  A step changes the values of its predicate only
(`get?_copyEntries`), so along the list of predicates each of them is copied once
(`get?_foldl_copyEntries`, by induction on the list).
-/

namespace ShapeAnalysis

namespace Structure

variable {V : Vocabulary}

/-! ## Masks -/

theorem toNat_one_shiftLeft {k : Nat} (hk : k < 32) :
    ((1 : UInt32) <<< UInt32.ofNat k).toNat = 2 ^ k := by
  have hsmall : k < 2 ^ 32 := by omega
  rw [UInt32.toNat_shiftLeft, UInt32.toNat_ofNat', Nat.mod_eq_of_lt hsmall, Nat.mod_eq_of_lt hk,
    UInt32.toNat_one, Nat.shiftLeft_eq, Nat.one_mul]
  exact Nat.mod_eq_of_lt (Nat.pow_lt_pow_right (by decide) hk)

theorem and_shiftLeft_ne_zero_iff {mask : UInt32} {j : Nat} (hj : j < 32) :
    mask &&& ((1 : UInt32) <<< UInt32.ofNat j) ≠ 0 ↔ mask.toNat.testBit j = true := by
  rw [ne_eq, ← UInt32.toNat_inj, UInt32.toNat_and, toNat_one_shiftLeft hj, Nat.and_two_pow]
  cases mask.toNat.testBit j <;> simp

theorem mem_masks {k : Nat} (hk : k ≤ 31) {mask : UInt32} :
    mask ∈ masks k ↔ mask ≠ 0 ∧ mask.toNat < 2 ^ k := by
  have hbound : 2 ^ k < 2 ^ 32 := Nat.pow_lt_pow_right (by decide) (by omega)
  have hzero : mask ≠ 0 ↔ mask.toNat ≠ 0 := not_congr UInt32.toNat_inj.symm
  rw [masks, toNat_one_shiftLeft (by omega), hzero, List.mem_map]
  constructor
  · rintro ⟨m, hm, rfl⟩
    rw [List.mem_range'_1] at hm
    rw [UInt32.toNat_ofNat', Nat.mod_eq_of_lt (by omega)]
    omega
  · intro h
    exact ⟨mask.toNat, List.mem_range'_1.2 (by omega), UInt32.ofNat_toNat⟩

-- Shifts take their amount modulo 32, so with 32 places no mask is left.
example : masks 32 = [] := by decide

/-! ## Tuples -/

theorem mem_placesOf {u : Node} {t : List Node} {i : Nat} :
    i ∈ placesOf u t ↔ t[i]? = some u := by
  simp [placesOf, List.mem_zipIdx_iff_getElem?]

theorem length_placesOf_le (u : Node) (t : List Node) : (placesOf u t).length ≤ t.length := by
  rw [placesOf, List.length_map]
  exact (List.length_filter_le _ _).trans_eq List.length_zipIdx

/-- The place `i` stands in a list at a position with its bit set.  Positions count from `n`. -/
def Chosen (bit : Nat → Prop) (places : List Nat) (n i : Nat) : Prop :=
  ∃ j, places[j]? = some i ∧ bit (n + j)

theorem chosen_cons {bit : Nat → Prop} {p : Nat} {rest : List Nat} {n i : Nat} :
    Chosen bit (p :: rest) n i ↔ (p = i ∧ bit n) ∨ Chosen bit rest (n + 1) i := by
  constructor
  · rintro ⟨j, hj, hbit⟩
    cases j with
    | zero => exact .inl ⟨Option.some.inj hj, hbit⟩
    | succ j => exact .inr ⟨j, hj, by rwa [Nat.add_assoc, Nat.add_comm 1 j]⟩
  · rintro (⟨rfl, hbit⟩ | ⟨j, hj, hbit⟩)
    · exact ⟨0, rfl, hbit⟩
    · exact ⟨j + 1, hj, by rwa [Nat.add_assoc, Nat.add_comm 1 j] at hbit⟩

/-- Along the places the chosen ones get `c`, and what is not chosen stays. -/
theorem getElem?_foldl_set {c : Node} {bit : Nat → Prop} [DecidablePred bit] (places : List Nat)
    (n i : Nat) (t : List Node) :
    (Chosen bit places n i → i < t.length →
        ((places.zipIdx n).foldl (fun t e => if bit e.2 then t.set e.1 c else t) t)[i]? =
          some c) ∧
      (¬ Chosen bit places n i →
        ((places.zipIdx n).foldl (fun t e => if bit e.2 then t.set e.1 c else t) t)[i]? =
          t[i]?) := by
  induction places generalizing n t with
  | nil => simp [Chosen]
  | cons p rest ih =>
    rw [List.zipIdx_cons, List.foldl_cons, chosen_cons]
    obtain ⟨hin, hout⟩ := ih (n + 1) (if bit n then t.set p c else t)
    constructor
    · intro h hi
      by_cases hrest : Chosen bit rest (n + 1) i
      · refine hin hrest ?_
        split <;> simpa using hi
      · obtain ⟨rfl, hbit⟩ := h.resolve_right hrest
        rw [hout hrest, if_pos hbit, List.getElem?_set_self hi]
    · intro h
      rw [not_or] at h
      rw [hout h.2]
      split
      · rename_i hbit
        exact List.getElem?_set_ne fun hp => h.1 ⟨hp, hbit⟩
      · rfl

/-- A mask picks the places whose bit is set in it. -/
def Picks (mask : UInt32) (places : List Nat) (i : Nat) : Prop :=
  Chosen (fun j => mask &&& ((1 : UInt32) <<< UInt32.ofNat j) ≠ 0) places 0 i

/-- Of at most 32 places every one has a bit of its own. -/
theorem picks_iff {places : List Nat} (hk : places.length ≤ 32) (mask : UInt32) (i : Nat) :
    Picks mask places i ↔ ∃ j, places[j]? = some i ∧ mask.toNat.testBit j = true := by
  refine exists_congr fun j => and_congr_right fun hj => ?_
  have hlt : j < places.length := (List.getElem?_eq_some_iff.1 hj).1
  rw [Nat.zero_add]
  exact and_shiftLeft_ne_zero_iff (by omega)

section Substitute

variable {c : Node} {places : List Nat} {mask : UInt32} {t : List Node} {i : Nat}

theorem Picks.mem (h : Picks mask places i) : i ∈ places := by
  obtain ⟨j, hj, -⟩ := h
  exact List.mem_of_getElem? hj

theorem getElem?_substitute_of_picks (h : Picks mask places i) (hi : i < t.length) :
    (substitute c places mask t)[i]? = some c :=
  (getElem?_foldl_set places 0 i t).1 h hi

theorem getElem?_substitute_of_not_picks (h : ¬ Picks mask places i) :
    (substitute c places mask t)[i]? = t[i]? :=
  (getElem?_foldl_set places 0 i t).2 h

end Substitute

@[simp] theorem uncopy_self (c u : Node) : uncopy c u c = u := if_pos rfl

theorem uncopy_of_ne {c n : Node} (u : Node) (h : n ≠ c) : uncopy c u n = n := if_neg h

theorem uncopy_eq_iff {c u n : Node} : uncopy c u n = u ↔ n = c ∨ n = u := by
  unfold uncopy
  split <;> simp [*]

theorem uncopy_eq_iff_of_ne {c u m n : Node} (hmu : m ≠ u) (hmc : m ≠ c) :
    uncopy c u n = m ↔ n = m := by
  unfold uncopy
  split
  · rename_i hn
    exact iff_of_false hmu.symm fun h => hmc (h.symm.trans hn)
  · rfl

theorem map_uncopy_of_not_mem {u c : Node} {t : List Node} (hc : c ∉ t) :
    t.map (uncopy c u) = t :=
  map_eq_self fun _ hn => uncopy_of_ne u fun he => hc (he ▸ hn)

/-! ## Tuples that a mask reaches -/

/-- Some mask has the copy where a tuple has it, if the tuple has it at all. -/
def Reached (u c : Node) (t : List Node) : Prop :=
  c ∈ t → ∃ mask ∈ masks (placesOf u (t.map (uncopy c u))).length,
    ∀ i, Picks mask (placesOf u (t.map (uncopy c u))) i ↔ t[i]? = some c

section Variants

variable {u c : Node} {t t' : List Node}

/-- Where a variant has the copy, the tuple has the original. -/
theorem getElem?_of_map_uncopy (h : t'.map (uncopy c u) = t) {i : Nat} (hi : t'[i]? = some c) :
    t[i]? = some u := by
  rw [← h, List.getElem?_map, hi, Option.map_some, uncopy_self]

theorem getElem?_of_ne_copy (h : t'.map (uncopy c u) = t) {i : Nat} (hi : t'[i]? ≠ some c) :
    t'[i]? = t[i]? := by
  rw [← h, List.getElem?_map]
  cases hn : t'[i]? with
  | none => rfl
  | some n =>
    have hne : n ≠ c := fun he => hi (by rw [hn, he])
    rw [Option.map_some, uncopy_of_ne u hne]

/-- Putting the copy back undoes a substitution. -/
theorem map_uncopy_substitute (hc : c ∉ t) (mask : UInt32) :
    (substitute c (placesOf u t) mask t).map (uncopy c u) = t := by
  refine List.ext_getElem? fun i => ?_
  rw [List.getElem?_map]
  by_cases h : Picks mask (placesOf u t) i
  · have hi := mem_placesOf.1 h.mem
    rw [getElem?_substitute_of_picks h (List.getElem?_eq_some_iff.1 hi).1, hi, Option.map_some,
      uncopy_self]
  · rw [getElem?_substitute_of_not_picks h, ← List.getElem?_map, map_uncopy_of_not_mem hc]

/-- The tuples of the masks become the tuple when the copy is put back, and have the copy at
the places that a mask picks. -/
theorem mem_maskedVariants (hc : c ∉ t) : t' ∈ maskedVariants u c t ↔
    t'.map (uncopy c u) = t ∧ ∃ mask ∈ masks (placesOf u t).length,
      ∀ i, Picks mask (placesOf u t) i ↔ t'[i]? = some c := by
  rw [maskedVariants, List.mem_map]
  constructor
  · rintro ⟨mask, hmask, rfl⟩
    refine ⟨map_uncopy_substitute hc mask, mask, hmask, fun i => ⟨fun h => ?_, fun hi => ?_⟩⟩
    · have hi := mem_placesOf.1 h.mem
      exact getElem?_substitute_of_picks h (List.getElem?_eq_some_iff.1 hi).1
    · by_contra h
      rw [getElem?_substitute_of_not_picks h] at hi
      exact hc (List.mem_of_getElem? hi)
  · rintro ⟨hback, mask, hmask, hpicks⟩
    refine ⟨mask, hmask, List.ext_getElem? fun i => ?_⟩
    by_cases hi : t'[i]? = some c
    · have hlt := (List.getElem?_eq_some_iff.1 (getElem?_of_map_uncopy hback hi)).1
      rw [hi, getElem?_substitute_of_picks ((hpicks i).2 hi) hlt]
    · rw [getElem?_substitute_of_not_picks fun h => hi ((hpicks i).1 h),
        getElem?_of_ne_copy hback hi]

theorem reached_of_not_mem (hc : c ∉ t) : Reached u c t := fun h => absurd h hc

/-- The mask of the places at which a variant has the copy. -/
def maskOf (u c : Node) (t t' : List Node) : UInt32 :=
  UInt32.ofNat <| Nat.ofBits fun j : Fin (placesOf u t).length =>
    decide (t'[(placesOf u t)[j]]? = some c)

theorem toNat_maskOf (hlen : t.length ≤ 31) : (maskOf u c t t').toNat =
    Nat.ofBits fun j : Fin (placesOf u t).length =>
      decide (t'[(placesOf u t)[j]]? = some c) := by
  have hk := (length_placesOf_le u t).trans hlen
  have hbound : 2 ^ (placesOf u t).length < 2 ^ 32 := Nat.pow_lt_pow_right (by decide) (by omega)
  rw [maskOf, UInt32.toNat_ofNat', Nat.mod_eq_of_lt ((Nat.ofBits_lt_two_pow _).trans hbound)]

theorem testBit_maskOf (hlen : t.length ≤ 31) {j i : Nat} (hj : (placesOf u t)[j]? = some i) :
    (maskOf u c t t').toNat.testBit j = true ↔ t'[i]? = some c := by
  obtain ⟨hlt, rfl⟩ := List.getElem?_eq_some_iff.1 hj
  rw [toNat_maskOf hlen, Nat.testBit_ofBits_lt _ _ hlt, decide_eq_true_iff, Fin.getElem_fin]

theorem picks_maskOf (hlen : t.length ≤ 31) (h : t'.map (uncopy c u) = t) (i : Nat) :
    Picks (maskOf u c t t') (placesOf u t) i ↔ t'[i]? = some c := by
  rw [picks_iff ((length_placesOf_le u t).trans (hlen.trans (by decide)))]
  constructor
  · rintro ⟨j, hj, hbit⟩
    exact (testBit_maskOf hlen hj).1 hbit
  · intro hi
    obtain ⟨j, hj⟩ := List.mem_iff_getElem?.1 (mem_placesOf.2 (getElem?_of_map_uncopy h hi))
    exact ⟨j, hj, (testBit_maskOf hlen hj).2 hi⟩

theorem maskOf_mem_masks (hlen : t.length ≤ 31) (h : t'.map (uncopy c u) = t) (hc : c ∈ t') :
    maskOf u c t t' ∈ masks (placesOf u t).length := by
  have hk := (length_placesOf_le u t).trans hlen
  refine (mem_masks hk).2 ⟨fun hzero => ?_, ?_⟩
  · -- The mask zero picks nothing.
    obtain ⟨i, hi⟩ := List.mem_iff_getElem?.1 hc
    obtain ⟨j, -, hbit⟩ := (picks_iff (hk.trans (by decide)) _ i).1 ((picks_maskOf hlen h i).2 hi)
    rw [hzero, UInt32.toNat_zero, Nat.zero_testBit] at hbit
    cases hbit
  · rw [toNat_maskOf hlen]
    exact Nat.ofBits_lt_two_pow _

/-- With at most 31 places no tuple is missed. -/
theorem reached_of_length_le (hlen : t.length ≤ 31) : Reached u c t := by
  have hlen' : (t.map (uncopy c u)).length ≤ 31 := by rwa [List.length_map]
  exact fun hc => ⟨maskOf u c (t.map (uncopy c u)) t, maskOf_mem_masks hlen' rfl hc,
    picks_maskOf hlen' rfl⟩

theorem placesOf_map (f : Node → Node) :
    placesOf u (t.map f) = (t.zipIdx.filter fun e => f e.1 = u).map Prod.snd := by
  rw [placesOf, List.zipIdx_map, List.filter_map, List.map_map]
  rfl

/-- Whether a tuple is reached depends only on where it has the node and the copy. -/
theorem reached_map {f : Node → Node} {u' c' : Node} (hu : ∀ n ∈ t, f n = u' ↔ n = u)
    (hc : ∀ n ∈ t, f n = c' ↔ n = c) : Reached u' c' (t.map f) ↔ Reached u c t := by
  have hplaces : placesOf u' ((t.map f).map (uncopy c' u')) = placesOf u (t.map (uncopy c u)) := by
    rw [List.map_map, placesOf_map, placesOf_map]
    refine congrArg (List.map Prod.snd) (List.filter_congr fun e he => ?_)
    have hmem : e.1 ∈ t := List.fst_mem_of_mem_zipIdx he
    rw [Function.comp_apply, decide_eq_decide, uncopy_eq_iff, uncopy_eq_iff, hu _ hmem, hc _ hmem]
  have hcopy : ∀ i : Nat, (t.map f)[i]? = some c' ↔ t[i]? = some c := by
    intro i
    rw [List.getElem?_map]
    cases hi : t[i]? with
    | none => simp
    | some n => simpa using hc n (List.mem_of_getElem? hi)
  have hmem : c' ∈ t.map f ↔ c ∈ t := by
    rw [List.mem_iff_getElem?, List.mem_iff_getElem?]
    exact exists_congr hcopy
  simp only [Reached, hplaces, hcopy, hmem]

end Variants

/-! ## One predicate after the other -/

/-- The entries of a predicate do not mention the node `c`. -/
def Unmentioned (c : Node) (r : Structure V) (p : PredId) : Prop :=
  ∀ t k, r.values.get? ⟨p, t⟩ = some k → c ∉ t

open scoped Classical in
/-- The entry of a tuple after a copy: the one with the copy put back, if a mask reaches the
tuple. -/
noncomputable def copiedEntry (u c : Node) (r : Structure V) (p : PredId) (t : List Node) :
    Option Kleene :=
  if Reached u c t then r.values.get? ⟨p, t.map (uncopy c u)⟩ else none

section Entries

variable {u c : Node} {r : Structure V} {p : PredId} {t : List Node}

theorem copiedEntry_of_not_mem (hc : c ∉ t) : copiedEntry u c r p t = r.values.get? ⟨p, t⟩ := by
  rw [copiedEntry, if_pos (reached_of_not_mem hc), map_uncopy_of_not_mem hc]

theorem copiedEntry_eq_some {k : Kleene} : copiedEntry u c r p t = some k ↔
    Reached u c t ∧ r.values.get? ⟨p, t.map (uncopy c u)⟩ = some k := by
  rw [copiedEntry, Option.ite_none_right_eq_some]

/-- What is added to the table of a predicate are entries of the copy. -/
theorem copiedEntry_of_mem_additions (h : Unmentioned c r p) {a : Atom} {k : Kleene}
    (ha : (a, k) ∈ r.additions u c p) : a.pred = p ∧ copiedEntry u c r p a.args = some k := by
  simp only [additions, List.mem_flatMap, List.mem_map, Prod.exists, mem_entries_iff] at ha
  obtain ⟨t, l, hget, t', ht', heq⟩ := ha
  cases heq
  obtain ⟨hback, hmask⟩ := (mem_maskedVariants (h t k hget)).1 ht'
  rw [copiedEntry_eq_some, Reached, hback]
  exact ⟨rfl, fun _ => hmask, hget⟩

/-- Every entry of the copy that mentions it is added. -/
theorem mem_additions (h : Unmentioned c r p) {k : Kleene} (hc : c ∈ t)
    (hk : copiedEntry u c r p t = some k) : ((⟨p, t⟩ : Atom), k) ∈ r.additions u c p := by
  obtain ⟨hreached, hget⟩ := copiedEntry_eq_some.1 hk
  have hmem := (mem_maskedVariants (h _ k hget)).2 ⟨rfl, hreached hc⟩
  exact List.mem_flatMap.2 ⟨_, mem_entries_iff.2 hget, List.mem_map.2 ⟨t, hmem, rfl⟩⟩

/-- Copying the entries of a predicate gives it the entries of the copy, and leaves the other
predicates alone. -/
theorem get?_copyEntries (h : Unmentioned c r p) (a : Atom) :
    (copyEntries u c r p).values.get? a =
      if a.pred = p then copiedEntry u c r p a.args else r.values.get? a := by
  by_cases hadd : ∃ k, (a, k) ∈ r.additions u c p
  · obtain ⟨k, hk⟩ := hadd
    obtain ⟨hp, hentry⟩ := copiedEntry_of_mem_additions h hk
    rw [if_pos hp, hentry]
    refine SortedMap.get?_insertAll_of_mem ?_ ⟨(a, k), hk, rfl⟩ _
    rintro ⟨b, l⟩ hl rfl
    have hentry' := (copiedEntry_of_mem_additions h hl).2
    rw [hentry] at hentry'
    exact (Option.some.inj hentry').symm
  · have hkeep : (copyEntries u c r p).values.get? a = r.values.get? a :=
      SortedMap.get?_insertAll_of_forall_ne (fun e he heq => hadd ⟨e.2, heq ▸ he⟩) _
    rw [hkeep]
    split
    · rename_i hp
      subst hp
      by_cases hc : c ∈ a.args
      · -- An entry of the copy would have been added, and others do not mention it.
        have hnone : copiedEntry u c r a.pred a.args = none :=
          Option.eq_none_iff_forall_ne_some.2 fun k hk => hadd ⟨k, mem_additions h hc hk⟩
        rw [hnone]
        exact Option.eq_none_iff_forall_ne_some.2 fun k hk => h a.args k hk hc
      · rw [copiedEntry_of_not_mem hc]
    · rfl

end Entries

/-- The predicates of a list are copied once each, and the others are left alone. -/
theorem get?_foldl_copyEntries {u c : Node} {ps : List PredId} (hps : ps.Nodup) {r : Structure V}
    (h : ∀ p ∈ ps, Unmentioned c r p) (a : Atom) :
    (ps.foldl (copyEntries u c) r).values.get? a =
      if a.pred ∈ ps then copiedEntry u c r a.pred a.args else r.values.get? a := by
  induction ps generalizing r with
  | nil => simp
  | cons p rest ih =>
    obtain ⟨hp, hrest⟩ := List.nodup_cons.1 hps
    have hcopy := get?_copyEntries (u := u) (h p List.mem_cons_self)
    have hother : ∀ {q : PredId}, q ≠ p → ∀ t,
        (copyEntries u c r p).values.get? ⟨q, t⟩ = r.values.get? ⟨q, t⟩ := fun hq t => by
      rw [hcopy, if_neg hq]
    have hlater : ∀ q ∈ rest, Unmentioned c (copyEntries u c r p) q := by
      intro q hq t k hget
      rw [hother (fun he => hp (he ▸ hq))] at hget
      exact h q (List.mem_cons_of_mem _ hq) t k hget
    rw [List.foldl_cons, ih hrest hlater]
    by_cases hap : a.pred = p
    · have hnot : a.pred ∉ rest := hap ▸ hp
      rw [if_neg hnot, hcopy, if_pos hap, if_pos (hap ▸ List.mem_cons_self), hap]
    · have hentry : copiedEntry u c (copyEntries u c r p) a.pred a.args =
          copiedEntry u c r a.pred a.args := by
        rw [copiedEntry, copiedEntry, hother hap]
      rw [hentry, show (copyEntries u c r p).values.get? a = r.values.get? a from hother hap _]
      simp only [List.mem_cons, hap, false_or]

theorem foldl_copyEntries_eq (u c : Node) (ps : List PredId) (r : Structure V) :
    ps.foldl (copyEntries u c) r = { r with values := (ps.foldl (copyEntries u c) r).values } := by
  induction ps generalizing r with
  | nil => rfl
  | cons p rest ih =>
    rw [List.foldl_cons, ih]
    rfl

/-! ## The whole copy -/

@[simp] theorem duplicateByMasks_snd (s : Structure V) (u : Node) :
    (s.duplicateByMasks u).2 = s.nextNode := rfl

/-- Only the values of a copy come from the masks. -/
theorem duplicateByMasks_fst (s : Structure V) (u : Node) : (s.duplicateByMasks u).1 =
    { s.newNode.1 with values := (s.duplicateByMasks u).1.values } :=
  foldl_copyEntries_eq u s.nextNode V.ids s.newNode.1

@[simp] theorem nextNode_duplicateByMasks (s : Structure V) (u : Node) :
    (s.duplicateByMasks u).1.nextNode = s.nextNode + 1 := by
  rw [duplicateByMasks_fst]
  rfl

@[simp] theorem constraints_duplicateByMasks (s : Structure V) (u : Node) :
    (s.duplicateByMasks u).1.constraints = s.constraints := by
  rw [duplicateByMasks_fst]
  rfl

theorem nodes_duplicateByMasks (s : Structure V) (u : Node) :
    (s.duplicateByMasks u).1.nodes = s.newNode.1.nodes := by
  rw [duplicateByMasks_fst]

@[simp] theorem mem_nodes_duplicateByMasks (s : Structure V) (u n : Node) :
    n ∈ (s.duplicateByMasks u).1.nodes ↔ n = s.nextNode ∨ n ∈ s.nodes := by
  rw [nodes_duplicateByMasks, mem_nodes_newNode]

theorem WellFormed.unmentioned {s : Structure V} (hs : s.WellFormed) (p : PredId) :
    Unmentioned s.nextNode s p :=
  fun _ _ hget hn => hs.nextNode_not_mem ((hs.get? hget).1.2.2 _ hn)

theorem WellFormed.get?_duplicateByMasks {s : Structure V} (hs : s.WellFormed) (u : Node)
    (p : PredId) (t : List Node) : (s.duplicateByMasks u).1.values.get? ⟨p, t⟩ =
      copiedEntry u s.nextNode s p t := by
  have hids : V.ids.Nodup := List.nodup_range
  refine (get?_foldl_copyEntries (r := s.newNode.1) hids (fun p _ => hs.unmentioned p) _).trans ?_
  split
  · rfl
  · -- A position outside the vocabulary has no entries.
    rename_i hp
    have hnone : ∀ w, s.values.get? ⟨p, w⟩ = none := fun w =>
      Option.eq_none_iff_forall_ne_some.2 fun k hk => hp (List.mem_range.2 (hs.get? hk).1.1)
    have hplain : s.newNode.1.values.get? ⟨p, t⟩ = none := hnone t
    rw [hplain, copiedEntry, hnone, ite_self]

open scoped Classical in
/-- A copy looks like the original wherever a mask puts it. -/
theorem WellFormed.value_duplicateByMasks {s : Structure V} (hs : s.WellFormed) (u : Node)
    (p : PredId) (t : List Node) : (s.duplicateByMasks u).1.value p t =
      if Reached u s.nextNode t then s.value p (t.map (uncopy s.nextNode u)) else .ff := by
  rw [value, hs.get?_duplicateByMasks, copiedEntry]
  split <;> rfl

theorem WellFormed.duplicateByMasks {s : Structure V} (hs : s.WellFormed) (u : Node) :
    (s.duplicateByMasks u).1.WellFormed := by
  refine .of_get? (fun a k h => ?_) fun n hn => ?_
  · rw [show a = ⟨a.pred, a.args⟩ from rfl, hs.get?_duplicateByMasks, copiedEntry_eq_some,
      ← hs.get?_duplicateNode] at h
    obtain ⟨⟨hp, hlen, hmem⟩, hk⟩ := (hs.duplicateNode u).get? h.2
    refine ⟨⟨hp, hlen, fun n hn => ?_⟩, hk⟩
    rw [mem_nodes_duplicateByMasks]
    exact (s.mem_nodes_duplicateNode u n).1 (hmem n hn)
  · rw [nextNode_duplicateByMasks]
    rw [mem_nodes_duplicateByMasks] at hn
    exact hs.newNode.node_lt n ((s.mem_nodes_newNode n).2 hn)

/-- With at most 31 places at every predicate the masks miss no tuple. -/
theorem WellFormed.duplicateByMasks_eq {s : Structure V} (hs : s.WellFormed)
    (harity : ∀ p < V.size, V.arity p ≤ 31) (u : Node) :
    s.duplicateByMasks u = s.duplicateNode u := by
  have hvalues : (s.duplicateByMasks u).1.values = (s.duplicateNode u).1.values := by
    refine SortedMap.ext_get? fun a => ?_
    rw [show a = ⟨a.pred, a.args⟩ from rfl, hs.get?_duplicateByMasks, hs.get?_duplicateNode]
    refine Option.ext fun k => ?_
    rw [copiedEntry_eq_some]
    refine ⟨And.right, fun hget => ⟨reached_of_length_le ?_, hget⟩⟩
    obtain ⟨⟨hp, hlen, -⟩, -⟩ := hs.get? hget
    rw [List.length_map] at hlen
    exact hlen.trans_le (harity a.pred hp)
  have hfst := s.duplicateByMasks_fst u
  rw [hvalues] at hfst
  exact Prod.ext hfst rfl

/-- A node is copied exactly.  The copy with masks is the copy.  It adds one node `c`, which is
new, and gives every tuple the value that the tuple had before with `u` in the place of `c`. -/
theorem duplicate_exact {s : Structure V} (hs : s.WellFormed)
    (harity : ∀ p < V.size, V.arity p ≤ 31) (u : Node) :
    s.duplicateByMasks u = s.duplicateNode u ∧
      ∃ c, (s.duplicateNode u).2 = c ∧ c ∉ s.nodes ∧
        (∀ n, n ∈ (s.duplicateNode u).1.nodes ↔ n = c ∨ n ∈ s.nodes) ∧
        ∀ p t, (s.duplicateNode u).1.value p t =
          s.value p (t.map fun n => if n = c then u else n) :=
  ⟨hs.duplicateByMasks_eq harity u, s.nextNode, rfl, hs.nextNode_not_mem,
    s.mem_nodes_duplicateNode u, hs.value_duplicateNode u⟩

/-- A summary node with a loop is copied: both nodes have loops, and links to each other. -/
theorem duplicate_exact_anyCells :
    anyCells.WellFormed ∧ (∀ p < cellVocabulary.size, cellVocabulary.arity p ≤ 31) ∧
      anyCells.duplicateByMasks 0 = anyCells.duplicateNode 0 ∧
      ∃ c, c ∉ anyCells.nodes ∧ (anyCells.duplicateNode 0).1.value 7 [c, 0] = .unknown ∧
        (anyCells.duplicateNode 0).1.value 7 [c, c] = .unknown := by
  have hs : anyCells.WellFormed := by decide
  have harity : ∀ p < cellVocabulary.size, cellVocabulary.arity p ≤ 31 := by decide
  obtain ⟨hmasks, c, -, hnew, -, hvalue⟩ := duplicate_exact hs harity 0
  refine ⟨hs, harity, hmasks, c, hnew, ?_, ?_⟩
  · have hzero : (0 : Node) ≠ c := fun h => hnew (h ▸ by decide)
    simp only [hvalue, List.map_cons, List.map_nil, if_true, hzero, if_false]
    decide
  · simp only [hvalue, List.map_cons, List.map_nil, if_true]
    decide

end Structure

end ShapeAnalysis
