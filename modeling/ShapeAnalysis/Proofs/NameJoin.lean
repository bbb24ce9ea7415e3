import ShapeAnalysis.Proofs.Merge

/-!
# Joining by names

Two structures *agree by names* when canonical names are unique in each, the same in
both, and the predicates without arguments have the same values.  Then every tuple of
the one has a single *namesake* in the other, the tuple whose nodes have the same names
(`NamesAgree.existsUnique_namesake`), and merging in the pointwise mode joins the values
at namesakes.

The main statement tells the outcomes of such a merge apart, and says what becomes of
the structure in each case (`merge_pointwise_exact`).  A merge that changes something
gives a `Widened` structure.  To merge the same candidate again adds nothing, since what
was joined is above it (`joined_merge`).
-/

namespace ShapeAnalysis

namespace Structure

variable {V : Vocabulary}

/-! ## Structures that agree by names -/

/-- Names are unique in both structures, the same in both, and the predicates without
arguments agree. -/
structure NamesAgree (s t : Structure V) : Prop where
  /-- The names of the first structure are unique. -/
  left : s.canonicalNames.Nodup
  /-- The names of the second structure are unique. -/
  right : t.canonicalNames.Nodup
  /-- They are the same names. -/
  names : ∀ name, name ∈ s.canonicalNames ↔ name ∈ t.canonicalNames
  /-- The predicates without arguments have the same values. -/
  nullary : ∀ p ∈ V.withArity 0, s.value p [] = t.value p []

/-- The tuple `w` of `t` has the names of the tuple `u` of `s`. -/
structure Namesakes (s t : Structure V) (u w : List Node) : Prop where
  /-- The nodes of `u` are nodes of `s`. -/
  left : ∀ n ∈ u, n ∈ s.nodes
  /-- The nodes of `w` are nodes of `t`. -/
  right : ∀ m ∈ w, m ∈ t.nodes
  /-- Name by name they are called the same. -/
  names : u.map (s.profile V.abstraction) = w.map (t.profile V.abstraction)

variable {s t : Structure V}

theorem namesMatch_iff_namesAgree : s.namesMatch t = true ↔ s.NamesAgree t := by
  constructor
  · intro h
    obtain ⟨hs, f, hf⟩ := namesMatch_iff.1 h
    have hperm := hf.canonicalNames_perm
    exact ⟨hs, hperm.nodup_iff.1 hs, fun _ => hperm.mem_iff,
      fun p hp => (hf.nullary_of_outline hp).symm⟩
  · intro h
    have hsize := ((List.perm_ext_iff_of_nodup h.left h.right).2 h.names).length_eq
    rw [canonicalNames_eq, canonicalNames_eq, List.length_map, List.length_map] at hsize
    simp only [namesMatch, Bool.and_eq_true, decide_eq_true_eq, List.all_eq_true,
      List.contains_iff_mem]
    exact ⟨⟨⟨⟨h.left, h.right⟩, hsize⟩, fun name hname => (h.names name).1 hname⟩, h.nullary⟩

/-- Structures that agree by names are matched by a bijection. -/
theorem NamesAgree.exists_iso (h : s.NamesAgree t) : ∃ f, Iso f s.outline t.outline :=
  (namesMatch_iff.1 (namesMatch_iff_namesAgree.2 h)).2

theorem NamesAgree.symm (h : s.NamesAgree t) : t.NamesAgree s where
  left := h.right
  right := h.left
  names name := (h.names name).symm
  nullary p hp := (h.nullary p hp).symm

theorem Namesakes.symm {u w : List Node} (h : Namesakes s t u w) : Namesakes t s w u :=
  ⟨h.right, h.left, h.names.symm⟩

/-! ## Namesakes -/

/-- The bijection takes every tuple to its namesake. -/
theorem Iso.namesakes {f : Node → Node} (hf : Iso f s.outline t.outline) {u : List Node}
    (hu : ∀ n ∈ u, n ∈ s.nodes) : Namesakes s t u (u.map f) := by
  refine ⟨hu, fun m hm => ?_, ?_⟩
  · obtain ⟨n, hn, rfl⟩ := List.mem_map.1 hm
    exact hf.maps n (hu n hn)
  · rw [List.map_map]
    exact List.map_congr_left fun n hn => (hf.profile_of_outline (hu n hn)).symm

/-- Where names are unique there is one namesake at most. -/
theorem Namesakes.unique (ht : t.canonicalNames.Nodup) {u w v : List Node}
    (hw : Namesakes s t u w) (hv : Namesakes s t u v) : w = v :=
  tuple_eq_of_map_eq (fun _ hm _ hn => eq_of_profile_eq ht hm hn) hw.right hv.right
    (hw.names.symm.trans hv.names)

theorem NamesAgree.existsUnique_namesake (h : s.NamesAgree t) {u : List Node}
    (hu : ∀ n ∈ u, n ∈ s.nodes) : ∃! w, Namesakes s t u w := by
  obtain ⟨f, hf⟩ := h.exists_iso
  exact ⟨u.map f, hf.namesakes hu, fun w hw => hw.unique h.right (hf.namesakes hu)⟩

/-- Every value of `t` is at least as precise as the one of `s` at the namesake. -/
def Covers (s t : Structure V) : Prop :=
  ∀ p u w, Namesakes s t u w → (t.value p w).le (s.value p u)

/-! ## The join -/

theorem value_joinWith_namesake (ht : t.WellFormed) (h : s.NamesAgree t) (p : PredId)
    {u w : List Node} (huw : Namesakes s t u w) :
    (s.joinWith t).2.value p u = (s.value p u).join (t.value p w) := by
  obtain ⟨f, hf⟩ := h.exists_iso
  rw [value_joinWith ht hf h.left p huw.left, huw.unique h.right (hf.namesakes huw.left)]

theorem NamesAgree.joined (hs : s.WellFormed) (ht : t.WellFormed) (h : s.NamesAgree t) :
    Joined .pointwise s t (s.joinWith t).2 := by
  obtain ⟨f, hf⟩ := h.exists_iso
  refine joined_joinWith hs ht hf ?_
  rintro (hmode | hdup)
  · cases hmode
  · exact hdup h.left

/-- A join that leaves every value leaves the structure. -/
theorem joinWith_eq_subsumed_iff (hs : s.WellFormed) (ht : t.WellFormed) (h : s.NamesAgree t) :
    (s.joinWith t).1 = .subsumed ↔ Covers s t := by
  have hjoined := h.joined hs ht
  have houtcome : (s.joinWith t).1 = .subsumed ↔ (s.joinWith t).2.values = s.values := by
    rw [joinWith_fst]
    split
    · simp_all
    · simp_all
  rw [houtcome]
  constructor
  · intro hsame p u w huw
    have hvalue := value_joinWith_namesake ht h p huw
    rw [value, hsame] at hvalue
    exact Kleene.join_eq_left_iff.1 hvalue.symm
  · intro hcovers
    refine hjoined.wellFormed.values_eq hs fun p u => ?_
    by_cases hu : ∀ n ∈ u, n ∈ s.nodes
    · obtain ⟨w, huw, -⟩ := h.existsUnique_namesake hu
      rw [value_joinWith_namesake ht h p huw]
      exact Kleene.join_eq_left_iff.2 (hcovers p u w huw)
    · -- A tuple with a foreign node is false on both sides.
      rw [hs.value_eq_ff fun hadm => hu hadm.2.2, hjoined.wellFormed.value_eq_ff]
      exact fun hadm => hu (hjoined.nodes ▸ hadm.2.2)

/-! ## The merge -/

theorem merge_of_namesAgree (h : s.NamesAgree t) : merge .pointwise s t = s.joinWith t := by
  rw [merge, if_pos (namesMatch_iff_namesAgree.2 h)]

theorem merge_of_not_namesAgree (h : ¬ s.NamesAgree t) :
    merge .pointwise s t = (if s.isIsomorphic t then .subsumed else .unrelated, s) := by
  rw [merge, if_neg fun hmatch => h (namesMatch_iff_namesAgree.1 hmatch)]

/-- The structure `r` is `s` with the values of `t` joined in. -/
structure Widened (s t r : Structure V) : Prop where
  /-- It is well formed, so it is false at what is no tuple of its nodes. -/
  wellFormed : r.WellFormed
  /-- The constraints are those of `s`. -/
  constraints : r.constraints = s.constraints
  /-- The nodes are those of `s`. -/
  nodes : r.nodes = s.nodes
  /-- Every value is the join of the values at namesakes. -/
  value : ∀ p u w, Namesakes s t u w → r.value p u = (s.value p u).join (t.value p w)
  /-- Some value has changed. -/
  changed : ∃ p u, s.Admits ⟨p, u⟩ ∧ r.value p u ≠ s.value p u
  /-- To merge `t` again adds nothing. -/
  again : (merge .pointwise r t).1 = .subsumed

theorem widened_joinWith (hs : s.WellFormed) (ht : t.WellFormed) (h : s.NamesAgree t)
    (hcovers : ¬ Covers s t) : Widened s t (s.joinWith t).2 := by
  have hjoined := h.joined hs ht
  refine ⟨hjoined.wellFormed, by rw [joinWith_snd], hjoined.nodes,
    fun p u w huw => value_joinWith_namesake ht h p huw, ?_,
    (merge_eq_subsumed_iff hjoined.wellFormed ht).2 hjoined.right⟩
  -- Were no value changed, then `s` would cover `t`.
  by_contra hnone
  push Not at hnone
  refine hcovers fun p u w huw => ?_
  rw [← Kleene.join_eq_left_iff, ← value_joinWith_namesake ht h p huw]
  by_cases hu : s.Admits ⟨p, u⟩
  · exact hnone p u hu
  · rw [hs.value_eq_ff hu, hjoined.wellFormed.value_eq_ff]
    exact fun hadm => hu ⟨hadm.1, hadm.2.1, hjoined.nodes ▸ hadm.2.2⟩

/-- The four ways a merge in the pointwise mode can go. -/
theorem merge_pointwise_cases (hs : s.WellFormed) (ht : t.WellFormed) :
    s.NamesAgree t ∧ Covers s t ∧ merge .pointwise s t = (.subsumed, s) ∨
    s.NamesAgree t ∧ ¬ Covers s t ∧ (merge .pointwise s t).1 = .merged ∧
      Widened s t (merge .pointwise s t).2 ∨
    ¬ s.NamesAgree t ∧ Isomorphic s t ∧ merge .pointwise s t = (.subsumed, s) ∨
    ¬ s.NamesAgree t ∧ ¬ Isomorphic s t ∧ merge .pointwise s t = (.unrelated, s) := by
  by_cases hagree : s.NamesAgree t
  · have hmerge := merge_of_namesAgree hagree
    have hiff := joinWith_eq_subsumed_iff hs ht hagree
    by_cases hcovers : Covers s t
    · have hsubsumed : (merge .pointwise s t).1 = .subsumed := by
        rw [hmerge]
        exact hiff.2 hcovers
      exact .inl ⟨hagree, hcovers, Prod.ext hsubsumed (merge_snd_of_subsumed hsubsumed)⟩
    · have hmerged : (s.joinWith t).1 = .merged := by
        rw [joinWith_fst] at hiff ⊢
        split
        · rename_i hsame
          exact absurd (hiff.1 (if_pos hsame)) hcovers
        · rfl
      refine .inr (.inl ⟨hagree, hcovers, ?_, ?_⟩)
      · rw [hmerge, hmerged]
      · rw [hmerge]
        exact widened_joinWith hs ht hagree hcovers
  · have hmerge := merge_of_not_namesAgree hagree
    by_cases hiso : Isomorphic s t
    · rw [if_pos ((isIsomorphic_iff hs ht).2 hiso)] at hmerge
      exact .inr (.inr (.inl ⟨hagree, hiso, hmerge⟩))
    · rw [if_neg fun htest => hiso ((isIsomorphic_iff hs ht).1 htest)] at hmerge
      exact .inr (.inr (.inr ⟨hagree, hiso, hmerge⟩))

/-- What a merge in the pointwise mode comes to.  A candidate that neither agrees by
names nor is isomorphic is unrelated.  It adds nothing when it agrees by names and the
structure covers it, or when it does not agree but is isomorphic.  Otherwise its values
are joined in at the namesakes, of which every tuple has one.  Whatever is taken in, the
result is the least structure above both. -/
theorem merge_pointwise_exact (hs : s.WellFormed) (ht : t.WellFormed) :
    ((merge .pointwise s t).1 = .unrelated ↔ ¬ s.NamesAgree t ∧ ¬ Isomorphic s t) ∧
    ((merge .pointwise s t).1 = .subsumed ↔
      s.NamesAgree t ∧ Covers s t ∨ ¬ s.NamesAgree t ∧ Isomorphic s t) ∧
    ((merge .pointwise s t).1 = .merged ↔ s.NamesAgree t ∧ ¬ Covers s t) ∧
    ((merge .pointwise s t).1 ≠ .merged → (merge .pointwise s t).2 = s) ∧
    ((merge .pointwise s t).1 = .merged → Widened s t (merge .pointwise s t).2) ∧
    ((merge .pointwise s t).1 ≠ .unrelated → Joined .pointwise s t (merge .pointwise s t).2) ∧
    (s.NamesAgree t → (∀ u : List Node, (∀ n ∈ u, n ∈ s.nodes) → ∃! w, Namesakes s t u w) ∧
      ∀ w : List Node, (∀ m ∈ w, m ∈ t.nodes) → ∃! u, Namesakes s t u w) := by
  have hleast : (merge .pointwise s t).1 ≠ .unrelated →
      Joined .pointwise s t (merge .pointwise s t).2 := by
    intro hne
    have hrelated : Related .pointwise s t := by
      by_contra hno
      exact hne ((merge_eq_unrelated_iff hs ht).2 hno)
    exact (joined_merge hs ht hrelated).2
  have htuples : s.NamesAgree t →
      (∀ u : List Node, (∀ n ∈ u, n ∈ s.nodes) → ∃! w, Namesakes s t u w) ∧
        ∀ w : List Node, (∀ m ∈ w, m ∈ t.nodes) → ∃! u, Namesakes s t u w := by
    intro h
    refine ⟨fun u hu => h.existsUnique_namesake hu, fun w hw => ?_⟩
    obtain ⟨u, hu, hunique⟩ := h.symm.existsUnique_namesake hw
    exact ⟨u, hu.symm, fun v hv => hunique v hv.symm⟩
  rcases merge_pointwise_cases hs ht with
    ⟨hagree, hcovers, hmerge⟩ | ⟨hagree, hcovers, hmerged, hwide⟩ | ⟨hagree, hiso, hmerge⟩ |
    ⟨hagree, hiso, hmerge⟩
  · refine ⟨?_, ?_, ?_, ?_, ?_, hleast, htuples⟩ <;> simp [hmerge, hagree, hcovers]
  · refine ⟨?_, ?_, ?_, ?_, fun _ => hwide, hleast, htuples⟩ <;> simp [hmerged, hagree, hcovers]
  · refine ⟨?_, ?_, ?_, ?_, ?_, hleast, htuples⟩ <;> simp [hmerge, hagree, hiso]
  · refine ⟨?_, ?_, ?_, ?_, ?_, hleast, htuples⟩ <;> simp [hmerge, hagree, hiso]

/-- Two cells that are not linked.  They are numbered the other way round. -/
def looseCells : Structure cellVocabulary := (newNodes 2 {}).set 6 [1] .tt

/-- Whether the cell that `x` points to is linked to the other one becomes unknown. -/
theorem merge_pointwise_exact_looseCells :
    twoCells.WellFormed ∧ looseCells.WellFormed ∧
      (merge .pointwise twoCells looseCells).1 = .merged ∧
      Namesakes twoCells looseCells [0, 1] [1, 0] ∧
      (merge .pointwise twoCells looseCells).2.value 7 [0, 1] = .unknown ∧
      (merge .pointwise (merge .pointwise twoCells looseCells).2 looseCells).1 =
        .subsumed := by
  have hs : twoCells.WellFormed := by decide
  have ht : looseCells.WellFormed := by decide
  have hmerged : (merge .pointwise twoCells looseCells).1 = .merged := by decide
  have hsame : Namesakes twoCells looseCells [0, 1] [1, 0] :=
    ⟨by decide, by decide, by decide⟩
  have hwide := (merge_pointwise_exact hs ht).2.2.2.2.1 hmerged
  refine ⟨hs, ht, hmerged, hsame, ?_, hwide.again⟩
  rw [hwide.value 7 _ _ hsame]
  decide

end Structure

end ShapeAnalysis
