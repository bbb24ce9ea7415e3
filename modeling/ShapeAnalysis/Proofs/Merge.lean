import ShapeAnalysis.Structure.Merge
import ShapeAnalysis.Proofs.Isomorphism

/-!
# Merging is a join

The *outline* of a structure has its values at the predicates that name nodes
and at those without arguments.  Two structures are *related* when a bijection
keeps the outline and, unless names decide about merging, everything else.  This
is an equivalence, and merging takes a candidate in exactly when it is related
(`merge_of_not_related`, `joined_merge`).

Among related structures, `Below` compares the values along the bijection.
Merging gives the least structure above both (`Joined`).  It changes no outline,
so it changes nobody's relations.
-/

namespace ShapeAnalysis

namespace Structure

variable {V : Vocabulary}

/-! ## Outlines -/

theorem mem_abstraction {p : PredId} (h : p ∈ V.abstraction) : p < V.size ∧ V.arity p = 1 := by
  simp only [Vocabulary.abstraction, List.mem_filter] at h
  obtain ⟨hid, hp⟩ := h
  refine ⟨by simpa [Vocabulary.ids] using hid, ?_⟩
  unfold Vocabulary.arity
  split at hp
  · rename_i q hq
    simp_all
  · cases hp

/-- The predicates whose values decide whether structures match by names. -/
def outlined (V : Vocabulary) (p : PredId) : Bool := p ∈ V.abstraction || V.arity p = 0

/-- The values that decide whether structures match by names. -/
def outline (s : Structure V) : Structure V :=
  { s with values := s.values.filter fun a _ => outlined V a.pred }

@[simp] theorem nodes_outline (s : Structure V) : s.outline.nodes = s.nodes := rfl

theorem value_outline (s : Structure V) (p : PredId) (u : List Node) :
    s.outline.value p u = if outlined V p then s.value p u else .ff := by
  unfold outline value
  rw [SortedMap.get?_filter]
  cases s.values.get? ⟨p, u⟩ <;> cases outlined V p <;> simp [Option.filter]

theorem Iso.outline {f : Node → Node} {s t : Structure V} (hf : Iso f s t) :
    Iso f s.outline t.outline := by
  refine hf.change rfl rfl fun p u hu => ?_
  rw [value_outline, value_outline]
  split
  · exact hf.value p u hu
  · rfl

theorem canonicalNames_eq (s : Structure V) :
    s.canonicalNames = s.nodes.toList.map (s.profile V.abstraction) :=
  names_naming s V.abstraction

section

variable {f : Node → Node} {s t : Structure V} (hf : Iso f s.outline t.outline)
include hf

theorem Iso.profile_of_outline {n : Node} (hn : n ∈ s.nodes) :
    t.profile V.abstraction (f n) = s.profile V.abstraction n := by
  refine List.map_congr_left fun p hp => ?_
  obtain ⟨hlt, harity⟩ := mem_abstraction hp
  have hout : outlined V p = true := by simp [outlined, hp]
  have hval := hf.value p [n] ⟨hlt, harity.symm, by simpa using hn⟩
  rwa [value_outline, value_outline, if_pos hout, if_pos hout] at hval

theorem Iso.nullary_of_outline {p : PredId} (hp : p ∈ V.withArity 0) :
    t.value p [] = s.value p [] := by
  obtain ⟨hlt, harity⟩ := mem_withArity.1 hp
  have hout : outlined V p = true := by simp [outlined, harity]
  have hval := hf.value p [] ⟨hlt, harity.symm, by simp⟩
  rwa [value_outline, value_outline, if_pos hout, if_pos hout] at hval

theorem Iso.canonicalNames_perm : s.canonicalNames.Perm t.canonicalNames := by
  rw [canonicalNames_eq, canonicalNames_eq]
  refine List.Perm.trans (.of_eq ?_) (hf.nodes_perm.map (t.profile V.abstraction))
  rw [List.map_map]
  exact List.map_congr_left fun n hn => (hf.profile_of_outline hn).symm

end

/-- Where names are unique, a node is found by its name. -/
theorem eq_of_profile_eq {s : Structure V} (h : s.canonicalNames.Nodup) {m n : Node}
    (hm : m ∈ s.nodes) (hn : n ∈ s.nodes)
    (heq : s.profile V.abstraction m = s.profile V.abstraction n) : m = n := by
  rw [canonicalNames_eq] at h
  exact List.inj_on_of_nodup_map h hm hn heq

/-- There is one way to match structures by unique names. -/
theorem Iso.eq_of_outline {f g : Node → Node} {s t : Structure V} (hf : Iso f s.outline t.outline)
    (hg : Iso g s.outline t.outline) (h : t.canonicalNames.Nodup) {n : Node} (hn : n ∈ s.nodes) :
    f n = g n := by
  refine eq_of_profile_eq h (hf.maps n hn) (hg.maps n hn) ?_
  rw [hf.profile_of_outline hn, hg.profile_of_outline hn]

/-- Structures match by names when names are unique and a bijection keeps the
outline. -/
theorem namesMatch_iff {s t : Structure V} :
    s.namesMatch t = true ↔ s.canonicalNames.Nodup ∧ ∃ f, Iso f s.outline t.outline := by
  simp only [namesMatch, Bool.and_eq_true, decide_eq_true_eq, List.all_eq_true,
    List.contains_iff_mem]
  constructor
  · rintro ⟨⟨⟨⟨hs, ht⟩, hsize⟩, hsub⟩, hnull⟩
    refine ⟨hs, ?_⟩
    have hmatch : ∀ n ∈ s.nodes,
        ∃ m ∈ t.nodes, t.profile V.abstraction m = s.profile V.abstraction n := by
      intro n hn
      have hname := hsub (s.profile V.abstraction n) (by
        rw [canonicalNames_eq]
        exact List.mem_map_of_mem hn)
      rw [canonicalNames_eq] at hname
      exact List.mem_map.1 hname
    choose! f hf using hmatch
    have hinj : ∀ m ∈ s.nodes, ∀ n ∈ s.nodes, f m = f n → m = n := by
      intro m hm n hn hmn
      refine eq_of_profile_eq hs hm hn ?_
      rw [← (hf m hm).2, ← (hf n hn).2, hmn]
    -- There are as many nodes on both sides, so every node is matched.
    have hperm : (s.nodes.toList.map f).Perm t.nodes.toList := by
      have hnodup : (s.nodes.toList.map f).Nodup :=
        s.nodes.nodup.map_on fun m hm n hn h => hinj m hm n hn h
      have hsubset : s.nodes.toList.map f ⊆ t.nodes.toList := by
        intro m hm
        obtain ⟨n, hn, rfl⟩ := List.mem_map.1 hm
        exact (hf n hn).1
      refine (List.subperm_of_subset hnodup hsubset).perm_of_length_le ?_
      rw [List.length_map]
      exact Nat.le_of_eq hsize.symm
    refine ⟨f, fun n hn => (hf n hn).1, fun m hm => ?_, hinj, fun p u hu => ?_⟩
    · obtain ⟨n, hn, hnm⟩ := List.mem_map.1 (hperm.mem_iff.2 hm)
      exact ⟨n, hn, hnm⟩
    · obtain ⟨hlt, hlen, hmem⟩ := hu
      rw [value_outline, value_outline]
      split
      · rename_i hout
        dsimp only at hlt hlen hmem
        simp only [outlined, Bool.or_eq_true, decide_eq_true_eq] at hout
        rcases hout with hp | hp
        · rw [(mem_abstraction hp).2] at hlen
          obtain ⟨n, rfl⟩ := List.length_eq_one_iff.1 hlen
          exact List.map_inj_left.1 (hf n (hmem n List.mem_cons_self)).2 p hp
        · rw [hp] at hlen
          rw [List.length_eq_zero_iff.1 hlen]
          exact (hnull p (mem_withArity.2 ⟨hlt, hp⟩)).symm
      · rfl
  · rintro ⟨hs, f, hf⟩
    have hperm := hf.canonicalNames_perm
    refine ⟨⟨⟨⟨hs, hperm.nodup_iff.1 hs⟩, ?_⟩, fun name hname => hperm.mem_iff.1 hname⟩,
      fun p hp => (hf.nullary_of_outline hp).symm⟩
    simpa [canonicalNames_eq, SortedSet.size] using hperm.length_eq

/-! ## Related structures -/

/-- Merging asks for an isomorphism. -/
def Exact (mode : JoinMode) (s : Structure V) : Prop :=
  mode = .relational ∨ ¬ s.canonicalNames.Nodup

theorem nodup_of_not_exact {mode : JoinMode} {s : Structure V} (h : ¬ s.Exact mode) :
    s.canonicalNames.Nodup := by
  by_contra hdup
  exact h (.inr hdup)

/-- The bijection keeps the outline and, where merging asks for it, everything. -/
structure Matching (mode : JoinMode) (f : Node → Node) (s t : Structure V) : Prop where
  outline : Iso f s.outline t.outline
  exact : s.Exact mode → Iso f s t

/-- Some bijection matches the structures. -/
def Related (mode : JoinMode) (s t : Structure V) : Prop := ∃ f, Matching mode f s t

/-- A bijection matches the structures, and the values of `t` are no more precise. -/
def Below (mode : JoinMode) (s t : Structure V) : Prop :=
  ∃ f, Matching mode f s t ∧ ∀ p u, s.Admits ⟨p, u⟩ → (s.value p u).le (t.value p (u.map f))

section

variable {mode : JoinMode} {f g : Node → Node} {r s t : Structure V}

theorem Iso.exact_iff (hf : Iso f s.outline t.outline) : t.Exact mode ↔ s.Exact mode := by
  rw [Exact, Exact, hf.canonicalNames_perm.nodup_iff]

theorem Iso.matching (hf : Iso f s t) : Matching mode f s t := ⟨hf.outline, fun _ => hf⟩

theorem Matching.comp (hg : Matching mode g s t) (hf : Matching mode f r s) :
    Matching mode (g ∘ f) r t :=
  ⟨hg.outline.comp hf.outline,
    fun h => (hg.exact (hf.outline.exact_iff.2 h)).comp (hf.exact h)⟩

theorem Related.symm (h : Related mode s t) : Related mode t s := by
  obtain ⟨f, hf⟩ := h
  by_cases hexact : s.Exact mode
  · obtain ⟨g, hg, -⟩ := (hf.exact hexact).exists_inverse
    exact ⟨g, hg.matching⟩
  · obtain ⟨g, hg, -⟩ := hf.outline.exists_inverse
    exact ⟨g, hg, fun h => absurd (hf.outline.exact_iff.1 h) hexact⟩

theorem Related.trans (h₁ : Related mode r s) (h₂ : Related mode s t) : Related mode r t := by
  obtain ⟨f, hf⟩ := h₁
  obtain ⟨g, hg⟩ := h₂
  exact ⟨g ∘ f, hg.comp hf⟩

theorem Below.related (h : Below mode s t) : Related mode s t := by
  obtain ⟨f, hf, -⟩ := h
  exact ⟨f, hf⟩

theorem Isomorphic.below (h : Isomorphic s t) : Below mode s t := by
  obtain ⟨f, hf⟩ := h
  exact ⟨f, hf.matching, fun p u hu => Kleene.le_of_eq (hf.value p u hu).symm⟩

theorem Below.refl (s : Structure V) : Below mode s s := (Isomorphic.refl s).below

theorem Below.trans (h₁ : Below mode r s) (h₂ : Below mode s t) : Below mode r t := by
  obtain ⟨f, hf, hrs⟩ := h₁
  obtain ⟨g, hg, hst⟩ := h₂
  refine ⟨g ∘ f, hg.comp hf, fun p u hu => ?_⟩
  rw [← List.map_map]
  exact Kleene.le_trans (hrs p u hu) (hst p _ (hu.map hf.outline.maps))

/-- Structures that are below each other are isomorphic. -/
theorem Below.antisymm (h₁ : Below mode s t) (h₂ : Below mode t s) : Isomorphic s t := by
  obtain ⟨f, hf, hst⟩ := h₁
  obtain ⟨g, hg, hts⟩ := h₂
  by_cases hexact : s.Exact mode
  · exact ⟨f, hf.exact hexact⟩
  · have hnodup := nodup_of_not_exact hexact
    -- By the names, the way there and back leads to where it began.
    have hback : ∀ n ∈ s.nodes, g (f n) = n := fun n hn =>
      (hg.comp hf).outline.eq_of_outline (Iso.refl s.outline) hnodup hn
    refine ⟨f, hf.outline.change rfl rfl fun p u hu => ?_⟩
    have hround : (u.map f).map g = u := map_map_eq_self fun n hn => hback n (hu.2.2 n hn)
    have hle := hts p _ (hu.map hf.outline.maps)
    rw [hround] at hle
    exact Kleene.le_antisymm hle (hst p u hu)

end

/-! ## Joining by names -/

theorem get?_joinValues (mine theirs : SortedMap Atom Kleene) (a : Atom) :
    (joinValues mine theirs).get? a =
      if mine.get? a = none ∧ theirs.get? a = none then none
      else some (((mine.get? a).getD .ff).join ((theirs.get? a).getD .ff)) := by
  let joined (a : Atom) : Kleene := ((mine.get? a).getD .ff).join ((theirs.get? a).getD .ff)
  have hall : joinValues mine theirs =
      mine.insertAll ((mine.keys ++ theirs.keys).map fun a => (a, joined a)) := by
    rw [joinValues, SortedMap.insertAll, List.foldl_map]
  have hkeys : a ∈ mine.keys ++ theirs.keys ↔ ¬ (mine.get? a = none ∧ theirs.get? a = none) := by
    rw [List.mem_append, SortedMap.mem_keys, SortedMap.mem_keys, not_and_or]
  rw [hall]
  split
  · rename_i hnone
    rw [SortedMap.get?_insertAll_of_forall_ne, hnone.1]
    intro e he hea
    obtain ⟨b, hb, rfl⟩ := List.mem_map.1 he
    rw [show b = a from hea] at hb
    exact hkeys.1 hb hnone
  · rename_i hsome
    refine SortedMap.get?_insertAll_of_mem (fun e he hea => ?_)
      ⟨_, List.mem_map_of_mem (hkeys.2 hsome), rfl⟩ mine
    obtain ⟨b, -, rfl⟩ := List.mem_map.1 he
    exact congrArg joined hea

theorem WellFormed.get?_eq {s : Structure V} (hs : s.WellFormed) (p : PredId) (u : List Node) :
    s.values.get? ⟨p, u⟩ = if s.value p u = .ff then none else some (s.value p u) := by
  unfold value
  cases hget : s.values.get? ⟨p, u⟩ with
  | none => rfl
  | some k => rw [Option.getD_some, if_neg (hs.get? hget).2]

/-- Well-formed structures with the same view store the same values. -/
theorem WellFormed.values_eq {s t : Structure V} (hs : s.WellFormed) (ht : t.WellFormed)
    (h : ∀ p u, s.value p u = t.value p u) : s.values = t.values := by
  refine SortedMap.ext_get? fun a => ?_
  rw [hs.get?_eq a.pred a.args, ht.get?_eq a.pred a.args, h]

section Names

variable {f : Node → Node} {s t : Structure V} (hf : Iso f s.outline t.outline)
  (h : s.canonicalNames.Nodup)
include hf h

/-- A node of the other structure is renamed to the node with its name. -/
theorem namesake_eq {n : Node} (hn : n ∈ s.nodes) :
    namesake s.canonicalNaming t.canonicalNaming (f n) = n := by
  have hlookup : t.canonicalNaming.lookup (f n) = some (s.profile V.abstraction n) := by
    rw [← hf.profile_of_outline hn]
    exact lookup_naming (hf.maps n hn)
  have hgroup : ∀ m, m ∈ s.canonicalNaming.withName (s.profile V.abstraction n) ↔ m = n := by
    intro m
    simp only [Naming.withName, canonicalNaming, naming, List.mem_map, List.mem_filter]
    constructor
    · rintro ⟨-, ⟨⟨k, hk, rfl⟩, hname⟩, rfl⟩
      exact eq_of_profile_eq h hk hn (by simpa using hname)
    · rintro rfl
      exact ⟨_, ⟨⟨m, hn, rfl⟩, by simp⟩, rfl⟩
  simp only [namesake, hlookup]
  cases hlist : s.canonicalNaming.withName (s.profile V.abstraction n) with
  | nil => simpa [hlist] using hgroup n
  | cons m rest => exact (hgroup m).1 (hlist ▸ List.mem_cons_self)

theorem exists_namesake {m : Node} (hm : m ∈ t.nodes) :
    namesake s.canonicalNaming t.canonicalNaming m ∈ s.nodes ∧
      f (namesake s.canonicalNaming t.canonicalNaming m) = m := by
  obtain ⟨n, hn, rfl⟩ := hf.onto m hm
  rw [namesake_eq hf h hn]
  exact ⟨hn, rfl⟩

/-- The renamed values of the other structure are read along the bijection. -/
theorem get?_renamed (ht : t.WellFormed) (a : Atom) :
    ((∅ : SortedMap Atom Kleene).insertAll (t.values.entries.map fun e =>
        (e.1.map (namesake s.canonicalNaming t.canonicalNaming), e.2))).get? a =
      if ∀ n ∈ a.args, n ∈ s.nodes then t.values.get? (a.map f) else none := by
  -- An entry that is renamed to `a` is the entry at the image of `a`.
  have himage : ∀ e ∈ t.values.entries,
      e.1.map (namesake s.canonicalNaming t.canonicalNaming) = a →
      (∀ n ∈ a.args, n ∈ s.nodes) ∧ e.1 = a.map f := by
    rintro ⟨⟨p, w⟩, k⟩ he rfl
    have hmem := (ht.admits _ he).2.2
    constructor
    · intro n hn
      obtain ⟨m, hm, rfl⟩ := List.mem_map.1 hn
      exact (exists_namesake hf h (hmem m hm)).1
    · simp only [Atom.map, Atom.mk.injEq, true_and]
      exact (map_map_eq_self fun m hm => (exists_namesake hf h (hmem m hm)).2).symm
  split
  · rename_i hmem
    cases hget : t.values.get? (a.map f) with
    | none =>
      rw [SortedMap.get?_insertAll_of_forall_ne, SortedMap.get?_empty]
      intro d hd hda
      obtain ⟨e, he, rfl⟩ := List.mem_map.1 hd
      have hsome := SortedMap.mem_entries.1 he
      rw [(himage e he hda).2, hget] at hsome
      cases hsome
    | some k =>
      refine SortedMap.get?_insertAll_of_mem (fun d hd hda => ?_)
        ⟨_, List.mem_map_of_mem (SortedMap.mem_entries.2 hget), ?_⟩ _
      · obtain ⟨e, he, rfl⟩ := List.mem_map.1 hd
        have hsome := SortedMap.mem_entries.1 he
        rw [(himage e he hda).2, hget] at hsome
        exact (Option.some.inj hsome).symm
      · simp only [Atom.map]
        congr 1
        exact map_map_eq_self fun n hn => namesake_eq hf h (hmem n hn)
  · rename_i hmem
    rw [SortedMap.get?_insertAll_of_forall_ne, SortedMap.get?_empty]
    intro d hd hda
    obtain ⟨e, he, rfl⟩ := List.mem_map.1 hd
    exact hmem (himage e he hda).1

end Names

theorem joinWith_snd (s t : Structure V) :
    (s.joinWith t).2 = { s with
      values := joinValues s.values ((∅ : SortedMap Atom Kleene).insertAll
        (t.values.entries.map fun e =>
          (e.1.map (namesake s.canonicalNaming t.canonicalNaming), e.2))) } := by
  unfold joinWith
  dsimp only
  split
  · rename_i heq
    rw [heq]
  · rfl

theorem joinWith_fst (s t : Structure V) :
    (s.joinWith t).1 = if (s.joinWith t).2.values = s.values then .subsumed else .merged := by
  rw [joinWith_snd]
  unfold joinWith
  dsimp only
  split <;> rfl

section Join

variable {f : Node → Node} {s t : Structure V} (hs : s.WellFormed) (ht : t.WellFormed)
  (hf : Iso f s.outline t.outline) (h : s.canonicalNames.Nodup)
include hs ht hf h

omit hs in
theorem value_joinWith (p : PredId) {u : List Node} (hu : ∀ n ∈ u, n ∈ s.nodes) :
    (s.joinWith t).2.value p u = (s.value p u).join (t.value p (u.map f)) := by
  rw [joinWith_snd]
  unfold value
  rw [get?_joinValues, get?_renamed hf h ht, if_pos hu]
  split
  · rename_i hnone
    rw [hnone.1, show t.values.get? ⟨p, u.map f⟩ = none from hnone.2]
    rfl
  · rfl

theorem WellFormed.joinWith : (s.joinWith t).2.WellFormed := by
  rw [joinWith_snd]
  refine .of_get? (fun a k hget => ?_) hs.node_lt
  have hmine : ∀ k', s.values.get? a = some k' → s.Admits a ∧ k' ≠ .ff := fun _ => hs.get?
  have htheirs : ∀ k', (if ∀ n ∈ a.args, n ∈ s.nodes then t.values.get? (a.map f) else none) =
      some k' → s.Admits a ∧ k' ≠ .ff := by
    intro k' hk'
    split at hk'
    · rename_i hmem
      obtain ⟨⟨hlt, hlen, -⟩, hne⟩ := ht.get? hk'
      exact ⟨⟨hlt, by simpa [Atom.map] using hlen, hmem⟩, hne⟩
    · cases hk'
  dsimp only at hget
  rw [get?_joinValues, get?_renamed hf h ht] at hget
  generalize s.values.get? a = mine at hmine hget
  generalize (if ∀ n ∈ a.args, n ∈ s.nodes then t.values.get? (a.map f) else none) = theirs
    at htheirs hget
  split at hget
  · cases hget
  · rename_i hsome
    have hk : k = .ff ↔ mine.getD .ff = .ff ∧ theirs.getD .ff = .ff := by
      rw [← Option.some.inj hget, Kleene.join_eq_ff_iff]
    cases mine with
    | some k₀ => exact ⟨(hmine k₀ rfl).1, fun hff => (hmine k₀ rfl).2 (hk.1 hff).1⟩
    | none =>
      cases theirs with
      | some k₀ => exact ⟨(htheirs k₀ rfl).1, fun hff => (htheirs k₀ rfl).2 (hk.1 hff).2⟩
      | none => exact absurd ⟨rfl, rfl⟩ hsome

omit hs in
/-- Joining changes no outline. -/
theorem iso_outline_joinWith : Iso id s.outline (s.joinWith t).2.outline := by
  have hnodes : (s.joinWith t).2.nodes = s.nodes := by rw [joinWith_snd]
  refine (Iso.refl s.outline).change rfl hnodes fun p u hu => ?_
  have hval := hf.value p u hu
  rw [List.map_id, value_outline, value_outline]
  rw [value_outline, value_outline] at hval
  split
  · rename_i hout
    rw [if_pos hout, if_pos hout] at hval
    rw [value_joinWith ht hf h p hu.2.2, hval]
    exact Kleene.join_eq_left_iff.2 (Kleene.le_refl _)
  · rfl

end Join

/-! ## Merging -/

/-- The structure `r` is `s` grown into the least structure above `s` and `t`. -/
structure Joined (mode : JoinMode) (s t r : Structure V) : Prop where
  wellFormed : r.WellFormed
  nodes : r.nodes = s.nodes
  rises : ∀ p u, (s.value p u).le (r.value p u)
  left : Below mode s r
  right : Below mode t r
  least : ∀ g : Structure V, Below mode s g → Below mode t g → Below mode r g

section Merge

variable {mode : JoinMode} {s t : Structure V} (hs : s.WellFormed) (ht : t.WellFormed)
include hs

theorem joined_self (h : Below mode t s) : Joined mode s t s where
  wellFormed := hs
  nodes := rfl
  rises _ _ := Kleene.le_refl _
  left := .refl s
  right := h
  least _ hsg _ := hsg

include ht

theorem joined_joinWith {f : Node → Node} (hf : Iso f s.outline t.outline)
    (hexact : ¬ s.Exact mode) : Joined mode s t (s.joinWith t).2 := by
  have h := nodup_of_not_exact hexact
  have hnodes : (s.joinWith t).2.nodes = s.nodes := by rw [joinWith_snd]
  have hwf := hs.joinWith ht hf h
  have hout := iso_outline_joinWith ht hf h
  have hrises : ∀ p u, (s.value p u).le ((s.joinWith t).2.value p u) := by
    intro p u
    by_cases hu : ∀ n ∈ u, n ∈ s.nodes
    · rw [value_joinWith ht hf h p hu]
      exact Kleene.le_join_left _ _
    · rw [hs.value_eq_ff fun hadm => hu hadm.2.2,
        hwf.value_eq_ff fun hadm => hu (hnodes ▸ hadm.2.2)]
      exact Kleene.le_refl _
  refine ⟨hwf, hnodes, hrises, ?_, ?_, fun g hsg htg => ?_⟩
  · refine ⟨id, ⟨hout, fun he => absurd he hexact⟩, fun p u _ => ?_⟩
    rw [List.map_id]
    exact hrises p u
  · obtain ⟨g, hg, -, hback⟩ := hf.exists_inverse
    refine ⟨id ∘ g, ⟨hout.comp hg, fun he => absurd (hf.exact_iff.1 he) hexact⟩, fun p w hw => ?_⟩
    have hround : (w.map g).map f = w := map_map_eq_self fun m hm => hback m (hw.2.2 m hm)
    have hmem : ∀ n ∈ w.map g, n ∈ s.nodes := by
      intro n hn
      obtain ⟨m, hm, rfl⟩ := List.mem_map.1 hn
      exact hg.maps m (hw.2.2 m hm)
    rw [Function.id_comp, value_joinWith ht hf h p hmem, hround]
    exact Kleene.le_join_right _ _
  · obtain ⟨d, hd, hle⟩ := hsg
    obtain ⟨e, he, hle'⟩ := htg
    have hnodup : g.canonicalNames.Nodup := hd.outline.canonicalNames_perm.nodup_iff.1 h
    have hadm : ∀ {p u}, (s.joinWith t).2.Admits ⟨p, u⟩ → s.Admits ⟨p, u⟩ := fun hu =>
      ⟨hu.1, hu.2.1, hnodes ▸ hu.2.2⟩
    refine ⟨d, ⟨hd.outline.change hnodes rfl fun p u hu => ?_,
      fun hr => absurd (hout.exact_iff.1 hr) hexact⟩, fun p u hu => ?_⟩
    · have hsame := hout.value p u (hadm hu)
      rw [List.map_id] at hsame
      rw [hsame, hd.outline.value p u (hadm hu)]
    · have hmem := (hadm hu).2.2
      -- By the names, both ways from `s` to `g` are the same.
      have hway : (u.map f).map e = u.map d := by
        rw [List.map_map]
        exact List.map_congr_left fun n hn =>
          (he.outline.comp hf).eq_of_outline hd.outline hnodup (hmem n hn)
      have hright := hle' p (u.map f) ((hadm hu).map hf.maps)
      rw [hway] at hright
      rw [value_joinWith ht hf h p hmem]
      exact Kleene.join_le (hle p u (hadm hu)) hright

omit hs ht in
theorem Related.isomorphic (h : Related mode s t) (hexact : s.Exact mode) : Isomorphic s t := by
  obtain ⟨f, hf⟩ := h
  exact ⟨f, hf.exact hexact⟩

omit hs ht in
theorem merge_exact (hexact : s.Exact mode) :
    merge mode s t = (if s.isIsomorphic t then .subsumed else .unrelated, s) := by
  cases mode with
  | relational => rfl
  | pointwise =>
    have hno : s.namesMatch t = false := by
      rw [Bool.eq_false_iff]
      intro hmatch
      rcases hexact with h | h
      · cases h
      · exact h (namesMatch_iff.1 hmatch).1
    simp [merge, hno]

/-- Where names decide, a structure that does not match by names is unrelated. -/
theorem merge_named (hexact : ¬ s.Exact mode) :
    merge mode s t = if s.namesMatch t then s.joinWith t else (.unrelated, s) := by
  cases mode with
  | relational => exact absurd (.inl rfl) hexact
  | pointwise =>
    unfold merge
    dsimp only
    split
    · rfl
    · rename_i hno
      rw [if_neg]
      intro hiso
      obtain ⟨f, hf⟩ := (isIsomorphic_iff hs ht).1 hiso
      exact hno (namesMatch_iff.2 ⟨nodup_of_not_exact hexact, f, hf.outline⟩)

/-- A candidate that is not related is left out. -/
theorem merge_of_not_related (h : ¬ Related mode s t) : merge mode s t = (.unrelated, s) := by
  by_cases hexact : s.Exact mode
  · rw [merge_exact hexact, if_neg]
    intro hiso
    obtain ⟨f, hf⟩ := (isIsomorphic_iff hs ht).1 hiso
    exact h ⟨f, hf.matching⟩
  · rw [merge_named hs ht hexact, if_neg]
    intro hmatch
    obtain ⟨-, f, hf⟩ := namesMatch_iff.1 hmatch
    exact h ⟨f, hf, fun he => absurd he hexact⟩

/-- A candidate that is related is joined in. -/
theorem joined_merge (h : Related mode s t) :
    (merge mode s t).1 ≠ .unrelated ∧ Joined mode s t (merge mode s t).2 := by
  by_cases hexact : s.Exact mode
  · have hiso := h.isomorphic hexact
    rw [merge_exact hexact, if_pos ((isIsomorphic_iff hs ht).2 hiso)]
    exact ⟨MergeOutcome.noConfusion, joined_self hs hiso.symm.below⟩
  · obtain ⟨f, hf⟩ := h
    have hnodup := nodup_of_not_exact hexact
    rw [merge_named hs ht hexact, if_pos (namesMatch_iff.2 ⟨hnodup, f, hf.outline⟩)]
    refine ⟨?_, joined_joinWith hs ht hf.outline hexact⟩
    rw [joinWith_fst]
    split <;> decide

theorem merge_eq_unrelated_iff : (merge mode s t).1 = .unrelated ↔ ¬ Related mode s t := by
  constructor
  · intro h hrel
    exact (joined_merge hs ht hrel).1 h
  · intro h
    rw [merge_of_not_related hs ht h]

omit hs ht in
theorem merge_snd_of_subsumed (h : (merge mode s t).1 = .subsumed) : (merge mode s t).2 = s := by
  cases mode with
  | relational => rfl
  | pointwise =>
    unfold merge joinWith at h ⊢
    dsimp only at h ⊢
    split at h
    · split at h
      · simp_all
      · cases h
    · simp_all

/-- A candidate adds nothing exactly when it is below the structure. -/
theorem merge_eq_subsumed_iff : (merge mode s t).1 = .subsumed ↔ Below mode t s := by
  constructor
  · intro h
    have hrel : Related mode s t := by
      by_contra hno
      rw [merge_of_not_related hs ht hno] at h
      cases h
    have hright := (joined_merge hs ht hrel).2.right
    rwa [merge_snd_of_subsumed h] at hright
  · intro h
    by_cases hexact : s.Exact mode
    · rw [merge_exact hexact, if_pos]
      exact (isIsomorphic_iff hs ht).2 (h.related.symm.isomorphic hexact)
    · obtain ⟨f, hf⟩ := h.related.symm
      have hnodup := nodup_of_not_exact hexact
      have hjoined := joined_joinWith hs ht hf.outline hexact
      -- What is joined is below `s` again, so no value has risen.
      obtain ⟨g, hg, hle⟩ := hjoined.least s (.refl s) h
      have hout := iso_outline_joinWith ht hf.outline hnodup
      have hid : ∀ n ∈ s.nodes, g n = n := fun n hn =>
        (hg.outline.comp hout).eq_of_outline (Iso.refl s.outline) hnodup hn
      have hvalues : (s.joinWith t).2.values = s.values := by
        refine hjoined.wellFormed.values_eq hs fun p u => ?_
        by_cases hu : (s.joinWith t).2.Admits ⟨p, u⟩
        · have hback : u.map g = u := map_eq_self fun n hn => hid n (hjoined.nodes ▸ hu.2.2 n hn)
          have hfall := hle p u hu
          rw [hback] at hfall
          exact Kleene.le_antisymm hfall (hjoined.rises p u)
        · rw [hjoined.wellFormed.value_eq_ff hu, hs.value_eq_ff]
          exact fun hadm => hu ⟨hadm.1, hadm.2.1, hjoined.nodes.symm ▸ hadm.2.2⟩
      rw [merge_named hs ht hexact, if_pos (namesMatch_iff.2 ⟨hnodup, f, hf.outline⟩),
        joinWith_fst, if_pos hvalues]

end Merge

end Structure

end ShapeAnalysis
