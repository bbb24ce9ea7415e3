import Mathlib.Data.List.Nodup
import Mathlib.Data.List.Perm.Subperm
import Mathlib.Logic.Equiv.Basic
import Mathlib.Tactic.Choose
import ShapeAnalysis.Structure.Isomorphism
import ShapeAnalysis.Proofs.Embedding

/-!
# Isomorphic structures

An *isomorphism* is a bijection of the nodes that keeps every value.  It is an
embedding, and so is its inverse, so whatever only loses precision along an
embedding is kept by an isomorphism.  Evaluation is the first example
(`Iso.denote_eq`).

The search is exact (`isIsomorphic_iff`).  It follows an isomorphism when there
is one: no choice on the way is dropped that an isomorphism makes.  Conversely
the mapping it ends with keeps every value.  At the end it compares the stored
values of one structure only; the others agree because both structures store
equally many.

The map of an isomorphism is defined on all names of nodes.  What it does to
other names is of no importance, so it is a bijection between the two sets of
nodes (`isomorphic_iff_exists_equiv`).
-/

namespace ShapeAnalysis

namespace Structure

variable {V : Vocabulary}

/-! ## Isomorphisms -/

/-- The map `f` takes the nodes of `s` one to one to the nodes of `t` and keeps
every value. -/
structure Iso (f : Node → Node) (s t : Structure V) : Prop where
  /-- Nodes go to nodes. -/
  maps : ∀ n ∈ s.nodes.toList, f n ∈ t.nodes
  /-- Every node is reached. -/
  onto : ∀ m ∈ t.nodes.toList, ∃ n ∈ s.nodes.toList, f n = m
  /-- Different nodes go to different nodes. -/
  inj : ∀ m ∈ s.nodes.toList, ∀ n ∈ s.nodes.toList, f m = f n → m = n
  /-- Values stay. -/
  value : ∀ p u, s.Admits ⟨p, u⟩ → t.value p (u.map f) = s.value p u

/-- Some map is an isomorphism. -/
def Isomorphic (s t : Structure V) : Prop := ∃ f, Iso f s t

instance (f : Node → Node) (s t : Structure V) : Decidable (Iso f s t) :=
  decidable_of_iff
    ((∀ n ∈ s.nodes.toList, f n ∈ t.nodes) ∧
      (∀ m ∈ t.nodes.toList, ∃ n ∈ s.nodes.toList, f n = m) ∧
      (∀ m ∈ s.nodes.toList, ∀ n ∈ s.nodes.toList, f m = f n → m = n) ∧
      ∀ p ∈ List.range V.size, ∀ u ∈ tuples s.nodes.toList (V.arity p),
        t.value p (u.map f) = s.value p u)
    ⟨fun ⟨hmaps, honto, hinj, hval⟩ =>
      ⟨hmaps, honto, hinj, fun p u h => hval p (List.mem_range.2 h.1) u (mem_tuples.2 h.2)⟩,
     fun h => ⟨h.maps, h.onto, h.inj,
      fun p hp u hu => h.value p u ⟨List.mem_range.1 hp, mem_tuples.1 hu⟩⟩⟩

theorem Admits.map {s t : Structure V} {f : Node → Node} (hf : ∀ n ∈ s.nodes, f n ∈ t.nodes)
    {p : PredId} {u : List Node} (h : s.Admits ⟨p, u⟩) : t.Admits ⟨p, u.map f⟩ := by
  refine ⟨h.1, by simpa using h.2.1, ?_⟩
  intro m hm
  obtain ⟨n, hn, rfl⟩ := List.mem_map.1 hm
  exact hf n (h.2.2 n hn)

/-- Tuples with the same image are equal when the map is one to one. -/
theorem tuple_eq_of_map_eq {α : Type} {s : Structure V} {f : Node → α}
    (hinj : ∀ m ∈ s.nodes.toList, ∀ n ∈ s.nodes.toList, f m = f n → m = n) {u w : List Node}
    (hu : ∀ n ∈ u, n ∈ s.nodes) (hw : ∀ n ∈ w, n ∈ s.nodes) (h : u.map f = w.map f) : u = w := by
  induction u generalizing w with
  | nil => exact (List.map_eq_nil_iff.1 h.symm).symm
  | cons m u ih =>
    cases w with
    | nil => cases h
    | cons n w =>
      simp only [List.map_cons, List.cons.injEq] at h
      simp only [List.forall_mem_cons] at hu hw
      rw [hinj m hu.1 n hw.1 h.1, ih hu.2 hw.2 h.2]

theorem Iso.refl (s : Structure V) : Iso id s s where
  maps _ hn := hn
  onto m hm := ⟨m, hm, rfl⟩
  inj _ _ _ _ h := h
  value p u _ := by simp

section

variable {f : Node → Node} {s t : Structure V}

theorem Iso.comp {r : Structure V} {g : Node → Node} (hg : Iso g s t) (hf : Iso f r s) :
    Iso (g ∘ f) r t where
  maps n hn := hg.maps _ (hf.maps n hn)
  onto m hm := by
    obtain ⟨k, hk, rfl⟩ := hg.onto m hm
    obtain ⟨n, hn, rfl⟩ := hf.onto k hk
    exact ⟨n, hn, rfl⟩
  inj m hm n hn h := hf.inj m hm n hn (hg.inj _ (hf.maps m hm) _ (hf.maps n hn) h)
  value p u hu := by
    rw [← List.map_map, hg.value p _ (hu.map hf.maps), hf.value p u hu]

theorem Iso.exists_inverse (hf : Iso f s t) :
    ∃ g, Iso g t s ∧ (∀ n ∈ s.nodes, g (f n) = n) ∧ ∀ m ∈ t.nodes, f (g m) = m := by
  choose! g hg using hf.onto
  have hback : ∀ n ∈ s.nodes, g (f n) = n := fun n hn =>
    hf.inj _ (hg _ (hf.maps n hn)).1 _ hn (hg _ (hf.maps n hn)).2
  refine ⟨g, ⟨fun m hm => (hg m hm).1, fun n hn => ⟨f n, hf.maps n hn, hback n hn⟩, ?_, ?_⟩,
    hback, fun m hm => (hg m hm).2⟩
  · intro m hm n hn h
    rw [← (hg m hm).2, ← (hg n hn).2, h]
  · intro p u hu
    have hround : (u.map g).map f = u := map_map_eq_self fun m hm => (hg m (hu.2.2 m hm)).2
    rw [← hf.value p _ (hu.map fun m hm => (hg m hm).1), hround]

theorem Iso.change {f : Node → Node} {s t s' t' : Structure V} (hf : Iso f s t)
    (hs : s'.nodes = s.nodes) (ht : t'.nodes = t.nodes)
    (hval : ∀ p u, s'.Admits ⟨p, u⟩ → t'.value p (u.map f) = s'.value p u) : Iso f s' t' where
  maps n hn := ht ▸ hf.maps n (hs ▸ hn)
  onto m hm := by
    rw [hs]
    exact hf.onto m (ht ▸ hm)
  inj m hm n hn := hf.inj m (hs ▸ hm) n (hs ▸ hn)
  value := hval

theorem Isomorphic.refl (s : Structure V) : Isomorphic s s := ⟨id, Iso.refl s⟩

theorem Isomorphic.symm (h : Isomorphic s t) : Isomorphic t s := by
  obtain ⟨f, hf⟩ := h
  obtain ⟨g, hg, -⟩ := hf.exists_inverse
  exact ⟨g, hg⟩

theorem Isomorphic.trans {r : Structure V} (h₁ : Isomorphic r s) (h₂ : Isomorphic s t) :
    Isomorphic r t := by
  obtain ⟨f, hf⟩ := h₁
  obtain ⟨g, hg⟩ := h₂
  exact ⟨g ∘ f, hg.comp hf⟩

/-! ## Isomorphisms and embeddings -/

theorem Iso.embedding (hf : Iso f s t) : Embedding f s t where
  maps := hf.maps
  onto := hf.onto
  value_le p u hu := Kleene.le_of_eq (hf.value p u hu).symm
  summary m hm n hn hne h := absurd (hf.inj m hm n hn h) hne

/-- Embeddings in both directions that undo each other are isomorphisms. -/
theorem Iso.of_embedding {g : Node → Node} (hf : Embedding f s t) (hg : Embedding g t s)
    (hback : ∀ n ∈ s.nodes, g (f n) = n) : Iso f s t where
  maps := hf.maps
  onto := hf.onto
  inj m hm n hn h := by rw [← hback m hm, ← hback n hn, h]
  value p u hu := by
    have hle := hg.value_le p _ (hu.map hf.maps)
    have hround : (u.map f).map g = u := map_map_eq_self fun n hn => hback n (hu.2.2 n hn)
    rw [hround] at hle
    exact Kleene.le_antisymm hle (hf.value_le p u hu)

/-- In well-formed structures values stay at tuples of any length. -/
theorem Iso.value_eq (hf : Iso f s t) (hs : s.WellFormed) (ht : t.WellFormed) (p : PredId)
    {u : List Node} (hu : ∀ n ∈ u, n ∈ s.nodes) : t.value p (u.map f) = s.value p u := by
  by_cases hfit : s.Admits ⟨p, u⟩
  · exact hf.value p u hfit
  · have hfit' : ¬ t.Admits ⟨p, u.map f⟩ := fun h =>
      hfit ⟨h.1, by simpa using h.2.1, hu⟩
    rw [hs.value_eq_ff hfit, ht.value_eq_ff hfit']

theorem Iso.isSummary_eq (hf : Iso f s t) {n : Node} (hn : n ∈ s.nodes) :
    t.isSummary (f n) = s.isSummary n := by
  have h := hf.value Vocabulary.sm [n] (admits_of_isReserved rfl hn)
  rw [List.map_cons, List.map_nil] at h
  rw [isSummary, isSummary, h]

/-- An isomorphism keeps the value of every formula. -/
theorem Iso.denote_eq (hf : Iso f s t) (hs : s.WellFormed) (ht : t.WellFormed)
    (φ : Formula PredId) {a : Assignment} (ha : a.Within s.nodes) :
    t.denote φ (a.map f) = s.denote φ a := by
  obtain ⟨g, hg, hback, -⟩ := hf.exists_inverse
  have hround : (a.map f).map g = a := by
    rw [Assignment.map_map]
    exact (ha.map_congr hback).trans a.map_id
  have hle := hg.embedding.denote_le ht hs φ (ha.map hf.maps)
  rw [hround] at hle
  exact Kleene.le_antisymm hle (hf.embedding.denote_le hs ht φ ha)

/-! ## Nodes and entries -/

theorem Iso.nodes_perm (hf : Iso f s t) : (s.nodes.toList.map f).Perm t.nodes.toList := by
  have hnodup : (s.nodes.toList.map f).Nodup :=
    s.nodes.nodup.map_on fun m hm n hn => hf.inj m hm n hn
  rw [List.perm_ext_iff_of_nodup hnodup t.nodes.nodup]
  intro m
  rw [List.mem_map]
  constructor
  · rintro ⟨n, hn, rfl⟩
    exact hf.maps n hn
  · exact hf.onto m

theorem mem_entries_iff {s : Structure V} {p : PredId} {u : List Node} {k : Kleene} :
    (u, k) ∈ s.entries p ↔ s.values.get? ⟨p, u⟩ = some k := by
  simp only [entries, List.mem_filterMap, Prod.exists, Option.ite_none_right_eq_some,
    Option.some.injEq, Prod.mk.injEq]
  constructor
  · rintro ⟨⟨q, w⟩, l, hmem, rfl, rfl, rfl⟩
    exact SortedMap.mem_entries.1 hmem
  · intro h
    exact ⟨⟨p, u⟩, k, SortedMap.mem_entries.2 h, rfl, rfl, rfl⟩

theorem WellFormed.mem_entries_iff_value (hs : s.WellFormed) {p : PredId} {u : List Node}
    {k : Kleene} : (u, k) ∈ s.entries p ↔ s.value p u = k ∧ k ≠ .ff := by
  rw [mem_entries_iff]
  constructor
  · intro h
    refine ⟨?_, (hs.get? h).2⟩
    rw [Structure.value, h, Option.getD_some]
  · rintro ⟨rfl, hne⟩
    exact get?_of_value_ne_ff hne

theorem nodup_entries (s : Structure V) (p : PredId) : (s.entries p).Nodup := by
  refine s.values.nodup_entries.filterMap ?_
  rintro ⟨a, k⟩ ⟨b, l⟩ e ha hb
  simp only [Option.mem_def, Option.ite_none_right_eq_some, Option.some.injEq] at ha hb
  obtain ⟨hap, rfl⟩ := ha
  obtain ⟨hbp, he⟩ := hb
  cases a
  cases b
  simp_all

theorem Iso.entries_perm (hf : Iso f s t) (hs : s.WellFormed) (ht : t.WellFormed) (p : PredId) :
    ((s.entries p).map fun e => (e.1.map f, e.2)).Perm (t.entries p) := by
  have hwithin : ∀ u k, (u, k) ∈ s.entries p → ∀ n ∈ u, n ∈ s.nodes := fun u k h =>
    (hs.get? (mem_entries_iff.1 h)).1.2.2
  have hnodup : ((s.entries p).map fun e => (e.1.map f, e.2)).Nodup := by
    refine (s.nodup_entries p).map_on ?_
    rintro ⟨u, k⟩ hu ⟨w, l⟩ hw h
    simp only [Prod.mk.injEq] at h
    rw [tuple_eq_of_map_eq hf.inj (hwithin u k hu) (hwithin w l hw) h.1, h.2]
  rw [List.perm_ext_iff_of_nodup hnodup (t.nodup_entries p)]
  rintro ⟨w, k⟩
  simp only [List.mem_map, Prod.exists, Prod.mk.injEq]
  constructor
  · rintro ⟨u, k, hu, rfl, rfl⟩
    rw [ht.mem_entries_iff_value, hf.value_eq hs ht p (hwithin u k hu)]
    exact hs.mem_entries_iff_value.1 hu
  · intro hw
    obtain ⟨u, hu, rfl⟩ := hf.embedding.exists_tuple (ht.get? (mem_entries_iff.1 hw)).1.2.2
    rw [ht.mem_entries_iff_value, hf.value_eq hs ht p hu] at hw
    exact ⟨u, k, hs.mem_entries_iff_value.2 hw, rfl, rfl⟩

end

/-! ## The search follows an isomorphism -/

/-- A list of pairs sends a node to what every pair with it says. -/
theorem image_eq {pairs : List (Node × Node)} {n m : Node} (hmem : ∃ e ∈ pairs, e.1 = n)
    (h : ∀ e ∈ pairs, e.1 = n → e.2 = m) : image pairs n = m := by
  unfold image
  cases hfind : pairs.find? fun e => e.1 = n with
  | none =>
    obtain ⟨e, he, hen⟩ := hmem
    exact absurd hen (by simpa using List.find?_eq_none.1 hfind e he)
  | some e =>
    have hen : e.1 = n := by simpa using List.find?_some hfind
    rw [Option.map_some, Option.getD_some]
    exact h e (List.mem_of_find?_eq_some hfind) hen

theorem mem_withArity {p : PredId} {k : Nat} :
    p ∈ V.withArity k ↔ p < V.size ∧ V.arity p = k := by
  simp [Vocabulary.withArity, Vocabulary.ids]

theorem mem_relations {p : PredId} : p ∈ relations V ↔ p < V.size ∧ 2 ≤ V.arity p := by
  simp [relations, Vocabulary.ids]

section

variable {f : Node → Node} {s t : Structure V}

theorem Iso.profile_eq (hf : Iso f s t) (hs : s.WellFormed) (ht : t.WellFormed)
    (ps : List PredId) {n : Node} (hn : n ∈ s.nodes) : t.profile ps (f n) = s.profile ps n := by
  refine List.map_congr_left fun p _ => ?_
  exact hf.value_eq hs ht p (u := [n]) (by simpa using hn)

theorem Iso.names_perm (hf : Iso f s t) (hs : s.WellFormed) (ht : t.WellFormed)
    (ps : List PredId) : (s.naming ps).names.Perm (t.naming ps).names := by
  rw [names_naming, names_naming]
  refine List.Perm.trans (.of_eq ?_) (hf.nodes_perm.map (t.profile ps))
  rw [List.map_map]
  exact List.map_congr_left fun n hn => (hf.profile_eq hs ht ps hn).symm

theorem Iso.sameCounts (hf : Iso f s t) (hs : s.WellFormed) (ht : t.WellFormed) :
    s.sameCounts t = true := by
  simp only [Structure.sameCounts, Bool.and_eq_true, decide_eq_true_eq, List.all_eq_true,
    Bool.or_eq_true]
  refine ⟨?_, fun p _ => ⟨?_, .inr ?_⟩⟩
  · simpa [SortedSet.size] using hf.nodes_perm.length_eq
  · simpa using (hf.entries_perm hs ht p).length_eq
  · exact (hf.value_eq hs ht p (u := []) (by simp)).symm

theorem Iso.pairAgrees (hf : Iso f s t) (hs : s.WellFormed) (ht : t.WellFormed)
    {pairs : List (Node × Node)} (hpairs : ∀ e ∈ pairs, e.1 ∈ s.nodes ∧ e.2 = f e.1) {a : Node}
    (ha : a ∈ s.nodes) : s.pairAgrees t pairs a (f a) = true := by
  simp only [Structure.pairAgrees, List.all_eq_true, Bool.and_eq_true, decide_eq_true_eq]
  intro p _ e he
  obtain ⟨hx, hy⟩ := hpairs e he
  rw [hy]
  exact ⟨(hf.value_eq hs ht p (u := [a, e.1]) (by simp [ha, hx])).symm,
    (hf.value_eq hs ht p (u := [e.1, a]) (by simp [ha, hx])).symm⟩

theorem Iso.relationsAgree (hf : Iso f s t) (hs : s.WellFormed) (ht : t.WellFormed)
    {pairs : List (Node × Node)} (hpairs : ∀ e ∈ pairs, e.2 = f e.1)
    (hall : ∀ n ∈ s.nodes, ∃ e ∈ pairs, e.1 = n) : s.relationsAgree t pairs = true := by
  simp only [Structure.relationsAgree, List.all_eq_true, decide_eq_true_eq]
  rintro p - ⟨u, k⟩ hu
  have hwithin := (hs.get? (mem_entries_iff.1 hu)).1.2.2
  have himage : u.map (image pairs) = u.map f := by
    refine List.map_congr_left fun n hn => ?_
    exact image_eq (hall n (hwithin n hn)) fun e he hen => hen ▸ hpairs e he
  rw [himage, hf.value_eq hs ht p hwithin]
  exact (hs.mem_entries_iff_value.1 hu).1

/-- As long as the pairs so far belong to an isomorphism, and its images are
among the candidates, the search succeeds. -/
theorem Iso.extendMapping (hf : Iso f s t) (hs : s.WellFormed) (ht : t.WellFormed)
    (rest : List (Node × List Node)) (hrest : ∀ c ∈ rest, c.1 ∈ s.nodes ∧ f c.1 ∈ c.2)
    (pairs : List (Node × Node)) (hpairs : ∀ e ∈ pairs, e.1 ∈ s.nodes ∧ e.2 = f e.1)
    (hnodup : (rest.map Prod.fst ++ pairs.map Prod.fst).Nodup)
    (hall : ∀ n ∈ s.nodes, n ∈ rest.map Prod.fst ∨ ∃ e ∈ pairs, e.1 = n) :
    s.extendMapping t rest pairs = true := by
  induction rest generalizing pairs with
  | nil =>
    refine hf.relationsAgree hs ht (fun e he => (hpairs e he).2) fun n hn => ?_
    exact (hall n hn).resolve_left (by simp)
  | cons c rest ih =>
    obtain ⟨a, candidates⟩ := c
    obtain ⟨ha, hcand⟩ := hrest _ List.mem_cons_self
    dsimp only at ha hcand
    have hpairs' : ∀ e ∈ (a, f a) :: pairs, e.1 ∈ s.nodes ∧ e.2 = f e.1 := by
      intro e he
      rcases List.mem_cons.1 he with rfl | he
      · exact ⟨ha, rfl⟩
      · exact hpairs e he
    simp only [Structure.extendMapping, List.any_eq_true, Bool.and_eq_true, Bool.not_eq_true']
    refine ⟨f a, hcand, ⟨?_, hf.pairAgrees hs ht hpairs' ha⟩, ?_⟩
    · -- The image of `a` is free, since `a` is in no pair yet.
      rw [List.any_eq_false]
      intro e he h
      obtain ⟨hes, hef⟩ := hpairs e he
      have hea : e.1 = a := hf.inj _ hes _ ha (by rw [← hef]; simpa using h)
      rw [List.map_cons, List.cons_append, List.nodup_cons, List.mem_append] at hnodup
      exact hnodup.1 (.inr (hea ▸ List.mem_map_of_mem he))
    · refine ih (fun c hc => hrest c (List.mem_cons_of_mem _ hc)) _ hpairs' ?_ fun n hn => ?_
      · refine List.Perm.nodup ?_ hnodup
        simpa using (List.perm_middle (a := a)).symm
      · rcases hall n hn with hn | ⟨e, he, hen⟩
        · rcases List.mem_cons.1 hn with rfl | hn
          · exact .inr ⟨_, List.mem_cons_self, rfl⟩
          · exact .inl hn
        · exact .inr ⟨e, List.mem_cons_of_mem _ he, hen⟩

end

/-! ## The search ends in an isomorphism -/

/-- The nodes left to map, each with its candidates. -/
def searchOrder (s t : Structure V) : List (Node × List Node) :=
  (s.signatures.mergeSort fun a b => signatureLe a.2 b.2).map fun (n, g) =>
    (n, t.signatures.withName g)

theorem searchOrder_perm (s t : Structure V) :
    (s.searchOrder t).Perm (s.nodes.toList.map fun n =>
      (n, t.nodes.toList.filter fun m =>
        t.profile (V.withArity 1) m = s.profile (V.withArity 1) n)) := by
  have hname : ∀ g : List Kleene, t.signatures.withName g =
      t.nodes.toList.filter fun m => t.profile (V.withArity 1) m = g := by
    intro g
    rw [Naming.withName, signatures, naming, List.filter_map, List.map_map]
    simp [Function.comp_def]
  have hperm := (List.mergeSort_perm s.signatures fun a b => signatureLe a.2 b.2).map
    fun e : Node × List Kleene => (e.1, t.signatures.withName e.2)
  refine hperm.trans (.of_eq ?_)
  simp only [hname]
  rw [signatures, naming, List.map_map]
  rfl

theorem searchOrder_fst_perm (s t : Structure V) :
    ((s.searchOrder t).map Prod.fst).Perm s.nodes.toList := by
  refine ((s.searchOrder_perm t).map Prod.fst).trans (.of_eq ?_)
  simp [Function.comp_def]

theorem mem_searchOrder {s t : Structure V} {c : Node × List Node} (h : c ∈ s.searchOrder t) :
    c.1 ∈ s.nodes ∧ ∀ m, m ∈ c.2 ↔
      m ∈ t.nodes ∧ t.profile (V.withArity 1) m = s.profile (V.withArity 1) c.1 := by
  obtain ⟨n, hn, rfl⟩ := List.mem_map.1 ((s.searchOrder_perm t).mem_iff.1 h)
  refine ⟨hn, fun m => ?_⟩
  simp

/-- A search that succeeds ends with one pair for each node that was left, its
image among the candidates and all images different. -/
theorem exists_pairs_of_extendMapping {s t : Structure V} (rest : List (Node × List Node))
    (pairs : List (Node × Node)) (h : s.extendMapping t rest pairs = true)
    (hnodup : (pairs.map Prod.snd).Nodup) :
    ∃ found : List (Node × Node), s.relationsAgree t (found ++ pairs) = true ∧
      found.map Prod.fst = (rest.map Prod.fst).reverse ∧
      ((found ++ pairs).map Prod.snd).Nodup ∧
      ∀ e ∈ found, ∃ c ∈ rest, c.1 = e.1 ∧ e.2 ∈ c.2 := by
  induction rest generalizing pairs with
  | nil => exact ⟨[], h, rfl, hnodup, by simp⟩
  | cons c rest ih =>
    obtain ⟨a, candidates⟩ := c
    simp only [Structure.extendMapping, List.any_eq_true, Bool.and_eq_true, Bool.not_eq_true',
      List.any_eq_false, decide_eq_true_eq] at h
    obtain ⟨b, hb, ⟨hfree, -⟩, hext⟩ := h
    have hnodup' : (((a, b) :: pairs).map Prod.snd).Nodup := by
      rw [List.map_cons, List.nodup_cons]
      refine ⟨fun hmem => ?_, hnodup⟩
      obtain ⟨e, he, heb⟩ := List.mem_map.1 hmem
      exact hfree e he heb
    obtain ⟨found, hrel, hfst, hsnd, hcand⟩ := ih _ hext hnodup'
    refine ⟨found ++ [(a, b)], by simpa using hrel, by simp [hfst], by simpa using hsnd, ?_⟩
    intro e he
    rcases List.mem_append.1 he with he | he
    · obtain ⟨c, hc, hce⟩ := hcand e he
      exact ⟨c, List.mem_cons_of_mem _ hc, hce⟩
    · rw [List.mem_singleton.1 he]
      exact ⟨_, List.mem_cons_self, rfl, hb⟩

section

variable {s t : Structure V} (hs : s.WellFormed) (ht : t.WellFormed)
include hs ht

/-- A map under which every stored value of a predicate has its value keeps all
values of the predicate, when both structures store equally many. -/
theorem value_eq_of_entries {f : Node → Node}
    (hinj : ∀ m ∈ s.nodes.toList, ∀ n ∈ s.nodes.toList, f m = f n → m = n) {p : PredId}
    (hentries : ∀ e ∈ s.entries p, t.value p (e.1.map f) = e.2)
    (hlen : (s.entries p).length = (t.entries p).length) {u : List Node}
    (hu : ∀ n ∈ u, n ∈ s.nodes) : t.value p (u.map f) = s.value p u := by
  have hwithin : ∀ e ∈ s.entries p, ∀ n ∈ e.1, n ∈ s.nodes := fun e he =>
    (hs.get? (mem_entries_iff.1 he)).1.2.2
  by_cases hval : s.value p u = .ff
  · -- An entry at the image would be the image of another entry.
    by_contra hne
    rw [hval] at hne
    have hnodup : ((s.entries p).map fun e => (e.1.map f, e.2)).Nodup := by
      refine (s.nodup_entries p).map_on ?_
      rintro e he d hd h
      simp only [Prod.mk.injEq] at h
      rw [Prod.ext_iff]
      exact ⟨tuple_eq_of_map_eq hinj (hwithin e he) (hwithin d hd) h.1, h.2⟩
    have hsub : ∀ e ∈ (s.entries p).map fun e => (e.1.map f, e.2), e ∈ t.entries p := by
      intro e he
      obtain ⟨d, hd, rfl⟩ := List.mem_map.1 he
      exact ht.mem_entries_iff_value.2 ⟨hentries d hd, (hs.mem_entries_iff_value.1 hd).2⟩
    have hperm := (List.subperm_of_subset hnodup hsub).perm_of_length_le (by simp [hlen])
    have himage := hperm.mem_iff.2 (ht.mem_entries_iff_value.2 ⟨rfl, hne⟩)
    obtain ⟨d, hd, hdu⟩ := List.mem_map.1 himage
    have heq := tuple_eq_of_map_eq hinj (hwithin d hd) hu (Prod.mk.inj hdu).1
    have hentry := hs.mem_entries_iff_value.1 (show (d.1, d.2) ∈ s.entries p from hd)
    rw [heq, hval] at hentry
    exact hentry.2 hentry.1.symm
  · exact hentries (u, s.value p u) (hs.mem_entries_iff_value.2 ⟨rfl, hval⟩)

theorem isomorphic_of_isIsomorphic (h : s.isIsomorphic t = true) : Isomorphic s t := by
  simp only [isIsomorphic, Bool.and_eq_true] at h
  obtain ⟨⟨hcounts, -⟩, hext⟩ := h
  simp only [sameCounts, Bool.and_eq_true, decide_eq_true_eq, List.all_eq_true,
    Bool.or_eq_true] at hcounts
  obtain ⟨hsize, hpreds⟩ := hcounts
  obtain ⟨found, hrel, hfst, hsnd, hcand⟩ :=
    exists_pairs_of_extendMapping (s.searchOrder t) [] hext .nil
  rw [List.append_nil] at hrel hsnd
  have hfst : (found.map Prod.fst).Perm s.nodes.toList := by
    rw [hfst]
    exact (List.reverse_perm _).trans (s.searchOrder_fst_perm t)
  have hpair : ∀ n ∈ s.nodes, ∃ e ∈ found, e.1 = n := fun n hn =>
    List.mem_map.1 (hfst.mem_iff.2 hn)
  have himage : ∀ e ∈ found, image found e.1 = e.2 := by
    intro e he
    refine image_eq ⟨e, he, rfl⟩ fun d hd hde => ?_
    have hnodup := hfst.nodup_iff.2 s.nodes.nodup
    rw [List.inj_on_of_nodup_map hnodup hd he hde]
  have hcand : ∀ e ∈ found, e.1 ∈ s.nodes ∧ e.2 ∈ t.nodes ∧
      t.profile (V.withArity 1) e.2 = s.profile (V.withArity 1) e.1 := by
    intro e he
    obtain ⟨c, hc, hce, hmem⟩ := hcand e he
    obtain ⟨hcn, hiff⟩ := mem_searchOrder hc
    rw [hce] at hcn hiff
    exact ⟨hcn, (hiff e.2).1 hmem⟩
  have hinj : ∀ m ∈ s.nodes.toList, ∀ n ∈ s.nodes.toList,
      image found m = image found n → m = n := by
    intro m hm n hn h
    obtain ⟨d, hd, rfl⟩ := hpair m hm
    obtain ⟨e, he, rfl⟩ := hpair n hn
    rw [himage d hd, himage e he] at h
    rw [List.inj_on_of_nodup_map hsnd hd he h]
  refine ⟨image found, fun n hn => ?_, fun m hm => ?_, hinj, fun p u hu => ?_⟩
  · obtain ⟨e, he, rfl⟩ := hpair n hn
    rw [himage e he]
    exact (hcand e he).2.1
  · -- As many different images as nodes leave no node out.
    have hsub : ∀ m ∈ found.map Prod.snd, m ∈ t.nodes.toList := by
      intro m hm
      obtain ⟨e, he, rfl⟩ := List.mem_map.1 hm
      exact (hcand e he).2.1
    have hlen : t.nodes.toList.length ≤ (found.map Prod.snd).length := by
      have hfound := hfst.length_eq
      simp only [SortedSet.size] at hsize
      simp only [List.length_map] at hfound ⊢
      omega
    have hperm := (List.subperm_of_subset hsnd hsub).perm_of_length_le hlen
    obtain ⟨e, he, rfl⟩ := List.mem_map.1 (hperm.mem_iff.2 hm)
    exact ⟨e.1, (hcand e he).1, himage e he⟩
  · obtain ⟨hp, hlen, hwithin⟩ := hu
    dsimp only at hp hlen hwithin
    obtain ⟨hcount, hnullary⟩ := hpreds p (List.mem_range.2 hp)
    rcases Nat.lt_or_ge (V.arity p) 2 with harity | harity
    · match u, hlen with
      | [], hlen => simpa [← hlen, eq_comm] using hnullary
      | [n], hlen =>
        obtain ⟨e, he, rfl⟩ := hpair n (hwithin n List.mem_cons_self)
        rw [List.map_cons, List.map_nil, himage e he]
        have hmem : p ∈ V.withArity 1 := mem_withArity.2 ⟨hp, hlen.symm⟩
        exact List.map_inj_left.1 (hcand e he).2.2 p hmem
      | _ :: _ :: _, hlen => simp at hlen; omega
    · refine value_eq_of_entries hs ht hinj (fun e he => ?_) hcount hwithin
      have hmem : p ∈ relations V := mem_relations.2 ⟨hp, harity⟩
      simpa using List.all_eq_true.1 (List.all_eq_true.1 hrel p hmem) e he

/-- The search succeeds exactly on isomorphic structures. -/
theorem isIsomorphic_iff : s.isIsomorphic t = true ↔ Isomorphic s t := by
  refine ⟨isomorphic_of_isIsomorphic hs ht, ?_⟩
  rintro ⟨f, hf⟩
  simp only [isIsomorphic, Bool.and_eq_true, List.all_eq_true, decide_eq_true_eq]
  refine ⟨⟨hf.sameCounts hs ht, fun g _ => (hf.names_perm hs ht _).count_eq g⟩, ?_⟩
  refine hf.extendMapping hs ht (s.searchOrder t) (fun c hc => ?_) [] (by simp) ?_ fun n hn => ?_
  · obtain ⟨hcn, hiff⟩ := mem_searchOrder hc
    exact ⟨hcn, (hiff _).2 ⟨hf.maps _ hcn, hf.profile_eq hs ht _ hcn⟩⟩
  · rw [List.map_nil, List.append_nil]
    exact (s.searchOrder_fst_perm t).nodup_iff.2 s.nodes.nodup
  · exact .inl ((s.searchOrder_fst_perm t).mem_iff.2 hn)

end

/-! ## Bijections of the nodes -/

theorem isomorphic_iff_exists_equiv {s t : Structure V} : Isomorphic s t ↔
    ∃ h : {n // n ∈ s.nodes} ≃ {n // n ∈ t.nodes},
      ∀ p < V.size, ∀ u : List {n // n ∈ s.nodes}, u.length = V.arity p →
        s.value p (u.map fun n => n.val) = t.value p (u.map fun n => (h n).val) := by
  constructor
  · rintro ⟨f, hf⟩
    refine ⟨.ofBijective (fun n => ⟨f n.val, hf.maps n.val n.property⟩)
      ⟨fun m n h => ?_, fun m => ?_⟩, fun p hp u hu => ?_⟩
    · exact Subtype.ext (hf.inj m.val m.property n.val n.property (congrArg Subtype.val h))
    · obtain ⟨n, hn, hnm⟩ := hf.onto m.val m.property
      exact ⟨⟨n, hn⟩, Subtype.ext hnm⟩
    · have hadm : s.Admits ⟨p, u.map fun n => n.val⟩ := by
        refine ⟨hp, by simpa using hu, fun n hn => ?_⟩
        obtain ⟨m, -, rfl⟩ := List.mem_map.1 hn
        exact m.property
      rw [← hf.value p _ hadm, List.map_map]
      rfl
  · rintro ⟨h, hval⟩
    have hf : ∀ n : {n // n ∈ s.nodes},
        (if hn : n.val ∈ s.nodes then (h ⟨n.val, hn⟩).val else n.val) = (h n).val := fun n =>
      dif_pos n.property
    refine ⟨fun n => if hn : n ∈ s.nodes then (h ⟨n, hn⟩).val else n, fun n hn => ?_,
      fun m hm => ?_, fun m hm n hn heq => ?_, fun p u hu => ?_⟩
    · rw [hf ⟨n, hn⟩]
      exact (h ⟨n, hn⟩).property
    · refine ⟨(h.symm ⟨m, hm⟩).val, (h.symm ⟨m, hm⟩).property, ?_⟩
      rw [hf, h.apply_symm_apply]
    · rw [hf ⟨m, hm⟩, hf ⟨n, hn⟩] at heq
      exact congrArg Subtype.val (h.injective (Subtype.ext heq))
    · obtain ⟨w, rfl⟩ : ∃ w : List {n // n ∈ s.nodes}, w.map (fun n => n.val) = u :=
        ⟨u.attachWith _ hu.2.2, by simp⟩
      rw [hval p hu.1 w (by simpa using hu.2.1), List.map_map]
      congr 1
      exact List.map_congr_left fun n _ => hf n

/-- The search succeeds exactly when some bijection between the sets of nodes
keeps the value of every predicate, of any number of places, at every tuple. -/
theorem isIsomorphic_iff_exists_equiv {s t : Structure V} (hs : s.WellFormed)
    (ht : t.WellFormed) : s.isIsomorphic t = true ↔
      ∃ h : {n // n ∈ s.nodes} ≃ {n // n ∈ t.nodes},
        ∀ p < V.size, ∀ u : List {n // n ∈ s.nodes}, u.length = V.arity p →
          s.value p (u.map fun n => n.val) = t.value p (u.map fun n => (h n).val) :=
  (isIsomorphic_iff hs ht).trans isomorphic_iff_exists_equiv

/-- Cells in a ring, which all have the same signature. -/
def ringCells : Structure cellVocabulary :=
  (((newNodes 3 {}).set 7 [0, 1] .tt).set 7 [1, 2] .tt).set 7 [2, 0] .tt

/-- A ring linked the other way round. -/
def backRingCells : Structure cellVocabulary :=
  (((newNodes 3 {}).set 7 [1, 0] .tt).set 7 [2, 1] .tt).set 7 [0, 2] .tt

theorem isIsomorphic_iff_exists_equiv_ring :
    ringCells.WellFormed ∧ backRingCells.WellFormed ∧
      ringCells.isIsomorphic backRingCells = true ∧
      ∃ h : {n // n ∈ ringCells.nodes} ≃ {n // n ∈ backRingCells.nodes},
        ∀ p < cellVocabulary.size, ∀ u : List {n // n ∈ ringCells.nodes},
          u.length = cellVocabulary.arity p →
          ringCells.value p (u.map fun n => n.val) =
            backRingCells.value p (u.map fun n => (h n).val) := by
  have hs : ringCells.WellFormed := by decide
  have ht : backRingCells.WellFormed := by decide
  -- The map swaps two cells.
  have hiso : ringCells.isIsomorphic backRingCells = true :=
    (isIsomorphic_iff hs ht).2 ⟨fun n => if n = 1 then 2 else if n = 2 then 1 else n, by decide⟩
  exact ⟨hs, ht, hiso, (isIsomorphic_iff_exists_equiv hs ht).1 hiso⟩

end Structure

end ShapeAnalysis
