import Mathlib.Data.List.Nodup
import Mathlib.Data.List.Perm.Subperm
import ShapeAnalysis.Structure.Canonical
import ShapeAnalysis.Proofs.Embedding

/-!
# Counting merged tuples

When nodes are merged, the value of a predicate at a tuple has to join its values at all
the tuples that become that one.  Only values other than false are stored, so merging sees
the other tuples by counting: the tuples merged into one are as many as the product of the
sizes of its groups (`length_fibre`), and when fewer values were gathered some tuple was
false.

The product is a word of 64 bits.  Where it wraps, false tuples can be overlooked
(`Overlooks`), and then a value that is true of some tuples only stays true.  In every
other case merging joins the values (`Closed.merged_cases`).  Fewer than `2 ^ 64` tuples
for every predicate are always counted exactly (`WellFormed.not_overlooks`).
-/

namespace ShapeAnalysis

namespace Structure

variable {V : Vocabulary}

/-! ## Gathering values -/

/-- Count a value towards what was gathered before. -/
def tally (o : Option (Kleene × Nat)) (e : Atom × Kleene) : Option (Kleene × Nat) :=
  match o with
  | none => some (e.2, 1)
  | some (k, n) => some (k.join e.2, n + 1)

theorem get?_gather (rep : Node → Node) (m : SortedMap Atom (Kleene × Nat)) (e : Atom × Kleene)
    (a : Atom) :
    (gather rep m e).get? a = if e.1.map rep = a then tally (m.get? a) e else m.get? a := by
  unfold gather
  dsimp only
  by_cases h : e.1.map rep = a
  · subst h
    cases hget : m.get? (e.1.map rep) <;> simp [tally]
  · cases hget : m.get? (e.1.map rep) <;> simp [h, Ne.symm h]

theorem get?_foldl_gather (rep : Node → Node) (es : List (Atom × Kleene))
    (m : SortedMap Atom (Kleene × Nat)) (a : Atom) :
    (es.foldl (gather rep) m).get? a =
      (es.filter fun e => e.1.map rep = a).foldl tally (m.get? a) := by
  induction es generalizing m with
  | nil => rfl
  | cons e es ih =>
    rw [List.foldl_cons, ih, get?_gather]
    by_cases h : e.1.map rep = a
    · rw [if_pos h, List.filter_cons_of_pos (by simpa using h), List.foldl_cons]
    · rw [if_neg h, List.filter_cons_of_neg (by simpa using h)]

theorem foldl_tally_some (es : List (Atom × Kleene)) (k : Kleene) (n : Nat) :
    es.foldl tally (some (k, n)) = some ((es.map Prod.snd).foldl Kleene.join k, n + es.length) := by
  induction es generalizing k n with
  | nil => rfl
  | cons e es ih =>
    rw [List.foldl_cons, tally, ih]
    simp only [List.map_cons, List.foldl_cons, List.length_cons]
    congr 2
    omega

/-- What is gathered from a list of entries: nothing, or a value above all of
them with their number. -/
theorem foldl_tally_none (es : List (Atom × Kleene)) :
    (es = [] ∧ es.foldl tally none = none) ∨
      es ≠ [] ∧ ∃ k, es.foldl tally none = some (k, es.length) ∧ ∀ e ∈ es, e.2.le k := by
  cases es with
  | nil => exact .inl ⟨rfl, rfl⟩
  | cons e es =>
    right
    obtain ⟨hacc, hes⟩ := Kleene.le_foldl_join (es.map Prod.snd) e.2
    refine ⟨List.cons_ne_nil _ _, (es.map Prod.snd).foldl Kleene.join e.2, ?_, fun d hd => ?_⟩
    · rw [List.foldl_cons, tally, foldl_tally_some, List.length_cons, Nat.add_comm]
    · rcases List.mem_cons.1 hd with rfl | hd
      · exact hacc
      · exact hes d.2 (List.mem_map_of_mem hd)

/-- The value of an atom after merging, from what was gathered for it. -/
def settleMerged (size : Node → Nat) (a : Atom) (g : Kleene × Nat) : Kleene :=
  if g.2 < (coverage size a).toNat then g.1.join .ff else g.1

theorem mergedValues_eq (rep : Node → Node) (size : Node → Nat) (values : SortedMap Atom Kleene) :
    mergedValues rep size values =
      SortedMap.insertAll ∅ ((values.entries.foldl (gather rep) ∅).entries.filterMap fun e =>
        if settleMerged size e.1 e.2 = .ff then none
        else some (e.1, settleMerged size e.1 e.2)) := by
  rw [SortedMap.insertAll, List.foldl_filterMap, mergedValues]
  congr 1
  funext m e
  obtain ⟨a, k, n⟩ := e
  simp only [settleMerged]
  split <;> split <;> simp_all

/-- The stored values after merging are those gathered that are not false. -/
theorem get?_mergedValues (rep : Node → Node) (size : Node → Nat)
    (values : SortedMap Atom Kleene) (a : Atom) :
    (mergedValues rep size values).get? a =
      ((values.entries.foldl (gather rep) ∅).get? a).bind fun g =>
        if settleMerged size a g = .ff then none else some (settleMerged size a g) := by
  rw [mergedValues_eq]
  generalize values.entries.foldl (gather rep) ∅ = gathered
  generalize hes : gathered.entries.filterMap (fun e =>
    if settleMerged size e.1 e.2 = .ff then none else some (e.1, settleMerged size e.1 e.2)) = es
  have hmem : ∀ e, e ∈ es ↔ ∃ g, gathered.get? e.1 = some g ∧ settleMerged size e.1 g ≠ .ff ∧
      settleMerged size e.1 g = e.2 := by
    rintro ⟨b, k⟩
    rw [← hes]
    simp only [List.mem_filterMap, Option.ite_none_left_eq_some, Option.some.injEq,
      Prod.mk.injEq, Prod.exists, SortedMap.mem_entries]
    constructor
    · rintro ⟨b, k', n, hget, hne, rfl, rfl⟩
      exact ⟨k', n, hget, hne, rfl⟩
    · rintro ⟨k', n, hget, hne, rfl⟩
      exact ⟨b, k', n, hget, hne, rfl, rfl⟩
  by_cases hstored : ∃ g, gathered.get? a = some g ∧ settleMerged size a g ≠ .ff
  · obtain ⟨g, hg, hne⟩ := hstored
    rw [hg, Option.bind_some, if_neg hne]
    refine SortedMap.get?_insertAll_of_mem (fun e he hea => ?_)
      ⟨(a, settleMerged size a g), (hmem _).2 ⟨g, hg, hne, rfl⟩, rfl⟩ _
    obtain ⟨g', hg', -, hval⟩ := (hmem e).1 he
    rw [hea, hg] at hg'
    rw [← hval, hea, Option.some.inj hg']
  · rw [SortedMap.get?_insertAll_of_forall_ne, SortedMap.get?_empty]
    · cases hg : gathered.get? a with
      | none => rfl
      | some g =>
        rw [Option.bind_some, if_pos]
        by_contra hne
        exact hstored ⟨g, hg, hne⟩
    · rintro e he rfl
      obtain ⟨g, hg, hne, -⟩ := (hmem e).1 he
      exact hstored ⟨g, hg, hne⟩

/-! ## The tuples that are merged -/

/-- The tuples of the structure that are merged into a tuple. -/
def MergedInto (s : Structure V) (rep : Node → Node) (t u : List Node) : Prop :=
  (∀ n ∈ u, n ∈ s.nodes) ∧ u.map rep = t

/-- The same tuples as a list. -/
def fibre (s : Structure V) (rep : Node → Node) (t : List Node) : List (List Node) :=
  (tuples s.nodes.toList t.length).filter fun u => u.map rep = t

theorem mem_fibre {s : Structure V} {rep : Node → Node} {t u : List Node} :
    u ∈ s.fibre rep t ↔ s.MergedInto rep t u := by
  rw [fibre, List.mem_filter, mem_tuples, MergedInto]
  constructor
  · rintro ⟨⟨-, hu⟩, hrep⟩
    exact ⟨hu, of_decide_eq_true hrep⟩
  · rintro ⟨hu, rfl⟩
    exact ⟨⟨by simp, hu⟩, by simp⟩

theorem nodup_fibre (s : Structure V) (rep : Node → Node) (t : List Node) :
    (s.fibre rep t).Nodup :=
  (nodup_tuples s.nodes.nodup _).filter _

/-- The tuples that are merged into one are as many as the product of what is merged into
each of its nodes. -/
theorem length_fibre (s : Structure V) (rep : Node → Node) (t : List Node) :
    (s.fibre rep t).length =
      (t.map fun m => (s.nodes.toList.filter fun n => rep n = m).length).prod := by
  have hstep : ∀ (m : Node) (t : List Node) (ts : List (List Node)) (ns : List Node),
      ((ns.flatMap fun n => ts.map (n :: ·)).filter fun w => w.map rep = m :: t).length =
        (ns.filter fun n => rep n = m).length * (ts.filter fun w => w.map rep = t).length := by
    intro m t ts ns
    induction ns with
    | nil => simp
    | cons n ns ih =>
      rw [List.flatMap_cons, List.filter_append, List.length_append, ih, List.filter_map,
        List.length_map]
      by_cases hn : rep n = m
      · rw [List.filter_cons_of_pos (by simpa using hn), List.length_cons, Nat.succ_mul,
          Nat.add_comm]
        simp [Function.comp_def, hn]
      · rw [List.filter_cons_of_neg (by simpa using hn)]
        simp [Function.comp_def, hn]
  induction t with
  | nil => rfl
  | cons m t ih => rw [List.map_cons, List.prod_cons, ← ih, fibre, List.length_cons, tuples,
      hstep, fibre]

/-! ## Counting them -/

/-- The word that holds a product is the product with its high bits cut off. -/
theorem toNat_coverage (size : Node → Nat) (a : Atom) :
    (coverage size a).toNat = (a.args.map size).prod % 2 ^ 64 := by
  have hacc : ∀ (t : List Node) (x : UInt64),
      ((t.map fun n => UInt64.ofNat (size n)).foldl (· * ·) x).toNat =
        x.toNat * (t.map size).prod % 2 ^ 64 := by
    intro t
    induction t with
    | nil =>
      intro x
      simp [Nat.mod_eq_of_lt x.toNat_lt]
    | cons n t ih =>
      intro x
      rw [List.map_cons, List.foldl_cons, ih, UInt64.toNat_mul, UInt64.toNat_ofNat',
        Nat.mul_mod_mod, Nat.mod_mul_mod, List.map_cons, List.prod_cons, Nat.mul_assoc]
  rw [coverage, hacc, UInt64.toNat_one, Nat.one_mul]

/-- Sizes that count what is merged into each node. -/
def Sizes (s : Structure V) (rep : Node → Node) (size : Node → Nat) : Prop :=
  ∀ n ∈ s.nodes, size (rep n) = (s.nodes.toList.filter fun m => rep m = rep n).length

/-- What is compared with the number of values is the number of merged tuples, modulo
`2 ^ 64`. -/
theorem Sizes.toNat_coverage {s : Structure V} {rep : Node → Node} {size : Node → Nat}
    (hsize : s.Sizes rep size) (p : PredId) {t u : List Node} (hu : s.MergedInto rep t u) :
    (coverage size ⟨p, t⟩).toNat = (s.fibre rep t).length % 2 ^ 64 := by
  obtain ⟨hu, rfl⟩ := hu
  rw [Structure.toNat_coverage, length_fibre, List.map_map, List.map_map]
  congr 2
  exact List.map_congr_left fun n hn => hsize n (hu n hn)

section Gathered

variable {s : Structure V} {rep : Node → Node} {p : PredId} {t : List Node}

/-- The entries that are merged into an atom. -/
def gathered (s : Structure V) (rep : Node → Node) (p : PredId) (t : List Node) :
    List (Atom × Kleene) :=
  s.values.entries.filter fun e => e.1.map rep = ⟨p, t⟩

theorem mem_gathered {e : Atom × Kleene} : e ∈ s.gathered rep p t ↔
    s.values.get? e.1 = some e.2 ∧ e.1.pred = p ∧ e.1.args.map rep = t := by
  rw [gathered, List.mem_filter, SortedMap.mem_entries, decide_eq_true_iff, Atom.map,
    Atom.mk.injEq]

theorem mem_gathered_of_ne_ff {u : List Node} (hu : u.map rep = t) (hval : s.value p u ≠ .ff) :
    (⟨p, u⟩, s.value p u) ∈ s.gathered rep p t :=
  mem_gathered.2 ⟨get?_of_value_ne_ff hval, rfl, hu⟩

/-- The tuples of the entries are pairwise different. -/
theorem nodup_args_gathered (s : Structure V) (rep : Node → Node) (p : PredId) (t : List Node) :
    ((s.gathered rep p t).map fun e => e.1.args).Nodup := by
  have hsorted : (s.gathered rep p t).Pairwise fun d e => compare d.1 e.1 = .lt :=
    s.values.sorted.filter _
  refine List.pairwise_map.2 (hsorted.imp_of_mem fun {d e} hd he hlt hargs => ?_)
  have hpred : d.1.pred = e.1.pred := (mem_gathered.1 hd).2.1.trans (mem_gathered.1 he).2.1.symm
  have hatom : d.1 = e.1 := by
    cases hda : d.1
    cases hea : e.1
    simp_all
  simp [hatom] at hlt

/-- Every merged tuple that is not false has an entry. -/
theorem length_filter_fibre_le (s : Structure V) (rep : Node → Node) (p : PredId)
    (t : List Node) :
    ((s.fibre rep t).filter fun u => s.value p u ≠ .ff).length ≤ (s.gathered rep p t).length := by
  have hsub : ∀ u ∈ (s.fibre rep t).filter fun u => s.value p u ≠ .ff,
      u ∈ (s.gathered rep p t).map fun e => e.1.args := by
    intro u hu
    obtain ⟨hu, hval⟩ := List.mem_filter.1 hu
    exact List.mem_map.2
      ⟨_, mem_gathered_of_ne_ff (mem_fibre.1 hu).2 (of_decide_eq_true hval), rfl⟩
  simpa using (List.subperm_of_subset ((nodup_fibre s rep t).filter _) hsub).length_le

/-- In a closed structure nothing else has one. -/
theorem Closed.length_gathered (hs : s.Closed) : (s.gathered rep p t).length =
    ((s.fibre rep t).filter fun u => s.value p u ≠ .ff).length := by
  refine Nat.le_antisymm ?_ (length_filter_fibre_le s rep p t)
  have hsub : ∀ u ∈ (s.gathered rep p t).map fun e => e.1.args,
      u ∈ (s.fibre rep t).filter fun u => s.value p u ≠ .ff := by
    intro u hu
    obtain ⟨⟨⟨q, u⟩, k⟩, he, rfl⟩ := List.mem_map.1 hu
    obtain ⟨hget, rfl, hrep⟩ := mem_gathered.1 he
    have hval : s.value q u = k := by rw [value, hget, Option.getD_some]
    obtain ⟨hwithin, hk⟩ := hs _ _ hget
    exact List.mem_filter.2 ⟨mem_fibre.2 ⟨hwithin, hrep⟩, by simpa [hval] using hk⟩
  simpa using (List.subperm_of_subset (nodup_args_gathered s rep p t) hsub).length_le

end Gathered

/-! ## Merging joins the values -/

theorem foldl_tally_const {es : List (Atom × Kleene)} {k : Kleene} (hne : es ≠ [])
    (h : ∀ e ∈ es, e.2 = k) : es.foldl tally none = some (k, es.length) := by
  cases es with
  | nil => exact absurd rfl hne
  | cons e es =>
    rw [List.forall_mem_cons] at h
    have hjoin : (es.map Prod.snd).foldl Kleene.join k = k := by
      refine Kleene.le_antisymm (Kleene.foldl_join_le (Kleene.le_refl k) fun x hx => ?_)
        (Kleene.le_foldl_join _ k).1
      obtain ⟨d, hd, rfl⟩ := List.mem_map.1 hx
      exact Kleene.le_of_eq (h.2 d hd)
    rw [List.foldl_cons, tally, foldl_tally_some, h.1, hjoin, List.length_cons, Nat.add_comm]

/-- The value `k` joins the values of a predicate at the tuples of a set: it is
their common value, or unknown where two of them differ. -/
def Joins (s : Structure V) (p : PredId) (B : List Node → Prop) (k : Kleene) : Prop :=
  (∀ u, B u → s.value p u = k) ∨ k = .unknown ∧ ∃ u w, B u ∧ B w ∧ s.value p u ≠ s.value p w

section Joins

variable {s : Structure V} {p : PredId} {B : List Node → Prop} {k l : Kleene}

theorem Joins.unique (hB : ∃ u, B u) (hk : s.Joins p B k) (hl : s.Joins p B l) : k = l := by
  obtain ⟨u, hu⟩ := hB
  rcases hk with hk | ⟨rfl, w, w', hw, hw', hne⟩
  · rcases hl with hl | ⟨-, w, w', hw, hw', hne⟩
    · rw [← hk u hu, hl u hu]
    · exact absurd ((hk w hw).trans (hk w' hw').symm) hne
  · rcases hl with hl | ⟨rfl, -⟩
    · exact absurd ((hl w hw).trans (hl w' hw').symm) hne
    · rfl

/-- A join is above the values that it joins. -/
theorem Joins.le (h : s.Joins p B k) {u : List Node} (hu : B u) : (s.value p u).le k := by
  rcases h with hall | ⟨rfl, -⟩
  · exact Kleene.le_of_eq (hall u hu)
  · exact Kleene.le_unknown _

theorem Joins.eq_of_agree (h : s.Joins p B k) {u : List Node} (hu : B u)
    (hagree : ∀ t, B t → s.value p t = s.value p u) : k = s.value p u := by
  rcases h with hsame | ⟨-, t, w, ht, hw, hne⟩
  · exact (hsame u hu).symm
  · exact absurd ((hagree t ht).trans (hagree w hw).symm) hne

/-- A join depends on the set of the tuples. -/
theorem Joins.congr {B' : List Node → Prop} (h : s.Joins p B k) (hB : ∀ u, B u ↔ B' u) :
    s.Joins p B' k := by
  rwa [← funext fun u => propext (hB u)]

end Joins

/-- Merging overlooks the tuples that are false.  The predicate is true at the others, and
they are at least as many as all merged tuples together when these are counted modulo
`2 ^ 64`. -/
structure Overlooks (s : Structure V) (rep : Node → Node) (p : PredId) (t : List Node) :
    Prop where
  /-- Every merged tuple has a definite value. -/
  definite : ∀ u ∈ s.fibre rep t, s.value p u ≠ .unknown
  /-- One of them is false. -/
  exists_ff : ∃ u ∈ s.fibre rep t, s.value p u = .ff
  /-- One of them is true. -/
  exists_tt : ∃ u ∈ s.fibre rep t, s.value p u = .tt
  /-- Their number wraps to at most the number of those that are true. -/
  wraps : (s.fibre rep t).length % 2 ^ 64 ≤
    ((s.fibre rep t).filter fun u => s.value p u = .tt).length

section Merged

variable {s : Structure V} {rep : Node → Node} {size : Node → Nat} {p : PredId} {t : List Node}

/-- Where values are definite, those that are not false are true. -/
theorem filter_ne_ff_eq (h : ∀ u ∈ s.fibre rep t, s.value p u ≠ .unknown) :
    ((s.fibre rep t).filter fun u => s.value p u ≠ .ff) =
      (s.fibre rep t).filter fun u => s.value p u = .tt := by
  refine List.filter_congr fun u hu => ?_
  have hdefinite := h u hu
  cases hval : s.value p u with
  | ff => rfl
  | tt => rfl
  | unknown => exact absurd hval hdefinite

/-- What is stored for an atom after merging, when `k` and `n` were gathered for it. -/
theorem getD_mergedValues_of_tally {k : Kleene} {n : Nat}
    (h : (s.gathered rep p t).foldl tally none = some (k, n)) :
    ((mergedValues rep size s.values).get? ⟨p, t⟩).getD .ff = settleMerged size ⟨p, t⟩ (k, n) := by
  rw [get?_mergedValues, get?_foldl_gather, SortedMap.get?_empty, ← gathered, h, Option.bind_some]
  split
  · rename_i hff
    rw [hff]
    rfl
  · rfl

/-- What is gathered for an atom is the join of the merged values that are not false, with
their number. -/
theorem Closed.gathered_cases (hs : s.Closed) (rep : Node → Node) (p : PredId) (t : List Node) :
    (s.gathered rep p t).foldl tally none = none ∧ (∀ u ∈ s.fibre rep t, s.value p u = .ff) ∨
      ∃ k, (s.gathered rep p t).foldl tally none =
          some (k, ((s.fibre rep t).filter fun u => s.value p u ≠ .ff).length) ∧
        s.Joins p (fun u => u ∈ s.fibre rep t ∧ s.value p u ≠ .ff) k ∧
        ∃ u ∈ s.fibre rep t, s.value p u ≠ .ff := by
  have hentry : ∀ u ∈ s.fibre rep t, s.value p u ≠ .ff →
      (⟨p, u⟩, s.value p u) ∈ s.gathered rep p t := fun u hu =>
    mem_gathered_of_ne_ff (mem_fibre.1 hu).2
  have hstored : ∀ e ∈ s.gathered rep p t,
      e.1.args ∈ s.fibre rep t ∧ s.value p e.1.args = e.2 ∧ e.2 ≠ .ff := by
    rintro ⟨⟨q, u⟩, l⟩ he
    obtain ⟨hget, rfl, hu⟩ := mem_gathered.1 he
    obtain ⟨hwithin, hl⟩ := hs _ _ hget
    exact ⟨mem_fibre.2 ⟨hwithin, hu⟩, by rw [value, hget, Option.getD_some], hl⟩
  rcases foldl_tally_none (s.gathered rep p t) with ⟨hnil, htally⟩ | ⟨hne, k, htally, hk⟩
  · refine .inl ⟨htally, fun u hu => ?_⟩
    by_contra hval
    have hmem := hentry u hu hval
    rw [hnil] at hmem
    cases hmem
  · obtain ⟨e, he⟩ := List.exists_mem_of_ne_nil _ hne
    obtain ⟨hw, hwval, hwff⟩ := hstored e he
    refine .inr ⟨k, htally.trans (by rw [hs.length_gathered]), ?_, e.1.args, hw, hwval ▸ hwff⟩
    by_cases hagree : ∀ d ∈ s.gathered rep p t, d.2 = e.2
    · rw [foldl_tally_const hne hagree, Option.some.injEq, Prod.mk.injEq] at htally
      exact .inl fun u hu => (hagree _ (hentry u hu.1 hu.2)).trans htally.1
    · push Not at hagree
      obtain ⟨d, hd, hdiffer⟩ := hagree
      obtain ⟨hu, huval, huff⟩ := hstored d hd
      refine .inr ⟨?_, _, _, ⟨hu, huval ▸ huff⟩, ⟨hw, hwval ▸ hwff⟩, huval ▸ hwval ▸ hdiffer⟩
      by_contra hdefinite
      exact hdiffer ((Kleene.eq_of_le (hk d hd) hdefinite).trans
        (Kleene.eq_of_le (hk e he) hdefinite).symm)

/-- Unknown joins a false tuple with one that is not. -/
theorem joins_unknown {u w : List Node} (hu : u ∈ s.fibre rep t) (huff : s.value p u = .ff)
    (hw : w ∈ s.fibre rep t) (hwff : s.value p w ≠ .ff) :
    s.Joins p (s.MergedInto rep t) .unknown :=
  .inr ⟨rfl, u, w, mem_fibre.1 hu, mem_fibre.1 hw, fun h => hwff (h ▸ huff)⟩

section Found

variable {k : Kleene}
  (hjoins : s.Joins p (fun u => u ∈ s.fibre rep t ∧ s.value p u ≠ .ff) k)
include hjoins

/-- Where no merged tuple is false, what was gathered joins them all. -/
theorem joins_of_forall_ne_ff (hall : ∀ u ∈ s.fibre rep t, s.value p u ≠ .ff) :
    s.Joins p (s.MergedInto rep t) k := by
  refine hjoins.congr fun u => ?_
  rw [mem_fibre]
  exact ⟨And.left, fun hu => ⟨hu, hall u (mem_fibre.2 hu)⟩⟩

variable {u w : List Node} (hu : u ∈ s.fibre rep t) (huff : s.value p u = .ff)
  (hw : w ∈ s.fibre rep t) (hwff : s.value p w ≠ .ff)
include hw hwff

/-- One that is not false keeps it from being false. -/
theorem ne_ff_of_gathered : k ≠ .ff := Kleene.ne_ff_of_le (hjoins.le ⟨hw, hwff⟩) hwff

include hu huff

/-- Where the count does not see a false tuple, the value that was gathered stays.  That
overlooks the tuple, unless the value is unknown anyway. -/
theorem overlooks_or_joins (hwraps : (s.fibre rep t).length % 2 ^ 64 ≤
      ((s.fibre rep t).filter fun u => s.value p u ≠ .ff).length) :
    s.Overlooks rep p t ∧ k = .tt ∨ ¬ s.Overlooks rep p t ∧ s.Joins p (s.MergedInto rep t) k := by
  rcases Kleene.eq_unknown_or_tt (ne_ff_of_gathered hjoins hw hwff) with rfl | rfl
  · refine .inr ⟨fun h => ?_, joins_unknown hu huff hw hwff⟩
    have htt : ∀ u, u ∈ s.fibre rep t ∧ s.value p u ≠ .ff → s.value p u = .tt := fun u hu =>
      (Kleene.eq_unknown_or_tt hu.2).resolve_left (h.definite u hu.1)
    have heq := hjoins.eq_of_agree ⟨hw, hwff⟩ fun u hu =>
      (htt u hu).trans (htt w ⟨hw, hwff⟩).symm
    rw [htt w ⟨hw, hwff⟩] at heq
    cases heq
  · have hdefinite : ∀ u ∈ s.fibre rep t, s.value p u ≠ .unknown := by
      intro u hu hunknown
      have hle := hjoins.le ⟨hu, by rw [hunknown]; decide⟩
      rw [hunknown] at hle
      cases hle
    rw [filter_ne_ff_eq hdefinite] at hwraps
    have htt : s.value p w = .tt := Kleene.eq_of_le (hjoins.le ⟨hw, hwff⟩) (by decide)
    exact .inl ⟨⟨hdefinite, ⟨u, hu, huff⟩, ⟨w, hw, htt⟩, hwraps⟩, rfl⟩

end Found

/-- Merging joins the values at the tuples that are merged, or it overlooks those that are
false. -/
theorem Closed.merged_cases (hs : s.Closed) (hsize : s.Sizes rep size)
    (ht : ∃ u, s.MergedInto rep t u) :
    s.Overlooks rep p t ∧ ((mergedValues rep size s.values).get? ⟨p, t⟩).getD .ff = .tt ∨
      ¬ s.Overlooks rep p t ∧ s.Joins p (s.MergedInto rep t)
        (((mergedValues rep size s.values).get? ⟨p, t⟩).getD .ff) := by
  obtain ⟨u₀, hu₀⟩ := ht
  rcases hs.gathered_cases rep p t with
    ⟨htally, hff⟩ | ⟨k, htally, hjoins, w, hw, hwff⟩
  · -- Every merged tuple is false.
    refine .inr ⟨fun h => ?_, .inl fun u hu => ?_⟩
    · obtain ⟨u, hu, htt⟩ := h.exists_tt
      rw [hff u hu] at htt
      cases htt
    · rw [hff u (mem_fibre.2 hu), get?_mergedValues, get?_foldl_gather, SortedMap.get?_empty,
        ← gathered, htally]
      rfl
  · rw [getD_mergedValues_of_tally htally, settleMerged, hsize.toNat_coverage p hu₀]
    by_cases hff : ∃ u ∈ s.fibre rep t, s.value p u = .ff
    · obtain ⟨u, hu, huff⟩ := hff
      split
      · -- The count sees that a tuple is missing.
        rename_i hlt
        rw [Kleene.join_ff (ne_ff_of_gathered hjoins hw hwff)]
        refine .inr ⟨fun h => ?_, joins_unknown hu huff hw hwff⟩
        have hwraps := h.wraps
        rw [← filter_ne_ff_eq h.definite] at hwraps
        exact absurd hlt (Nat.not_lt.2 hwraps)
      · exact overlooks_or_joins hjoins hu huff hw hwff (Nat.not_lt.1 ‹_›)
    · -- No tuple is missing, and the count does not exceed the number of values.
      have hall : ∀ u ∈ s.fibre rep t, s.value p u ≠ .ff := fun u hu h => hff ⟨u, hu, h⟩
      have hfull : ((s.fibre rep t).filter fun u => s.value p u ≠ .ff) = s.fibre rep t :=
        List.filter_eq_self.2 fun u hu => by simpa using hall u hu
      rw [if_neg (by rw [hfull]; exact Nat.not_lt.2 (Nat.mod_le _ _))]
      exact .inr ⟨fun h => hff h.exists_ff, joins_of_forall_ne_ff hjoins hall⟩

theorem Closed.joins_merged (hs : s.Closed) (hnot : ¬ s.Overlooks rep p t)
    (hsize : s.Sizes rep size) (ht : ∃ u, s.MergedInto rep t u) :
    s.Joins p (s.MergedInto rep t) (((mergedValues rep size s.values).get? ⟨p, t⟩).getD .ff) :=
  ((hs.merged_cases hsize ht).resolve_left fun h => hnot h.1).2

end Merged

/-! ## When nothing is overlooked -/

section Overlooks

variable {s : Structure V} {rep : Node → Node} {p : PredId} {t : List Node}

/-- Where all merged tuples have one value, none is overlooked. -/
theorem not_overlooks_of_agree {k : Kleene} (h : ∀ u, s.MergedInto rep t u → s.value p u = k) :
    ¬ s.Overlooks rep p t := by
  intro hover
  obtain ⟨u, hu, hff⟩ := hover.exists_ff
  obtain ⟨w, hw, htt⟩ := hover.exists_tt
  rw [h u (mem_fibre.1 hu)] at hff
  rw [h w (mem_fibre.1 hw), hff] at htt
  cases htt

end Overlooks

end Structure

end ShapeAnalysis
