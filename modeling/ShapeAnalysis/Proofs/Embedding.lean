import Mathlib.Tactic.Choose
import ShapeAnalysis.Proofs.Semantics
import ShapeAnalysis.Proofs.Structure

/-!
# Embeddings of structures

An *embedding* maps the nodes of one structure onto the nodes of another so that
values only lose precision and nodes are identified only on summary nodes.  The
second structure then describes the first one.  A *concrete* structure, without
unknown values and summary nodes, stands for one configuration, and a structure
describes the configurations that embed in it.

Embeddings compose.  An assignment to the nodes of the target lifts along an
embedding, and the nodes of a tuple can be prescribed as long as variables that
occur twice get one node (`Embedding.exists_lift`).

The main result is that evaluation follows embeddings: a formula is at least as
precise in the first structure as in the second (`Embedding.denote_le`).
-/

namespace ShapeAnalysis

namespace Structure

variable {V : Vocabulary}

/-! ## Tuples -/

theorem mem_tuples {nodes : List Node} {n : Nat} {t : List Node} :
    t ∈ tuples nodes n ↔ t.length = n ∧ ∀ m ∈ t, m ∈ nodes := by
  induction n generalizing t with
  | zero =>
    simp only [tuples, List.mem_singleton, List.length_eq_zero_iff]
    refine ⟨fun h => ⟨h, by simp [h]⟩, And.left⟩
  | succ n ih =>
    simp only [tuples, List.mem_flatMap, List.mem_map, ih]
    constructor
    · rintro ⟨u, hu, t', ⟨hlen, hmem⟩, rfl⟩
      refine ⟨by simp [hlen], fun m hm => ?_⟩
      rcases List.mem_cons.1 hm with rfl | hm
      · exact hu
      · exact hmem m hm
    · rintro ⟨hlen, hmem⟩
      cases t with
      | nil => simp at hlen
      | cons u t' =>
        exact ⟨u, hmem u List.mem_cons_self, t',
          ⟨by simpa using hlen, fun m hm => hmem m (List.mem_cons_of_mem _ hm)⟩, rfl⟩

theorem length_tuples (nodes : List Node) (n : Nat) :
    (tuples nodes n).length = nodes.length ^ n := by
  induction n with
  | zero => rfl
  | succ n ih => simp [tuples, List.length_flatMap, ih, Nat.pow_succ, Nat.mul_comm]

theorem nodup_tuples {nodes : List Node} (h : nodes.Nodup) (n : Nat) : (tuples nodes n).Nodup := by
  induction n with
  | zero => simp [tuples]
  | succ n ih =>
    rw [tuples, List.nodup_flatMap]
    refine ⟨fun u _ => ih.map fun _ _ heq => (List.cons.inj heq).2, h.imp ?_⟩
    intro u w hne
    simp only [Function.onFun, List.disjoint_left, List.mem_map, not_exists, not_and]
    rintro _ ⟨t, -, rfl⟩ t' - heq
    exact hne (List.cons.inj heq).1.symm

/-! ## Embeddings -/

/-- The map `f` embeds `s` in `t`. -/
structure Embedding (f : Node → Node) (s t : Structure V) : Prop where
  /-- Nodes go to nodes. -/
  maps : ∀ n ∈ s.nodes.toList, f n ∈ t.nodes
  /-- Every node is reached. -/
  onto : ∀ m ∈ t.nodes.toList, ∃ n ∈ s.nodes.toList, f n = m
  /-- Values only lose precision. -/
  value_le : ∀ p u, s.Admits ⟨p, u⟩ → (s.value p u).le (t.value p (u.map f))
  /-- Only summary nodes stand for several nodes. -/
  summary : ∀ m ∈ s.nodes.toList, ∀ n ∈ s.nodes.toList, m ≠ n → f m = f n → t.isSummary (f m)

/-- Some map embeds `s` in `t`. -/
def Embeds (s t : Structure V) : Prop := ∃ f, Embedding f s t

instance (f : Node → Node) (s t : Structure V) : Decidable (Embedding f s t) :=
  decidable_of_iff
    ((∀ n ∈ s.nodes.toList, f n ∈ t.nodes) ∧
      (∀ m ∈ t.nodes.toList, ∃ n ∈ s.nodes.toList, f n = m) ∧
      (∀ p ∈ List.range V.size, ∀ u ∈ tuples s.nodes.toList (V.arity p),
        (s.value p u).le (t.value p (u.map f))) ∧
      ∀ m ∈ s.nodes.toList, ∀ n ∈ s.nodes.toList, m ≠ n → f m = f n → t.isSummary (f m))
    ⟨fun ⟨hmaps, honto, hle, hsum⟩ =>
      ⟨hmaps, honto, fun p u h => hle p (List.mem_range.2 h.1) u (mem_tuples.2 h.2), hsum⟩,
     fun h => ⟨h.maps, h.onto,
      fun p hp u hu => h.value_le p u ⟨List.mem_range.1 hp, mem_tuples.1 hu⟩, h.summary⟩⟩

theorem admits_of_isReserved {s : Structure V} {p : PredId} (hp : Vocabulary.isReserved p)
    {n : Node} (hn : n ∈ s.nodes) : s.Admits ⟨p, [n]⟩ :=
  ⟨V.lt_size_of_isReserved hp, (V.arity_of_isReserved hp).symm, by simpa using hn⟩

section

variable {f : Node → Node} {s t : Structure V}

/-- In well-formed structures values lose precision at tuples of any length. -/
theorem Embedding.le (hf : Embedding f s t) (hs : s.WellFormed) (ht : t.WellFormed) (p : PredId)
    {u : List Node} (hu : ∀ n ∈ u, n ∈ s.nodes) : (s.value p u).le (t.value p (u.map f)) := by
  by_cases hfit : p < V.size ∧ u.length = V.arity p
  · exact hf.value_le p u ⟨hfit.1, hfit.2, hu⟩
  · -- The tuple fits neither side, so both values are false.
    have hleft : s.value p u = .ff := hs.value_eq_ff fun hadm => hfit ⟨hadm.1, hadm.2.1⟩
    have hright : t.value p (u.map f) = .ff :=
      ht.value_eq_ff fun hadm => hfit ⟨hadm.1, by simpa using hadm.2.1⟩
    rw [hleft, hright]
    exact Kleene.le_refl _

/-- Summary nodes go to summary nodes. -/
theorem Embedding.isSummary (hf : Embedding f s t) {n : Node} (hn : n ∈ s.nodes)
    (h : s.isSummary n) : t.isSummary (f n) := by
  have hle := hf.value_le Vocabulary.sm [n] (admits_of_isReserved rfl hn)
  have hsm : s.value Vocabulary.sm [n] = .unknown := by simpa [Structure.isSummary] using h
  rw [hsm] at hle
  simpa [Structure.isSummary] using Kleene.eq_unknown_of_le hle

/-- Two nodes behind a node that is no summary node are equal. -/
theorem Embedding.eq_of_not_isSummary (hf : Embedding f s t) {m n : Node} (hm : m ∈ s.nodes)
    (hn : n ∈ s.nodes) (h : f m = f n) (hsum : ¬ t.isSummary (f m)) : m = n := by
  by_contra hne
  exact hsum (hf.summary m hm n hn hne h)

theorem Embedding.tuple_eq_of_not_isSummary (hf : Embedding f s t) {u w : List Node}
    (hu : ∀ n ∈ u, n ∈ s.nodes) (hw : ∀ n ∈ w, n ∈ s.nodes) (h : u.map f = w.map f)
    (hsum : ∀ n ∈ u, ¬ t.isSummary (f n)) : u = w := by
  induction u generalizing w with
  | nil => exact (List.map_eq_nil_iff.1 h.symm).symm
  | cons m u ih =>
    cases w with
    | nil => cases h
    | cons n w =>
      simp only [List.map_cons, List.cons.injEq] at h
      simp only [List.forall_mem_cons] at hu hw hsum
      rw [hf.eq_of_not_isSummary hu.1 hw.1 h.1 hsum.1, ih hu.2 hw.2 h.2 hsum.2]

/-- A tuple of images is the image of a tuple. -/
theorem exists_tuple_of_forall {ns : SortedSet Node} {w : List Node}
    (hw : ∀ m ∈ w, ∃ n ∈ ns, f n = m) : ∃ u : List Node, (∀ n ∈ u, n ∈ ns) ∧ u.map f = w := by
  induction w with
  | nil => exact ⟨[], by simp, rfl⟩
  | cons m rest ih =>
    obtain ⟨n, hn, hnm⟩ := hw m List.mem_cons_self
    obtain ⟨u, hu, huw⟩ := ih fun m' hm' => hw m' (List.mem_cons_of_mem _ hm')
    refine ⟨n :: u, fun n' hn' => ?_, by rw [List.map_cons, hnm, huw]⟩
    rcases List.mem_cons.1 hn' with rfl | hn'
    · exact hn
    · exact hu n' hn'

/-- Every tuple of the target is the image of a tuple. -/
theorem Embedding.exists_tuple (hf : Embedding f s t) {w : List Node} (hw : ∀ m ∈ w, m ∈ t.nodes) :
    ∃ u : List Node, (∀ n ∈ u, n ∈ s.nodes) ∧ u.map f = w :=
  exists_tuple_of_forall fun m hm => hf.onto m (hw m hm)

theorem Embedding.comp {r : Structure V} {g : Node → Node} (hg : Embedding g s t)
    (hf : Embedding f r s) : Embedding (g ∘ f) r t where
  maps n hn := hg.maps _ (hf.maps n hn)
  onto m hm := by
    obtain ⟨k, hk, hkm⟩ := hg.onto m hm
    obtain ⟨n, hn, hnk⟩ := hf.onto k hk
    exact ⟨n, hn, by rw [Function.comp_apply, hnk, hkm]⟩
  value_le p u hu := by
    have hadm : s.Admits ⟨p, u.map f⟩ := by
      refine ⟨hu.1, by simpa using hu.2.1, fun m hm => ?_⟩
      obtain ⟨n, hn, rfl⟩ := List.mem_map.1 hm
      exact hf.maps n (hu.2.2 n hn)
    rw [← List.map_map]
    exact Kleene.le_trans (hf.value_le p u hu) (hg.value_le p _ hadm)
  summary m hm n hn hne heq := by
    by_cases hmid : f m = f n
    · exact hg.isSummary (hf.maps m hm) (hf.summary m hm n hn hne hmid)
    · exact hg.summary _ (hf.maps m hm) _ (hf.maps n hn) hmid heq

theorem Embeds.trans {r : Structure V} (h₁ : Embeds r s) (h₂ : Embeds s t) : Embeds r t := by
  obtain ⟨f, hf⟩ := h₁
  obtain ⟨g, hg⟩ := h₂
  exact ⟨g ∘ f, hg.comp hf⟩

/-- A structure with the same nodes and values at least as precise embeds by the
identity. -/
theorem Embedding.of_value_le (hnodes : ∀ n, n ∈ s.nodes ↔ n ∈ t.nodes)
    (hle : ∀ p u, s.Admits ⟨p, u⟩ → (s.value p u).le (t.value p u)) : Embedding id s t where
  maps n hn := (hnodes n).1 hn
  onto m hm := ⟨m, (hnodes m).2 hm, rfl⟩
  value_le p u hu := by simpa using hle p u hu
  summary m _ n _ hne heq := absurd heq hne

theorem Embedding.refl (s : Structure V) : Embedding id s s :=
  .of_value_le (fun _ => Iff.rfl) fun _ _ _ => Kleene.le_refl _

/-- Setting a value in the target keeps an embedding when the values behind the
tuple are below the new one. -/
theorem Embedding.set (hf : Embedding f s t) {p : PredId} (hp : p ≠ Vocabulary.sm)
    {w : List Node} {k : Kleene}
    (h : ∀ u : List Node, (∀ n ∈ u, n ∈ s.nodes) → u.map f = w → (s.value p u).le k) :
    Embedding f s (t.set p w k) where
  maps := hf.maps
  onto := hf.onto
  value_le q u hu := by
    rw [value_set]
    split
    · rename_i heq
      rw [heq.1]
      exact h u hu.2.2 heq.2
    · exact hf.value_le q u hu
  summary m hm n hn hne heq := by
    rw [isSummary_set hp]
    exact hf.summary m hm n hn hne heq

/-- Sharpening one value gives a structure that embeds in the old one. -/
theorem Embedding.set_id {p : PredId} {w : List Node} {k : Kleene} (h : k.le (s.value p w)) :
    Embedding id (s.set p w k) s := by
  refine .of_value_le (fun _ => Iff.rfl) fun q u _ => ?_
  rw [value_set]
  split
  · rename_i heq
    rw [heq.1, heq.2]
    exact h
  · exact Kleene.le_refl _

/-! ## Lifting assignments -/

theorem Embedding.assigns_map (hf : Embedding f s t) {a : Assignment} {vars : List Var}
    (ha : a.Assigns vars s.nodes) : (a.map f).Assigns vars t.nodes :=
  ha.mapWith fun v n hn => hf.maps n (ha.within v n hn)

/-- An assignment to the target comes from an assignment to the source, with
prescribed nodes at some variables.  A variable that occurs twice among them
needs one node. -/
theorem Embedding.exists_lift (hf : Embedding f s t) {a : Assignment} {vars : List Var}
    (ha : a.Assigns vars t.nodes) {ws : List Var} {u : List Node} (hu : ∀ n ∈ u, n ∈ s.nodes)
    (hws : a.tuple? ws = some (u.map f))
    (hfun : ∀ v m n, (v, m) ∈ ws.zip u → (v, n) ∈ ws.zip u → m = n) :
    ∃ b : Assignment, b.Assigns vars s.nodes ∧ b.map f = a ∧ b.tuple? ws = some u := by
  obtain ⟨hlen, hzip⟩ := Assignment.tuple?_eq_some_iff_zip.1 hws
  have hat : ∀ v n, (v, n) ∈ ws.zip u → a.get? v = some (f n) := by
    intro v n hn
    refine hzip v (f n) ?_
    rw [List.zip_map_right]
    exact List.mem_map.2 ⟨(v, n), hn, rfl⟩
  -- The node of a variable is the prescribed one, or else any node behind.
  have hpick : ∀ v m, a.get? v = some m →
      ∃ n, n ∈ s.nodes ∧ f n = m ∧ ∀ n', (v, n') ∈ ws.zip u → n' = n := by
    intro v m hm
    by_cases hv : ∃ n, (v, n) ∈ ws.zip u
    · obtain ⟨n, hn⟩ := hv
      refine ⟨n, hu n (List.of_mem_zip hn).2, ?_, fun n' hn' => hfun v n' n hn' hn⟩
      have h := hat v n hn
      rw [hm] at h
      exact (Option.some.inj h).symm
    · obtain ⟨n, hn, hnm⟩ := hf.onto m (ha.within v m hm)
      exact ⟨n, hn, hnm, fun n' hn' => absurd ⟨n', hn'⟩ hv⟩
  choose! g hg using hpick
  refine ⟨a.mapWith g, ha.mapWith fun v m hm => (hg v m hm).1, ?_, ?_⟩
  · apply Assignment.ext_get?
    intro v
    cases hv : a.get? v with
    | none => simp [hv]
    | some m => simp [hv, (hg v m hv).2.1]
  · refine Assignment.tuple?_eq_some_iff_zip.2 ⟨by simpa using hlen, fun v n hn => ?_⟩
    have h := hat v n hn
    rw [Assignment.get?_mapWith, h, Option.map_some, ← (hg v _ h).2.2 n hn]

theorem Embedding.exists_assigns (hf : Embedding f s t) {a : Assignment} {vars : List Var}
    (ha : a.Assigns vars t.nodes) : ∃ b : Assignment, b.Assigns vars s.nodes ∧ b.map f = a := by
  have hnil : a.tuple? [] = some (([] : List Node).map f) := rfl
  obtain ⟨b, hb, hba, -⟩ := hf.exists_lift ha (u := []) (by simp) hnil (by simp)
  exact ⟨b, hb, hba⟩

/-! ## Evaluation follows embeddings -/

/-- Values that follow the embedding node by node have partners on both sides. -/
theorem Embedding.partners (hf : Embedding f s t) {x y : Node → Kleene}
    (h : ∀ n ∈ s.nodes, (x n).le (y (f n))) :
    (∀ k ∈ s.nodes.toList.map x, ∃ l ∈ t.nodes.toList.map y, k.le l) ∧
      ∀ l ∈ t.nodes.toList.map y, ∃ k ∈ s.nodes.toList.map x, k.le l := by
  constructor
  · intro k hk
    obtain ⟨n, hn, rfl⟩ := List.mem_map.1 hk
    exact ⟨y (f n), List.mem_map_of_mem (hf.maps n hn), h n hn⟩
  · intro l hl
    obtain ⟨m, hm, rfl⟩ := List.mem_map.1 hl
    obtain ⟨n, hn, rfl⟩ := hf.onto m hm
    exact ⟨x n, List.mem_map_of_mem hn, h n hn⟩

/-- The value of a formula only loses precision along an embedding, where values
do so at tuples of any length.  The induction is on the formula, for all
assignments at once, since quantifiers bind their variable to every node. -/
theorem Embedding.denote_le_of_le (hf : Embedding f s t)
    (hle : ∀ p {u}, (∀ n ∈ u, n ∈ s.nodes) → (s.value p u).le (t.value p (u.map f)))
    (φ : Formula PredId) {a : Assignment} (ha : a.Within s.nodes) :
    (s.denote φ a).le (t.denote φ (a.map f)) := by
  induction φ generalizing a with
  | const k => exact Kleene.le_refl k
  | atom p vars =>
    simp only [denote, atomValue, Assignment.tuple?_map]
    cases hvars : a.tuple? vars with
    | none => exact Kleene.le_refl _
    | some u => exact hle p (ha.of_mem_tuple? hvars)
  | eq v w =>
    simp only [denote, equal, Assignment.get?_map]
    cases hv : a.get? v with
    | none => exact Kleene.le_refl _
    | some m =>
      cases hw : a.get? w with
      | none => exact Kleene.le_refl _
      | some n =>
        have hm := ha v m hv
        have hn := ha w n hw
        simp only [Option.map_some]
        by_cases hmn : m = n
        · subst hmn
          simp only [ne_eq, not_true_eq_false, if_false]
          split
          · rename_i hsum
            rw [if_pos (hf.isSummary hm hsum)]
            exact Kleene.le_refl _
          · split
            · exact Kleene.le_unknown _
            · exact Kleene.le_refl _
        · rw [if_pos hmn]
          by_cases himage : f m = f n
          · -- Different nodes meet only on a summary node.
            rw [if_neg (not_not.2 himage), if_pos (hf.summary m hm n hn hmn himage)]
            exact Kleene.le_unknown _
          · rw [if_pos himage]
            exact Kleene.le_refl _
  | neg φ ih => exact Kleene.not_le_not (ih ha)
  | and φ ψ ihφ ihψ => exact Kleene.and_le_and (ihφ ha) (ihψ ha)
  | or φ ψ ihφ ihψ => exact Kleene.or_le_or (ihφ ha) (ihψ ha)
  | imp φ ψ ihφ ihψ => exact Kleene.implies_le_implies (ihφ ha) (ihψ ha)
  | ex v φ ih =>
    have hbody := fun n (hn : n ∈ s.nodes) => ih (ha.bind v hn)
    simp only [Assignment.map_bind] at hbody
    obtain ⟨hfwd, hbwd⟩ := hf.partners (y := fun m => t.denote φ ((a.map f).bind v m)) hbody
    exact Kleene.foldl_or_le_foldl_or hfwd hbwd
  | all v φ ih =>
    have hbody := fun n (hn : n ∈ s.nodes) => ih (ha.bind v hn)
    simp only [Assignment.map_bind] at hbody
    obtain ⟨hfwd, hbwd⟩ := hf.partners (y := fun m => t.denote φ ((a.map f).bind v m)) hbody
    exact Kleene.foldl_and_le_foldl_and hfwd hbwd

/-- What is true is true behind. -/
theorem Embedding.eval_eq_tt (hf : Embedding f s t)
    (hle : ∀ p {u}, (∀ n ∈ u, n ∈ s.nodes) → (s.value p u).le (t.value p (u.map f)))
    {φ : Formula PredId} {a : Assignment} (ha : a.Within s.nodes)
    (h : t.eval φ (a.map f) = .tt) : s.eval φ a = .tt := by
  rw [eval_eq_denote] at h ⊢
  have hbehind := hf.denote_le_of_le hle φ ha
  rw [h] at hbehind
  exact Kleene.eq_of_le hbehind (by decide)

/-- What is not false behind is not false. -/
theorem Embedding.eval_ne_ff (hf : Embedding f s t)
    (hle : ∀ p {u}, (∀ n ∈ u, n ∈ s.nodes) → (s.value p u).le (t.value p (u.map f)))
    {φ : Formula PredId} {a : Assignment} (ha : a.Within s.nodes) (h : s.eval φ a ≠ .ff) :
    t.eval φ (a.map f) ≠ .ff := by
  rw [eval_eq_denote] at h ⊢
  exact Kleene.ne_ff_of_le (hf.denote_le_of_le hle φ ha) h

theorem Embedding.denote_le (hf : Embedding f s t) (hs : s.WellFormed) (ht : t.WellFormed)
    (φ : Formula PredId) {a : Assignment} (ha : a.Within s.nodes) :
    (s.denote φ a).le (t.denote φ (a.map f)) :=
  hf.denote_le_of_le (hf.le hs ht) φ ha

/-- Evaluation only loses precision along an embedding, for every formula and
every assignment to nodes. -/
theorem eval_le_eval_map (hs : s.WellFormed) (ht : t.WellFormed) (hf : Embedding f s t)
    (φ : Formula PredId) {a : Assignment} (ha : a.Within s.nodes) :
    (s.eval φ a).le (t.eval φ (a.map f)) := by
  rw [eval_eq_denote, eval_eq_denote]
  exact hf.denote_le hs ht φ ha

end

/-! ## Configurations -/

/-- The structure stands for one configuration. -/
structure Concrete (s : Structure V) : Prop extends s.WellFormed where
  /-- No value is unknown. -/
  definite : ∀ e ∈ s.values.entries, e.2 ≠ .unknown
  /-- Every node is one node. -/
  single : ∀ n ∈ s.nodes.toList, s.value Vocabulary.sm [n] = .ff

instance (s : Structure V) : Decidable s.Concrete :=
  decidable_of_iff
    (s.WellFormed ∧ (∀ e ∈ s.values.entries, e.2 ≠ .unknown) ∧
      ∀ n ∈ s.nodes.toList, s.value Vocabulary.sm [n] = .ff)
    ⟨fun h => ⟨h.1, h.2.1, h.2.2⟩, fun h => ⟨h.toWellFormed, h.definite, h.single⟩⟩

theorem Concrete.value_ne_unknown {s : Structure V} (hs : s.Concrete) (p : PredId)
    (t : List Node) : s.value p t ≠ .unknown := by
  intro h
  have hne : s.value p t ≠ .ff := by simp [h]
  exact hs.definite _ (SortedMap.mem_entries.2 (get?_of_value_ne_ff hne)) h

theorem Concrete.eq_tt_of_ne_ff {s : Structure V} (hs : s.Concrete) {p : PredId} {t : List Node}
    (h : s.value p t ≠ .ff) : s.value p t = .tt := by
  cases hval : s.value p t with
  | ff => exact absurd hval h
  | unknown => exact absurd hval (hs.value_ne_unknown p t)
  | tt => rfl

theorem Concrete.eq_ff_of_ne_tt {s : Structure V} (hs : s.Concrete) {p : PredId} {t : List Node}
    (h : s.value p t ≠ .tt) : s.value p t = .ff := by
  cases hval : s.value p t with
  | ff => rfl
  | unknown => exact absurd hval (hs.value_ne_unknown p t)
  | tt => exact absurd hval h

/-! ## Lists of cells

A program variable `x` and a field `n` make the smallest vocabulary on which the
results of this library can be seen at work. -/

/-- A variable `x` and a field `n`, at the positions 6 and 7. -/
def cellVocabulary : Vocabulary := ⟨[⟨"x", 1, true⟩, ⟨"n", 2, false⟩]⟩

/-- A cell that `x` points to, and one behind it. -/
def twoCells : Structure cellVocabulary := ((newNodes 2 {}).set 6 [0] .tt).set 7 [0, 1] .tt

/-- Any number of cells, linked in any way. -/
def anyCells : Structure cellVocabulary :=
  (((newNodes 1 {}).set Vocabulary.sm [0] .unknown).set 6 [0] .unknown).set 7 [0, 0] .unknown

/-- That a cell has another one behind it is true of two cells and unknown of
any number of them. -/
theorem eval_le_eval_map_cells :
    twoCells.WellFormed ∧ anyCells.WellFormed ∧ Embedding (fun _ => 0) twoCells anyCells ∧
      (twoCells.eval (.ex 1 (.and (.atom 7 [0, 1]) (.neg (.eq 0 1))))
          (Assignment.empty.bind 0 0)).le
        (anyCells.eval (.ex 1 (.and (.atom 7 [0, 1]) (.neg (.eq 0 1))))
          ((Assignment.empty.bind 0 0).map fun _ => 0)) :=
  ⟨by decide, by decide, by decide,
    eval_le_eval_map (by decide) (by decide) (by decide) _
      ((Assignment.within_empty _).bind 0 (by decide))⟩

end Structure

end ShapeAnalysis
