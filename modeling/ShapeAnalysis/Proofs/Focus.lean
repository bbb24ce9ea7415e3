import ShapeAnalysis.Structure.Focus
import ShapeAnalysis.Proofs.Duplicate
import ShapeAnalysis.Proofs.FreeVars

/-!
# Focus is a case analysis

Splitting a structure at an unknown value gives its *cases*.  A case embeds in
the structure it comes from, and the embedding takes only summary nodes to
summary nodes, so a formula that was settled stays settled in every case.  The
cases of a split are exhaustive: a configuration embeds in one of them.  This
is where a summary node has to be divided, since the predicate may hold of some
of the nodes behind it and fail on others.  The division copies the node with masks,
so both facts need at most 31 places at every predicate; that a case is well formed
does not.

Every split leaves one unknown atom less (`unknownCount_lt`), so the count of
unknown atoms bounds the depth of the case analysis and a larger bound changes
nothing.
-/

namespace ShapeAnalysis

namespace Structure

variable {V : Vocabulary}

/-! ## Settled atoms -/

/-- The predicate is definite wherever the structure could be split on it. -/
def Settled (s : Structure V) (p : PredId) (vars : List Var) : Prop :=
  ∀ a : Assignment, a.Assigns vars s.nodes → ∀ t, a.tuple? vars = some t →
    s.splittable t → s.value p t ≠ .unknown

theorem mem_unknownTuples {s : Structure V} {p : PredId} {vars : List Var} {t : List Node} :
    (t ∈ (s.solutions (.atom p vars) .empty).filterMap fun (a, k) =>
        if k = .unknown then a.tuple? vars else none) ↔
      ∃ a : Assignment, a.Assigns vars s.nodes ∧ a.tuple? vars = some t ∧
        s.value p t = .unknown := by
  have hvars : ∀ v, v ∈ (Formula.atom p vars).freeVars ↔ v ∈ vars := fun v =>
    Formula.mem_freeVars
  have hfree : ∀ a : Assignment,
      a.Assigns (Formula.atom p vars).freeVars s.nodes ↔ a.Assigns vars s.nodes := fun a =>
    ⟨fun h => ⟨h.within, fun v => (h.bound v).trans (hvars v)⟩,
     fun h => ⟨h.within, fun v => (h.bound v).trans (hvars v).symm⟩⟩
  rw [List.mem_filterMap]
  constructor
  · rintro ⟨⟨a, k⟩, hmem, ht⟩
    obtain ⟨ha, hval, -⟩ := mem_solutions.1 hmem
    dsimp only at ht
    split at ht
    · rename_i hk
      exact ⟨a, (hfree a).1 ha, ht, by rw [← denote_atom ht, hval, hk]⟩
    · cases ht
  · rintro ⟨a, ha, ht, hval⟩
    refine ⟨(a, .unknown), mem_solutions.2 ⟨(hfree a).2 ha, ?_, by decide⟩, by simp [ht]⟩
    rw [denote_atom ht, hval]

theorem settled_of_unsettled?_eq_none {s : Structure V} {p : PredId} {vars : List Var}
    (h : s.unsettled? p vars = none) : s.Settled p vars := by
  intro a ha t ht hsplit hval
  have hnot := List.find?_eq_none.1 h t (mem_unknownTuples.2 ⟨a, ha, ht, hval⟩)
  exact hnot hsplit

/-- Where the structure has to be split, the value is unknown. -/
theorem unsettled?_eq_some {s : Structure V} {p : PredId} {vars : List Var} {t : List Node}
    (h : s.unsettled? p vars = some t) :
    s.value p t = .unknown ∧ s.splittable t ∧ t.length = vars.length := by
  obtain ⟨a, -, ht, hval⟩ := mem_unknownTuples.1 (List.mem_of_find?_eq_some h)
  exact ⟨hval, List.find?_some h, Assignment.length_of_tuple? ht⟩

/-- A tuple with a summary node splits only when it is that node. -/
theorem exists_summary_of_splittable {s : Structure V} {t : List Node} (hsplit : s.splittable t)
    (hsum : ∃ m ∈ t, s.isSummary m) : ∃ m, t = [m] ∧ s.isSummary m := by
  obtain ⟨m, hm, hms⟩ := hsum
  simp only [splittable, Bool.or_eq_true, decide_eq_true_eq, List.all_eq_true,
    Bool.not_eq_true'] at hsplit
  rcases hsplit with hlen | hall
  · obtain ⟨k, rfl⟩ := List.length_eq_one_iff.1 hlen
    exact ⟨k, rfl, List.mem_singleton.1 hm ▸ hms⟩
  · rw [hall m hm] at hms
    cases hms

/-! ## Cases -/

/-- The structure `r` describes a part of what `s` describes, with the same
constraints, and summary nodes of `s` come from summary nodes only. -/
structure CaseOf (r s : Structure V) : Prop where
  /-- A case is well formed. -/
  wellFormed : r.WellFormed
  /-- It has the same constraints. -/
  constraints : r.constraints = s.constraints
  /-- It embeds, and its other nodes go to other nodes, as long as masks copy every tuple. -/
  embedding : (∀ p < V.size, V.arity p ≤ 31) →
    ∃ e, Embedding e r s ∧ ∀ n ∈ r.nodes, s.isSummary (e n) → r.isSummary n

theorem CaseOf.refl {s : Structure V} (hs : s.WellFormed) : s.CaseOf s :=
  ⟨hs, rfl, fun _ => ⟨id, Embedding.refl s, fun _ _ h => h⟩⟩

theorem CaseOf.trans {q r s : Structure V} (h₁ : q.CaseOf r) (h₂ : r.CaseOf s) : q.CaseOf s := by
  refine ⟨h₁.wellFormed, h₁.constraints.trans h₂.constraints, fun harity => ?_⟩
  obtain ⟨d, hd, hdsum⟩ := h₁.embedding harity
  obtain ⟨e, he, hesum⟩ := h₂.embedding harity
  exact ⟨e ∘ d, he.comp hd, fun n hn h => hdsum n hn (hesum (d n) (hd.maps n hn) h)⟩

theorem CaseOf.embeds {r s : Structure V} (h : r.CaseOf s)
    (harity : ∀ p < V.size, V.arity p ≤ 31) : r.Embeds s := by
  obtain ⟨e, he, -⟩ := h.embedding harity
  exact ⟨e, he⟩

/-- What is settled stays settled in every case. -/
theorem CaseOf.settled {r s : Structure V} (h : r.CaseOf s) (hs : s.WellFormed)
    (harity : ∀ p < V.size, V.arity p ≤ 31) {p : PredId} {vars : List Var}
    (hset : s.Settled p vars) : r.Settled p vars := by
  obtain ⟨e, he, hsum⟩ := h.embedding harity
  intro a ha t ht hsplit hval
  have hmem := ha.within.of_mem_tuple? ht
  have ht' : (a.map e).tuple? vars = some (t.map e) := by
    rw [Assignment.tuple?_map, ht, Option.map_some]
  have hsplit' : s.splittable (t.map e) := by
    simp only [splittable, Bool.or_eq_true, decide_eq_true_eq, List.all_eq_true,
      Bool.not_eq_true', List.length_map, List.mem_map] at hsplit ⊢
    refine hsplit.imp id fun hall m hm => ?_
    obtain ⟨n, hn, rfl⟩ := hm
    by_contra hne
    have := hsum n (hmem n hn) (by simpa using hne)
    rw [hall n hn] at this
    cases this
  -- A definite value of `s` is the value of its case too.
  have hle := he.le h.wellFormed hs p hmem
  rw [hval] at hle
  exact hset (a.map e) (he.assigns_map ha) _ ht' hsplit' (Kleene.eq_unknown_of_le hle)

/-! ## The cases of a split -/

section Split

variable {s : Structure V} (hs : s.WellFormed) {p : PredId} (hp : p ≠ Vocabulary.sm)
include hs hp

/-- Fixing an unknown value gives a case. -/
theorem caseOf_set {t : List Node} (ht : s.value p t = .unknown) (k : Kleene) :
    (s.set p t k).CaseOf s := by
  refine ⟨hs.set (hs.admits_of_unknown ht) k, rfl, fun _ => ⟨id, Embedding.set_id (by simp [ht]),
    fun n _ h => ?_⟩⟩
  rw [isSummary_set hp]
  exact h

open scoped Classical in
omit hp in
theorem value_divide (u : Node) (q : PredId) (w : List Node) :
    (s.divide p u).value q w =
      if q = p ∧ w = [s.nextNode] then .ff
      else if q = p ∧ w = [u] then .tt
      else if Reached u s.nextNode w then s.value q (w.map (uncopy s.nextNode u)) else .ff := by
  simp only [divide, value_set, duplicateByMasks_snd, hs.value_duplicateByMasks]

omit hs hp in
theorem nodes_divide (u : Node) : (s.divide p u).nodes = s.newNode.1.nodes :=
  nodes_duplicateByMasks s u

omit hs hp in
theorem nextNode_divide (u : Node) : (s.divide p u).nextNode = s.nextNode + 1 :=
  nextNode_duplicateByMasks s u

omit hs hp in
theorem constraints_divide (u : Node) : (s.divide p u).constraints = s.constraints :=
  constraints_duplicateByMasks s u

omit hs hp in
theorem mem_nodes_divide {u n : Node} :
    n ∈ (s.divide p u).nodes ↔ n = s.nextNode ∨ n ∈ s.nodes := by
  simp [divide]

theorem isSummary_divide (u n : Node) :
    (s.divide p u).isSummary n = s.isSummary (uncopy s.nextNode u n) := by
  have hreached : Reached u s.nextNode [n] := reached_of_length_le (by simp)
  simp [isSummary, value_divide hs, hp.symm, hreached]

/-- Dividing a summary node gives a case, which embeds by putting the copy back. -/
theorem caseOf_divide {u : Node} (hu : s.value p [u] = .unknown) (hsum : s.isSummary u) :
    (s.divide p u).CaseOf s := by
  obtain ⟨hlt, hlen, hmem⟩ := hs.admits_of_unknown hu
  have hun : u ∈ s.nodes := hmem u List.mem_cons_self
  have hback : ∀ n ∈ (s.divide p u).nodes, uncopy s.nextNode u n ∈ s.nodes := by
    intro n hn
    unfold uncopy
    split
    · exact hun
    · exact (mem_nodes_divide.1 hn).resolve_left ‹_›
  have hnew : ∀ n ∈ s.nodes, uncopy s.nextNode u n = n := fun n hn => if_neg (hs.ne_nextNode hn)
  refine ⟨?_, constraints_divide u, fun harity => ⟨uncopy s.nextNode u, ?_, fun n _ h => ?_⟩⟩
  · have hadm : ∀ n, n = s.nextNode ∨ n ∈ s.nodes → (s.duplicateByMasks u).1.Admits ⟨p, [n]⟩ :=
      fun n hn => ⟨hlt, hlen, by simpa using hn⟩
    exact ((hs.duplicateByMasks u).set (hadm u (.inr hun)) .tt).set (hadm _ (.inl rfl)) .ff
  · constructor
    · exact hback
    · intro m hm
      exact ⟨m, mem_nodes_divide.2 (.inr hm), hnew m hm⟩
    · intro q w hw
      have hreached : Reached u s.nextNode w :=
        reached_of_length_le (hw.2.1.trans_le (harity q hw.1))
      rw [value_divide hs, if_pos hreached]
      split
      · rename_i h
        rw [h.1, h.2]
        simp [uncopy, hu]
      · split
        · rename_i h
          rw [h.1, h.2]
          simp [uncopy, hu]
        · exact Kleene.le_refl _
    · -- Only the copy is identified with another node, and that is `u`.
      intro m hm n hn hne heq
      by_cases hmc : m = s.nextNode
      · rw [hmc, uncopy, if_pos rfl]
        exact hsum
      · by_cases hnc : n = s.nextNode
        · rw [heq, hnc, uncopy, if_pos rfl]
          exact hsum
        · rw [uncopy, if_neg hmc, uncopy, if_neg hnc] at heq
          exact absurd heq hne
  · rw [isSummary_divide hs hp]
    exact h

theorem caseOf_splitAt {t : List Node} (ht : s.value p t = .unknown) {r : Structure V}
    (hr : r ∈ s.splitAt p t) : r.CaseOf s := by
  simp only [splitAt, List.cons_append, List.nil_append, List.mem_cons] at hr
  rcases hr with rfl | rfl | hr
  · exact caseOf_set hs hp ht .ff
  · exact caseOf_set hs hp ht .tt
  · split at hr
    · split at hr
      · rw [List.mem_singleton.1 hr]
        exact caseOf_divide hs hp ht ‹_›
      · cases hr
    · cases hr

end Split

/-! ## The cases are exhaustive -/

section Divide

variable (c s : Structure V) (p : PredId) (u : Node) (f : Node → Node)

/-- Where the nodes of a configuration go when `u` is divided: those behind it on which the
predicate is false go to the copy. -/
def sortOut (n : Node) : Node := if f n = u ∧ c.value p [n] = .ff then s.nextNode else f n

variable {c s p u f} {n : Node}

theorem sortOut_of_ff (hn : f n = u) (hff : c.value p [n] = .ff) :
    sortOut c s p u f n = s.nextNode := if_pos ⟨hn, hff⟩

theorem sortOut_of_not (h : ¬ (f n = u ∧ c.value p [n] = .ff)) : sortOut c s p u f n = f n :=
  if_neg h

variable (hs : s.WellFormed)
include hs

/-- To put the copy back undoes the division. -/
theorem uncopy_sortOut (hn : f n ∈ s.nodes) : uncopy s.nextNode u (sortOut c s p u f n) = f n := by
  by_cases h : f n = u ∧ c.value p [n] = .ff
  · rw [sortOut_of_ff h.1 h.2, uncopy_self, h.1]
  · rw [sortOut_of_not h, uncopy_of_ne u (hs.ne_nextNode hn)]

/-- Only what is false goes to the copy. -/
theorem eq_ff_of_sortOut (hn : f n ∈ s.nodes) (h : sortOut c s p u f n = s.nextNode) :
    c.value p [n] = .ff := by
  by_contra hff
  rw [sortOut_of_not fun h => hff h.2] at h
  exact hs.ne_nextNode hn h

/-- Nothing false stays at the node. -/
theorem ne_ff_of_sortOut (hu : u ∈ s.nodes) (h : sortOut c s p u f n = u) :
    c.value p [n] ≠ .ff := by
  intro hff
  by_cases hfn : f n = u
  · rw [sortOut_of_ff hfn hff] at h
    exact hs.ne_nextNode hu h.symm
  · rw [sortOut_of_not fun h => hfn h.1] at h
    exact hfn h

end Divide

section Cover

variable {c s : Structure V} (hc : c.Concrete) (hs : s.WellFormed)
  (harity : ∀ p < V.size, V.arity p ≤ 31) {p : PredId} (hp : p ≠ Vocabulary.sm)
  {f : Node → Node} (hf : Embedding f c s)
include hc hs harity hf

/-- The division has the values of a configuration that is sorted out. -/
theorem value_le_divide {u : Node} (hu : u ∈ s.nodes) {q : PredId} {w : List Node}
    (hw : c.Admits ⟨q, w⟩) :
    (c.value q w).le ((s.divide p u).value q (w.map (sortOut c s p u f))) := by
  have hnodes : ∀ n ∈ w, f n ∈ s.nodes := fun n hn => hf.maps n (hw.2.2 n hn)
  have hreached : Reached u s.nextNode (w.map (sortOut c s p u f)) := by
    refine reached_of_length_le ?_
    rw [List.length_map]
    exact hw.2.1.trans_le (harity q hw.1)
  have hback : (w.map (sortOut c s p u f)).map (uncopy s.nextNode u) = w.map f := by
    rw [List.map_map]
    exact List.map_congr_left fun n hn => uncopy_sortOut hs (hnodes n hn)
  rw [value_divide hs, if_pos hreached]
  split
  · rename_i h
    obtain ⟨n, rfl, hn⟩ := List.map_eq_singleton_iff.1 h.2
    rw [h.1, eq_ff_of_sortOut hs (hnodes n List.mem_cons_self) hn]
    exact Kleene.le_refl _
  · split
    · rename_i h
      obtain ⟨n, rfl, hn⟩ := List.map_eq_singleton_iff.1 h.2
      rw [h.1, hc.eq_tt_of_ne_ff (ne_ff_of_sortOut hs hu hn)]
      exact Kleene.le_refl _
    · rw [hback]
      exact hf.value_le q w hw

include hp

/-- A configuration on which `p` differs behind a summary node embeds in the
structure where that node is divided. -/
theorem embeds_divide {u : Node} (hu : u ∈ s.nodes) {m n : Node} (hm : m ∈ c.nodes)
    (hmu : f m = u) (hmt : c.value p [m] = .tt) (hn : n ∈ c.nodes) (hnu : f n = u)
    (hnf : c.value p [n] = .ff) : c.Embeds (s.divide p u) := by
  have hback : ∀ k ∈ c.nodes, uncopy s.nextNode u (sortOut c s p u f k) = f k := fun k hk =>
    uncopy_sortOut hs (hf.maps k hk)
  refine ⟨sortOut c s p u f, ⟨fun k hk => ?_, fun l hl => ?_,
    fun q w hw => value_le_divide hc hs harity hf hu hw, fun j hj k hk hne heq => ?_⟩⟩
  · rw [mem_nodes_divide]
    by_cases h : f k = u ∧ c.value p [k] = .ff
    · exact .inl (sortOut_of_ff h.1 h.2)
    · rw [sortOut_of_not h]
      exact .inr (hf.maps k hk)
  · rcases mem_nodes_divide.1 hl with rfl | hl
    · exact ⟨n, hn, sortOut_of_ff hnu hnf⟩
    · by_cases hlu : l = u
      · refine ⟨m, hm, ?_⟩
        rw [sortOut_of_not fun h => by simp [hmt] at h, hmu, hlu]
      · obtain ⟨k, hk, hkl⟩ := hf.onto l hl
        refine ⟨k, hk, ?_⟩
        rw [sortOut_of_not fun h => hlu (hkl ▸ h.1), hkl]
  · have hfeq : f j = f k := by rw [← hback j hj, ← hback k hk, heq]
    rw [isSummary_divide hs hp, hback j hj]
    exact hf.summary j hj k hk hne hfeq

/-- A configuration embeds in one of the cases of a split. -/
theorem exists_embeds_splitAt {t : List Node} (ht : s.value p t = .unknown)
    (hsplit : s.splittable t) : ∃ r ∈ s.splitAt p t, c.Embeds r := by
  obtain ⟨-, -, hmem⟩ := hs.admits_of_unknown ht
  -- Where the values behind the tuple agree, fixing that value is enough.
  have hfix : ∀ k : Kleene, k ≠ .unknown →
      (∀ u : List Node, (∀ n ∈ u, n ∈ c.nodes) → u.map f = t → c.value p u = k) →
      ∃ r ∈ s.splitAt p t, c.Embeds r := by
    intro k hk hall
    have hemb : c.Embeds (s.set p t k) :=
      ⟨f, hf.set hp fun u hu hut => Kleene.le_of_eq (hall u hu hut)⟩
    cases k with
    | ff => exact ⟨_, List.mem_cons_self, hemb⟩
    | unknown => exact absurd rfl hk
    | tt => exact ⟨_, List.mem_cons_of_mem _ List.mem_cons_self, hemb⟩
  obtain ⟨u₀, hu₀, hu₀t⟩ := hf.exists_tuple hmem
  by_cases hagree : ∀ u : List Node, (∀ n ∈ u, n ∈ c.nodes) → u.map f = t →
      c.value p u = c.value p u₀
  · exact hfix _ (hc.value_ne_unknown p u₀) hagree
  · -- Otherwise the tuple is a single summary node with nodes of both kinds behind.
    push Not at hagree
    obtain ⟨u₁, hu₁, hu₁t, hdiff⟩ := hagree
    have hsum : ∃ m ∈ t, s.isSummary m := by
      by_contra hno
      refine hdiff (congrArg _ (hf.tuple_eq_of_not_isSummary hu₁ hu₀ (hu₁t.trans hu₀t.symm) ?_))
      intro n hn hfn
      exact hno ⟨f n, hu₁t ▸ List.mem_map_of_mem hn, hfn⟩
    obtain ⟨m, rfl, hm⟩ := exists_summary_of_splittable hsplit hsum
    obtain ⟨n₀, rfl, hn₀⟩ := List.map_eq_singleton_iff.1 hu₀t
    obtain ⟨n₁, rfl, hn₁⟩ := List.map_eq_singleton_iff.1 hu₁t
    have hdivide : s.divide p m ∈ s.splitAt p [m] := by simp [splitAt, hm]
    refine ⟨_, hdivide, ?_⟩
    have hmm : m ∈ s.nodes := hmem m List.mem_cons_self
    have hmem₀ := hu₀ n₀ List.mem_cons_self
    have hmem₁ := hu₁ n₁ List.mem_cons_self
    cases h₀ : c.value p [n₀] with
    | unknown => exact absurd h₀ (hc.value_ne_unknown p [n₀])
    | tt =>
      have h₁ := hc.eq_ff_of_ne_tt (h₀ ▸ hdiff)
      exact embeds_divide hc hs harity hp hf hmm hmem₀ hn₀ h₀ hmem₁ hn₁ h₁
    | ff =>
      have h₁ := hc.eq_tt_of_ne_ff (h₀ ▸ hdiff)
      exact embeds_divide hc hs harity hp hf hmm hmem₁ hn₁ h₁ hmem₀ hn₀ h₀

end Cover

/-! ## Every split settles an atom -/

/-- A structure that makes the value at a tuple definite, and no other value of
that length unknown, has fewer unknown atoms. -/
theorem unknownCount_lt {r s : Structure V} {p : PredId} {t : List Node}
    (hle : ∀ w : List Node, w.length = t.length → r.value p w = .unknown → s.value p w = .unknown)
    (ht : s.value p t = .unknown) (hr : r.value p t ≠ .unknown) :
    r.unknownCount p t.length < s.unknownCount p t.length := by
  refine length_filter_unknownAtoms_lt (fun a hfit h => ?_) (a := ⟨p, t⟩) (by simp) ht hr
  obtain ⟨hpred, hlen⟩ : a.pred = p ∧ a.args.length = t.length := by simpa using hfit
  rw [hpred] at h ⊢
  exact hle a.args hlen h

theorem unknownCount_splitAt_lt {s : Structure V} (hs : s.WellFormed) {p : PredId} {t : List Node}
    (ht : s.value p t = .unknown) {r : Structure V} (hr : r ∈ s.splitAt p t) :
    r.unknownCount p t.length < s.unknownCount p t.length := by
  have hset : ∀ k : Kleene, k ≠ .unknown →
      (s.set p t k).unknownCount p t.length < s.unknownCount p t.length := by
    intro k hk
    refine unknownCount_lt (fun w _ h => ?_) ht (by simpa [value_set] using hk)
    rw [value_set] at h
    split at h
    · exact absurd h hk
    · exact h
  simp only [splitAt, List.cons_append, List.nil_append, List.mem_cons] at hr
  rcases hr with rfl | rfl | hr
  · exact hset .ff (by decide)
  · exact hset .tt (by decide)
  · split at hr
    · rename_i u
      split at hr
      · rw [List.mem_singleton.1 hr]
        refine unknownCount_lt (fun w hw h => ?_) ht ?_
        · obtain ⟨n, rfl⟩ := List.length_eq_one_iff.1 hw
          rw [value_divide hs, if_pos (reached_of_length_le (by simp))] at h
          split at h
          · cases h
          · split at h
            · cases h
            · rename_i hnew _
              have hne : n ≠ s.nextNode := fun hn => hnew ⟨rfl, by rw [hn]⟩
              simpa [uncopy, hne] using h
        · obtain ⟨-, -, hmem⟩ := hs.admits_of_unknown ht
          have hun : u ≠ s.nextNode := hs.ne_nextNode (hmem u List.mem_cons_self)
          simp [value_divide hs, hun]
      · cases hr
    · cases hr

/-! ## Settling an atom -/

section Settle

variable {p : PredId} {vars : List Var}

theorem caseOf_settle (hp : p ≠ Vocabulary.sm) (fuel : Nat) {s : Structure V} (hs : s.WellFormed)
    {r : Structure V} (hr : r ∈ settle p vars fuel s) : r.CaseOf s := by
  induction fuel generalizing s with
  | zero => rw [List.mem_singleton.1 hr]; exact CaseOf.refl hs
  | succ fuel ih =>
    rw [settle] at hr
    split at hr
    · rw [List.mem_singleton.1 hr]
      exact CaseOf.refl hs
    · rename_i t ht
      obtain ⟨q, hq, hrq⟩ := List.mem_flatMap.1 hr
      have hcase := caseOf_splitAt hs hp (unsettled?_eq_some ht).1 hq
      exact (ih hcase.wellFormed hrq).trans hcase

theorem exists_embeds_settle (hp : p ≠ Vocabulary.sm) (harity : ∀ p < V.size, V.arity p ≤ 31)
    {c : Structure V} (hc : c.Concrete) (fuel : Nat) {s : Structure V} (hs : s.WellFormed)
    (h : c.Embeds s) :
    ∃ r ∈ settle p vars fuel s, c.Embeds r := by
  induction fuel generalizing s with
  | zero => exact ⟨s, List.mem_singleton_self s, h⟩
  | succ fuel ih =>
    rw [settle]
    split
    · exact ⟨s, List.mem_singleton_self s, h⟩
    · rename_i t ht
      obtain ⟨hval, hsplit, -⟩ := unsettled?_eq_some ht
      obtain ⟨f, hf⟩ := h
      obtain ⟨q, hq, hcq⟩ := exists_embeds_splitAt hc hs harity hp hf hval hsplit
      obtain ⟨r, hr, hcr⟩ := ih (caseOf_splitAt hs hp hval hq).wellFormed hcq
      exact ⟨r, List.mem_flatMap.2 ⟨q, hq, hr⟩, hcr⟩

/-- Without unknown atoms nothing is left to split. -/
theorem unsettled?_eq_none_of_unknownCount {s : Structure V}
    (h : s.unknownCount p vars.length = 0) : s.unsettled? p vars = none := by
  by_contra hne
  obtain ⟨t, ht⟩ := Option.ne_none_iff_exists'.1 hne
  obtain ⟨hval, -, hlen⟩ := unsettled?_eq_some ht
  have hmem := mem_unknownAtoms (a := ⟨p, t⟩).2 hval
  have hnil := List.length_eq_zero_iff.1 h
  simpa [hlen] using List.filter_eq_nil_iff.1 hnil _ hmem

theorem unknownCount_splitAt_le {fuel : Nat} {s : Structure V} (hs : s.WellFormed)
    (h : s.unknownCount p vars.length ≤ fuel + 1) {t : List Node}
    (ht : s.unsettled? p vars = some t) {r : Structure V} (hr : r ∈ s.splitAt p t) :
    r.unknownCount p vars.length ≤ fuel := by
  obtain ⟨hval, -, hlen⟩ := unsettled?_eq_some ht
  have hlt := unknownCount_splitAt_lt hs hval hr
  rw [hlen] at hlt
  omega

theorem settled_settle (hp : p ≠ Vocabulary.sm) (fuel : Nat) {s : Structure V} (hs : s.WellFormed)
    (h : s.unknownCount p vars.length ≤ fuel) {r : Structure V} (hr : r ∈ settle p vars fuel s) :
    r.Settled p vars := by
  induction fuel generalizing s with
  | zero =>
    rw [List.mem_singleton.1 hr]
    exact settled_of_unsettled?_eq_none (unsettled?_eq_none_of_unknownCount (Nat.le_zero.1 h))
  | succ fuel ih =>
    rw [settle] at hr
    split at hr
    · rename_i hnone
      rw [List.mem_singleton.1 hr]
      exact settled_of_unsettled?_eq_none hnone
    · rename_i t ht
      obtain ⟨q, hq, hrq⟩ := List.mem_flatMap.1 hr
      have hcase := caseOf_splitAt hs hp (unsettled?_eq_some ht).1 hq
      exact ih hcase.wellFormed (unknownCount_splitAt_le hs h ht hq) hrq

/-- Once the fuel covers the unknown atoms, more fuel changes nothing. -/
theorem settle_eq_of_le (hp : p ≠ Vocabulary.sm) {m n : Nat} (hmn : m ≤ n) {s : Structure V}
    (hs : s.WellFormed) (h : s.unknownCount p vars.length ≤ m) :
    settle p vars n s = settle p vars m s := by
  induction m generalizing n s with
  | zero =>
    have hnone := unsettled?_eq_none_of_unknownCount (Nat.le_zero.1 h)
    cases n with
    | zero => rfl
    | succ n => simp only [settle, hnone]
  | succ m ih =>
    obtain ⟨n, rfl⟩ : ∃ k, n = k + 1 := ⟨n - 1, by omega⟩
    simp only [settle]
    split
    · rfl
    · rename_i t ht
      refine List.flatMap_congr fun q hq => ?_
      have hcase := caseOf_splitAt hs hp (unsettled?_eq_some ht).1 hq
      exact ih (by omega) hcase.wellFormed (unknownCount_splitAt_le hs h ht hq)

end Settle

/-! ## Focus -/

/-- Focus on one formula with more fuel than the unknown atoms need. -/
def focusOnWithin (extra : Nat) (s : Structure V) (φ : Formula PredId) : List (Structure V) :=
  match φ.literal? with
  | none => [s]
  | some l =>
    if l.pred = Vocabulary.sm then [s]
    else settle l.pred l.vars (s.unknownCount l.pred l.vars.length + extra) s

/-- Focus with more fuel for each formula than the unknown atoms need. -/
def focusWithin (extra : Nat) (s : Structure V) (fs : List (Formula PredId)) :
    List (Structure V) :=
  fs.foldl (fun ss φ => ss.flatMap (·.focusOnWithin extra φ)) [s]

theorem caseOf_focusOn {s : Structure V} (hs : s.WellFormed) {φ : Formula PredId}
    {r : Structure V} (hr : r ∈ s.focusOn φ) : r.CaseOf s := by
  unfold focusOn at hr
  split at hr
  · rw [List.mem_singleton.1 hr]
    exact CaseOf.refl hs
  · split at hr
    · rw [List.mem_singleton.1 hr]
      exact CaseOf.refl hs
    · exact caseOf_settle ‹_› _ hs hr

theorem exists_embeds_focusOn {c s : Structure V} (hc : c.Concrete) (hs : s.WellFormed)
    (harity : ∀ p < V.size, V.arity p ≤ 31) (h : c.Embeds s) (φ : Formula PredId) :
    ∃ r ∈ s.focusOn φ, c.Embeds r := by
  unfold focusOn
  split
  · exact ⟨s, List.mem_singleton_self s, h⟩
  · split
    · exact ⟨s, List.mem_singleton_self s, h⟩
    · exact exists_embeds_settle ‹_› harity hc _ hs h

theorem settled_focusOn {s : Structure V} (hs : s.WellFormed) {φ : Formula PredId}
    {l : Formula.Literal PredId} (hl : φ.literal? = some l) (hsm : l.pred ≠ Vocabulary.sm)
    {r : Structure V} (hr : r ∈ s.focusOn φ) : r.Settled l.pred l.vars := by
  simp only [focusOn, hl, if_neg hsm] at hr
  exact settled_settle hsm _ hs (Nat.le_refl _) hr

theorem focusOnWithin_eq {s : Structure V} (hs : s.WellFormed) (extra : Nat)
    (φ : Formula PredId) : s.focusOnWithin extra φ = s.focusOn φ := by
  unfold focusOnWithin focusOn
  cases φ.literal? with
  | none => rfl
  | some l =>
    dsimp only
    split
    · rfl
    · exact settle_eq_of_le ‹_› (Nat.le_add_right _ _) hs (Nat.le_refl _)

/-- Focusing on a list of formulas goes case by case. -/
theorem focus_cons (s : Structure V) (φ : Formula PredId) (fs : List (Formula PredId)) :
    s.focus (φ :: fs) = (s.focusOn φ).flatMap (·.focus fs) := by
  have hfold : ∀ ss : List (Structure V),
      fs.foldl (fun ss φ => ss.flatMap (·.focusOn φ)) ss = ss.flatMap (·.focus fs) := by
    induction fs with
    | nil => intro ss; simp [focus]
    | cons ψ fs ih =>
      intro ss
      rw [List.foldl_cons, ih, List.flatMap_assoc]
      refine List.flatMap_congr fun s _ => ?_
      rw [focus, List.foldl_cons, ih]
      simp
  rw [focus, List.foldl_cons, hfold]
  simp

theorem caseOf_focus (fs : List (Formula PredId)) {s : Structure V} (hs : s.WellFormed)
    {r : Structure V} (hr : r ∈ s.focus fs) : r.CaseOf s := by
  induction fs generalizing s with
  | nil => rw [List.mem_singleton.1 hr]; exact CaseOf.refl hs
  | cons φ fs ih =>
    rw [focus_cons] at hr
    obtain ⟨q, hq, hrq⟩ := List.mem_flatMap.1 hr
    have hcase := caseOf_focusOn hs hq
    exact (ih hcase.wellFormed hrq).trans hcase

theorem exists_embeds_focus (fs : List (Formula PredId)) {c s : Structure V} (hc : c.Concrete)
    (hs : s.WellFormed) (harity : ∀ p < V.size, V.arity p ≤ 31) (h : c.Embeds s) :
    ∃ r ∈ s.focus fs, c.Embeds r := by
  induction fs generalizing s with
  | nil => exact ⟨s, List.mem_singleton_self s, h⟩
  | cons φ fs ih =>
    obtain ⟨q, hq, hcq⟩ := exists_embeds_focusOn hc hs harity h φ
    obtain ⟨r, hr, hcr⟩ := ih (caseOf_focusOn hs hq).wellFormed hcq
    rw [focus_cons]
    exact ⟨r, List.mem_flatMap.2 ⟨q, hq, hr⟩, hcr⟩

/-- Every literal of the list is settled, also by the splits for the formulas
after it. -/
theorem settled_focus (fs : List (Formula PredId)) {s : Structure V} (hs : s.WellFormed)
    (harity : ∀ p < V.size, V.arity p ≤ 31) {r : Structure V} (hr : r ∈ s.focus fs)
    {φ : Formula PredId} (hφ : φ ∈ fs)
    {l : Formula.Literal PredId} (hl : φ.literal? = some l) (hsm : l.pred ≠ Vocabulary.sm) :
    r.Settled l.pred l.vars := by
  induction fs generalizing s with
  | nil => cases hφ
  | cons ψ fs ih =>
    rw [focus_cons] at hr
    obtain ⟨q, hq, hrq⟩ := List.mem_flatMap.1 hr
    have hwf := (caseOf_focusOn hs hq).wellFormed
    rcases List.mem_cons.1 hφ with rfl | hφ
    · exact (caseOf_focus fs hwf hrq).settled hwf harity (settled_focusOn hs hl hsm hq)
    · exact ih hwf hrq hφ

theorem focusWithin_eq (extra : Nat) (fs : List (Formula PredId)) {s : Structure V}
    (hs : s.WellFormed) : s.focusWithin extra fs = s.focus fs := by
  -- Both folds keep a list of well-formed structures.
  have hfold : ∀ ss : List (Structure V), (∀ q ∈ ss, q.WellFormed) →
      fs.foldl (fun ss φ => ss.flatMap (·.focusOnWithin extra φ)) ss =
        fs.foldl (fun ss φ => ss.flatMap (·.focusOn φ)) ss := by
    induction fs with
    | nil => exact fun _ _ => rfl
    | cons φ fs ih =>
      intro ss hss
      have hstep : ss.flatMap (·.focusOnWithin extra φ) = ss.flatMap (·.focusOn φ) :=
        List.flatMap_congr fun q hq => focusOnWithin_eq (hss q hq) extra φ
      rw [List.foldl_cons, List.foldl_cons, hstep]
      refine ih _ fun r hr => ?_
      obtain ⟨q, hq, hrq⟩ := List.mem_flatMap.1 hr
      exact (caseOf_focusOn (hss q hq) hrq).wellFormed
  exact hfold [s] fun q hq => List.mem_singleton.1 hq ▸ hs

/-- Focus splits a structure into finitely many cases: a larger bound on the
splits gives the same cases.  They describe the configurations the structure
describes, and every literal of the list is definite in each of them, except at
tuples of two or more nodes with a summary node among them. -/
theorem focus_exact (s : Structure V) (hs : s.WellFormed)
    (harity : ∀ p < V.size, V.arity p ≤ 31) (fs : List (Formula PredId)) :
    (∀ extra, s.focusWithin extra fs = s.focus fs) ∧
      (∀ c : Structure V, c.Concrete → (c.Embeds s ↔ ∃ r ∈ s.focus fs, c.Embeds r)) ∧
      ∀ r ∈ s.focus fs, ∀ φ ∈ fs, ∀ l : Formula.Literal PredId, φ.literal? = some l →
        l.pred ≠ Vocabulary.sm → ∀ a : Assignment, a.Assigns l.vars r.nodes →
        ∀ t, a.tuple? l.vars = some t → ¬ (2 ≤ t.length ∧ ∃ n ∈ t, r.isSummary n) →
        (r.value l.pred t).isDefinite := by
  refine ⟨fun extra => focusWithin_eq extra fs hs, fun c hc =>
    ⟨exists_embeds_focus fs hc hs harity, ?_⟩, fun r hr φ hφ l hl hsm a ha t ht hexc => ?_⟩
  · rintro ⟨r, hr, hcr⟩
    exact hcr.trans ((caseOf_focus fs hs hr).embeds harity)
  · have hsplit : r.splittable t := by
      by_contra hno
      simp only [splittable, Bool.or_eq_true, decide_eq_true_eq, List.all_eq_true,
        Bool.not_eq_true', not_or, not_forall] at hno
      obtain ⟨hlen, n, hn, hsum⟩ := hno
      have := List.length_pos_of_mem hn
      exact hexc ⟨by omega, n, hn, by simpa using hsum⟩
    simpa [Kleene.isDefinite] using settled_focus fs hs harity hr hφ hl hsm a ha t ht hsplit

/-- Any number of cells fall into three cases: `x` points to none, to all, or to
some of them.  The last one describes two cells. -/
theorem focus_exact_anyCells :
    anyCells.WellFormed ∧ twoCells.Concrete ∧ (anyCells.focus [.atom 6 [0]]).length = 3 ∧
      (∃ r ∈ anyCells.focus [.atom 6 [0]], twoCells.Embeds r) ∧
      ∀ r ∈ anyCells.focus [.atom 6 [0]], ∀ n ∈ r.nodes, (r.value 6 [n]).isDefinite := by
  obtain ⟨-, hdescribes, hdefinite⟩ := focus_exact anyCells (by decide) (by decide) [.atom 6 [0]]
  refine ⟨by decide, by decide, by decide, ?_, fun r hr n hn => ?_⟩
  · exact (hdescribes twoCells (by decide)).1 ⟨fun _ => 0, by decide⟩
  · have ha : (Assignment.empty.bind 0 n).Assigns [0] r.nodes :=
      ⟨(Assignment.within_empty _).bind 0 hn, fun v => by
        rw [Assignment.get?_bind]
        split <;> simp [*]⟩
    exact hdefinite r hr _ List.mem_cons_self _ rfl (by decide) _ ha [n]
      (by simp [Assignment.tuple?]) (by simp)
end Structure

end ShapeAnalysis
