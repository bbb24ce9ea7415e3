import ShapeAnalysis.Pipeline.Messages
import ShapeAnalysis.Proofs.Isomorphism

/-!
# Collected messages

Entries of a collection are found by an isomorphism search.  On well-formed structures the
search is exact and isomorphism is an equivalence, so there is one entry for each class
that messages were added to.  Which structure stands for a class depends on the additions.
What is recorded for it does not: a text is recorded for a class exactly if it was added
to a structure of it (`records_add`, `Holds.extend`).

A change either extends the list of one entry or adds an entry at the end (`addTo_cases`).
So entries keep their places, and their lists only grow.
-/

namespace ShapeAnalysis

namespace Messages

open Structure

variable {V : Vocabulary}

/-! ## One addition -/

/-- Old texts stay in front. -/
theorem prefix_addTexts (old new : List String) : old <+: addTexts old new := by
  unfold addTexts
  induction new generalizing old with
  | nil => exact List.prefix_refl old
  | cons x new ih =>
    have hstep : old <+: (if old.contains x then old else old ++ [x]) := by
      split
      · exact List.prefix_refl old
      · exact List.prefix_append old [x]
    exact hstep.trans (ih _)

/-- No text is lost. -/
theorem mem_addTexts {old new : List String} {x : String} :
    x ∈ addTexts old new ↔ x ∈ old ∨ x ∈ new := by
  unfold addTexts
  induction new generalizing old with
  | nil => simp
  | cons y new ih =>
    have hstep : x ∈ (if old.contains y then old else old ++ [y]) ↔ x ∈ old ∨ x = y := by
      split
      · rename_i h
        have hy : y ∈ old := by simpa using h
        exact ⟨.inl, fun h => h.elim id fun h => h ▸ hy⟩
      · simp
    rw [List.foldl_cons, ih, hstep, List.mem_cons, or_assoc]

/-- An addition extends the list of an entry, or it adds an entry if none is isomorphic. -/
theorem addTo_cases (s : Structure V) (texts : List String)
    (es : List (Structure V × List String)) :
    (∃ before t ts after, es = before ++ (t, ts) :: after ∧ t.isIsomorphic s = true ∧
        addTo s texts es = before ++ (t, addTexts ts texts) :: after) ∨
      (∀ e ∈ es, e.1.isIsomorphic s = false) ∧ addTo s texts es = es ++ [(s, texts)] := by
  induction es with
  | nil => exact .inr ⟨by simp, rfl⟩
  | cons e rest ih =>
    obtain ⟨t, ts⟩ := e
    cases h : t.isIsomorphic s with
    | true => exact .inl ⟨[], t, ts, rest, rfl, h, by simp [addTo, h]⟩
    | false =>
      rcases ih with ⟨before, u, us, after, rfl, hu, hadd⟩ | ⟨hnone, hadd⟩
      · exact .inl ⟨(t, ts) :: before, u, us, after, rfl, hu, by simp [addTo, h, hadd]⟩
      · exact .inr ⟨List.forall_mem_cons.2 ⟨h, hnone⟩, by simp [addTo, h, hadd]⟩

/-! ## What is recorded -/

/-- A text is recorded for the isomorphism class of a structure. -/
def Records (m : Messages V) (t : Structure V) (x : String) : Prop :=
  ∃ e ∈ m.entries, Isomorphic e.1 t ∧ x ∈ e.2

/-- Messages are recorded for well-formed structures. -/
def WellFormed (m : Messages V) : Prop := ∀ e ∈ m.entries, e.1.WellFormed

/-- No two entries are isomorphic. -/
def Distinct (m : Messages V) : Prop := m.entries.Pairwise fun d e => ¬ Isomorphic d.1 e.1

theorem wellFormed_empty : (empty : Messages V).WellFormed := fun _ he => by cases he

theorem distinct_empty : (empty : Messages V).Distinct := List.Pairwise.nil

theorem not_records_empty (t : Structure V) (x : String) : ¬ (empty : Messages V).Records t x :=
  fun ⟨_, he, _⟩ => by cases he

section Add

variable {m : Messages V} (hm : m.WellFormed) {s : Structure V} (hs : s.WellFormed)
include hm hs

theorem WellFormed.add (texts : List String) : (m.add s texts).WellFormed := by
  unfold Messages.add
  split
  · exact hm
  · show ∀ e ∈ addTo s texts m.entries, e.1.WellFormed
    intro e he
    rcases addTo_cases s texts m.entries with ⟨before, u, us, after, hes, -, hadd⟩ | ⟨-, hadd⟩
    · rw [hadd] at he
      rcases List.mem_append.1 he with he | he
      · exact hm e (by simp [hes, he])
      · rcases List.mem_cons.1 he with rfl | he
        · exact hm (u, us) (by simp [hes])
        · exact hm e (by simp [hes, he])
    · rw [hadd] at he
      rcases List.mem_append.1 he with he | he
      · exact hm e he
      · rw [List.mem_singleton.1 he]
        exact hs

/-- To add texts records them for all structures isomorphic to that one. -/
theorem records_add (texts : List String) (t : Structure V) (x : String) :
    (m.add s texts).Records t x ↔ m.Records t x ∨ Isomorphic s t ∧ x ∈ texts := by
  unfold add
  split
  · rename_i h
    rw [List.isEmpty_iff.1 h]
    simp
  · show (∃ e ∈ addTo s texts m.entries, Isomorphic e.1 t ∧ x ∈ e.2) ↔
      (∃ e ∈ m.entries, Isomorphic e.1 t ∧ x ∈ e.2) ∨ Isomorphic s t ∧ x ∈ texts
    rcases addTo_cases s texts m.entries with ⟨before, u, us, after, hes, hu, hadd⟩ | ⟨-, hadd⟩
    · have hiso := (isIsomorphic_iff (hm (u, us) (by simp [hes])) hs).1 hu
      -- The entry stands for the class of `s` as well.
      have hclass : Isomorphic u t ↔ Isomorphic s t := ⟨hiso.symm.trans, hiso.trans⟩
      rw [hadd, hes]
      simp only [List.mem_append, List.mem_cons, or_and_right, exists_or, exists_eq_left,
        mem_addTexts, hclass, and_or_left]
      exact (or_congr_right or_right_comm).trans or_assoc.symm
    · rw [hadd]
      simp [or_and_right, exists_or]

theorem Distinct.add (h : m.Distinct) (texts : List String) : (m.add s texts).Distinct := by
  unfold Messages.add
  split
  · exact h
  · show (addTo s texts m.entries).Pairwise fun d e => ¬ Isomorphic d.1 e.1
    unfold Distinct at h
    rcases addTo_cases s texts m.entries with
      ⟨before, u, us, after, hes, -, hadd⟩ | ⟨hnone, hadd⟩
    · -- The structures are the same as before.
      have hsame : (addTo s texts m.entries).map Prod.fst = m.entries.map Prod.fst := by
        rw [hadd, hes]
        simp
      rw [← List.pairwise_map (f := Prod.fst) (R := fun t u => ¬ Isomorphic t u)] at h ⊢
      rwa [hsame]
    · rw [hadd, List.pairwise_append]
      refine ⟨h, List.pairwise_singleton _ _, fun e he d hd hiso => ?_⟩
      rw [List.mem_singleton.1 hd] at hiso
      have hfound := (isIsomorphic_iff (hm e he) hs).2 hiso
      rw [hnone e he] at hfound
      cases hfound

end Add

/-- What is recorded for a class after a list of additions. -/
theorem records_foldl_add {α : Type} {structureOf : α → Structure V} {texts : α → List String}
    (xs : List α) (hxs : ∀ a ∈ xs, (structureOf a).WellFormed) {m : Messages V}
    (hm : m.WellFormed) (t : Structure V) (x : String) :
    (xs.foldl (fun m a => m.add (structureOf a) (texts a)) m).Records t x ↔
      m.Records t x ∨ ∃ a ∈ xs, Isomorphic (structureOf a) t ∧ x ∈ texts a := by
  induction xs generalizing m with
  | nil => simp
  | cons a xs ih =>
    obtain ⟨ha, hrest⟩ := List.forall_mem_cons.1 hxs
    rw [List.foldl_cons, ih hrest (hm.add ha (texts a)), records_add hm ha,
      List.exists_mem_cons_iff, or_assoc]

/-! ## Collections of additions -/

/-- Isomorphic structures have one entry. -/
theorem Distinct.eq_of_isomorphic {m : Messages V} (h : m.Distinct) {i j : Nat}
    {d e : Structure V × List String} (hi : m.entries[i]? = some d)
    (hj : m.entries[j]? = some e) (hiso : Isomorphic d.1 e.1) : i = j := by
  obtain ⟨hilt, rfl⟩ := List.getElem?_eq_some_iff.1 hi
  obtain ⟨hjlt, rfl⟩ := List.getElem?_eq_some_iff.1 hj
  rcases Nat.lt_trichotomy i j with hlt | heq | hlt
  · exact absurd hiso (List.pairwise_iff_getElem.1 h i j hilt hjlt hlt)
  · exact heq
  · exact absurd hiso.symm (List.pairwise_iff_getElem.1 h j i hjlt hilt hlt)

/-- A collection holds some additions and nothing else. -/
structure Holds (m : Messages V) (adds : List (Structure V × List String)) : Prop where
  wellFormed : m.WellFormed
  distinct : m.Distinct
  /-- A text is recorded for the classes that it was added for. -/
  records : ∀ t x, m.Records t x ↔ ∃ a ∈ adds, Isomorphic a.1 t ∧ x ∈ a.2

section Holds

variable {m other : Messages V} {adds adds' : List (Structure V × List String)}

theorem holds_empty : (empty : Messages V).Holds [] :=
  ⟨wellFormed_empty, distinct_empty, fun t x => by simp [not_records_empty]⟩

theorem Holds.add (h : m.Holds adds) {s : Structure V} (hs : s.WellFormed)
    (texts : List String) : (m.add s texts).Holds (adds ++ [(s, texts)]) := by
  refine ⟨h.wellFormed.add hs texts, h.distinct.add h.wellFormed hs texts, fun t x => ?_⟩
  rw [records_add h.wellFormed hs, h.records]
  simp [or_and_right, exists_or]

theorem Holds.extend (h : m.Holds adds) (h' : other.Holds adds') :
    (m.extend other).Holds (adds ++ adds') := by
  have hkeeps : (m.extend other).WellFormed ∧ (m.extend other).Distinct := by
    unfold Messages.extend
    refine List.foldlRecOn (motive := fun m : Messages V => m.WellFormed ∧ m.Distinct)
      other.entries _ ⟨h.wellFormed, h.distinct⟩ fun m' hm' e he => ?_
    have hwf := h'.wellFormed e he
    exact ⟨hm'.1.add hwf e.2, hm'.2.add hm'.1 hwf e.2⟩
  refine ⟨hkeeps.1, hkeeps.2, fun t x => ?_⟩
  -- What is merged in are the entries, and they record the additions.
  have hfold : (m.extend other).Records t x ↔
      m.Records t x ∨ ∃ e ∈ other.entries, Isomorphic e.1 t ∧ x ∈ e.2 :=
    records_foldl_add other.entries h'.wellFormed h.wellFormed t x
  have hentries : (∃ e ∈ other.entries, Isomorphic e.1 t ∧ x ∈ e.2) ↔
      ∃ a ∈ adds', Isomorphic a.1 t ∧ x ∈ a.2 := h'.records t x
  rw [hfold, hentries, h.records]
  simp only [List.mem_append, or_and_right, exists_or]

/-- A collection holds its own entries. -/
theorem Holds.entries (h : m.Holds adds) : m.Holds m.entries :=
  ⟨h.wellFormed, h.distinct, fun _ _ => Iff.rfl⟩

/-- An addition with texts has its entry. -/
theorem Holds.exists_entry (h : m.Holds adds) {a : Structure V × List String} (ha : a ∈ adds)
    (hne : a.2 ≠ []) : ∃ (i : Nat) (e : Structure V × List String),
      m.entries[i]? = some e ∧ Isomorphic e.1 a.1 ∧
      (∀ x ∈ a.2, x ∈ e.2) ∧
      ∀ (j : Nat) d, m.entries[j]? = some d → Isomorphic d.1 a.1 → j = i := by
  have hrecorded : ∀ x ∈ a.2, ∃ (i : Nat) (e : Structure V × List String),
      m.entries[i]? = some e ∧ Isomorphic e.1 a.1 ∧ x ∈ e.2 := by
    intro x hx
    obtain ⟨e, he, hiso, hxe⟩ := (h.records a.1 x).2 ⟨a, ha, .refl a.1, hx⟩
    obtain ⟨i, hi⟩ := List.getElem?_of_mem he
    exact ⟨i, e, hi, hiso, hxe⟩
  obtain ⟨x₀, hx₀⟩ := List.exists_mem_of_ne_nil _ hne
  obtain ⟨i, e, hi, hiso, -⟩ := hrecorded x₀ hx₀
  have hunique : ∀ (j : Nat) d, m.entries[j]? = some d → Isomorphic d.1 a.1 → j = i :=
    fun j d hj hd => h.distinct.eq_of_isomorphic hj hi (hd.trans hiso.symm)
  refine ⟨i, e, hi, hiso, fun x hx => ?_, hunique⟩
  obtain ⟨j, d, hj, hd, hxd⟩ := hrecorded x hx
  rw [hunique j d hj hd, hi] at hj
  cases hj
  exact hxd

end Holds

/-! ## Growth -/

/-- Entries keep their places and their structures, and their lists are prefixes of the
later ones. -/
def Grows (m m' : Messages V) : Prop :=
  ∀ (i : Nat) (e : Structure V × List String), m.entries[i]? = some e →
    ∃ ts, m'.entries[i]? = some (e.1, ts) ∧ e.2 <+: ts

theorem Grows.refl (m : Messages V) : Grows m m :=
  fun _ e he => ⟨e.2, he, List.prefix_refl e.2⟩

theorem Grows.trans {m m' m'' : Messages V} (h : Grows m m') (h' : Grows m' m'') :
    Grows m m'' := by
  intro i e he
  obtain ⟨ts, hts, hle⟩ := h i e he
  obtain ⟨us, hus, hle'⟩ := h' i _ hts
  exact ⟨us, hus, hle.trans hle'⟩

/-- An entry may get more texts and stays where it is. -/
theorem grows_add (m : Messages V) (s : Structure V) (texts : List String) :
    Grows m (m.add s texts) := by
  unfold add
  split
  · exact .refl m
  · intro i e he
    show ∃ ts, (addTo s texts m.entries)[i]? = some (e.1, ts) ∧ e.2 <+: ts
    rcases addTo_cases s texts m.entries with ⟨before, t, us, after, hes, -, hadd⟩ | ⟨-, hadd⟩
    · rw [hes, List.getElem?_append] at he
      rw [hadd, List.getElem?_append]
      split at he
      · rename_i hlt
        rw [if_pos hlt]
        exact ⟨e.2, he, List.prefix_refl e.2⟩
      · rename_i hge
        rw [if_neg hge]
        cases hi : i - before.length with
        | zero =>
          rw [hi, List.getElem?_cons_zero] at he
          cases he
          exact ⟨addTexts us texts, rfl, prefix_addTexts us texts⟩
        | succ k =>
          rw [hi, List.getElem?_cons_succ] at he
          exact ⟨e.2, he, List.prefix_refl e.2⟩
    · rw [hadd, List.getElem?_append_left (List.getElem?_eq_some_iff.1 he).1]
      exact ⟨e.2, he, List.prefix_refl e.2⟩

/-- So it is when a whole collection is added. -/
theorem grows_extend (m other : Messages V) : Grows m (m.extend other) :=
  List.foldlRecOn _ _ (Grows.refl m) fun m' h e _ => h.trans (grows_add m' e.1 e.2)

/-! ## Histories of additions -/

/-- The calls that made a collection, the first one innermost. -/
inductive History (V : Vocabulary) where
  /-- A new collection. -/
  | empty
  /-- Texts were added for a structure. -/
  | add (h : History V) (s : Structure V) (texts : List String)
  /-- Another collection was merged in. -/
  | extend (h other : History V)

namespace History

/-- The collection that was made. -/
def collection : History V → Messages V
  | empty => .empty
  | add h s texts => h.collection.add s texts
  | extend h other => h.collection.extend other.collection

/-- The additions to the collection, where a merge adds the entries of the other one. -/
def additions : History V → List (Structure V × List String)
  | empty => []
  | add h s texts => h.additions ++ [(s, texts)]
  | extend h other => h.additions ++ other.collection.entries

/-- What was added to the collection and to those that were merged in. -/
def sources : History V → List (Structure V × List String)
  | empty => []
  | add h s texts => h.sources ++ [(s, texts)]
  | extend h other => h.sources ++ other.sources

/-- One history goes on from another one. -/
inductive Continues (h : History V) : History V → Prop
  | refl : Continues h h
  | add {h' : History V} (s : Structure V) (texts : List String) :
      Continues h h' → Continues h (h'.add s texts)
  | extend {h' : History V} (other : History V) :
      Continues h h' → Continues h (h'.extend other)

theorem Continues.grows {h h' : History V} (hc : h.Continues h') :
    Grows h.collection h'.collection := by
  induction hc with
  | refl => exact .refl _
  | add s texts _ ih => exact ih.trans (grows_add _ s texts)
  | extend other _ ih => exact ih.trans (grows_extend _ other.collection)

theorem holds_sources {h : History V} (hwf : ∀ a ∈ h.sources, a.1.WellFormed) :
    h.collection.Holds h.sources := by
  induction h with
  | empty => exact holds_empty
  | add h s texts ih =>
    obtain ⟨hh, hs⟩ := List.forall_mem_append.1 hwf
    exact (ih hh).add (hs (s, texts) List.mem_cons_self) texts
  | extend h other ih ihother =>
    obtain ⟨hh, hother⟩ := List.forall_mem_append.1 hwf
    exact (ih hh).extend (ihother hother)

/-- A collection holds what its history added, copies of other collections included. -/
theorem holds_additions {h : History V} (hwf : ∀ a ∈ h.sources, a.1.WellFormed) :
    h.collection.Holds h.additions := by
  induction h with
  | empty => exact holds_empty
  | add h s texts ih =>
    obtain ⟨hh, hs⟩ := List.forall_mem_append.1 hwf
    exact (ih hh).add (hs (s, texts) List.mem_cons_self) texts
  | extend h other ih _ =>
    obtain ⟨hh, hother⟩ := List.forall_mem_append.1 hwf
    exact (ih hh).extend (holds_sources hother).entries

/-- Collections only accumulate.  No two entries are isomorphic.  What was added with
texts has exactly one entry that is isomorphic, and all of these texts are in it.  Every
text of an entry was added for a structure that is isomorphic to it.  Later on entries are
in their places with lists that start with the earlier ones. -/
theorem collection_accumulates {h : History V} (hwf : ∀ a ∈ h.sources, a.1.WellFormed) :
    (h.collection.entries.Pairwise fun d e => ¬ Isomorphic d.1 e.1) ∧
      (∀ a, a ∈ h.sources ∨ a ∈ h.additions → a.2 ≠ [] →
        ∃ (i : Nat) (e : Structure V × List String), h.collection.entries[i]? = some e ∧
          Isomorphic e.1 a.1 ∧ (∀ x ∈ a.2, x ∈ e.2) ∧
          ∀ (j : Nat) d, h.collection.entries[j]? = some d → Isomorphic d.1 a.1 → j = i) ∧
      (∀ e ∈ h.collection.entries, ∀ x ∈ e.2,
        (∃ a ∈ h.sources, Isomorphic a.1 e.1 ∧ x ∈ a.2) ∧
          ∃ a ∈ h.additions, Isomorphic a.1 e.1 ∧ x ∈ a.2) ∧
      ∀ h', h.Continues h' → Grows h.collection h'.collection := by
  have hsources := holds_sources hwf
  have hadditions := holds_additions hwf
  refine ⟨hsources.distinct, fun a ha hne => ?_, fun e he x hx => ⟨?_, ?_⟩, fun h' hc => hc.grows⟩
  · rcases ha with ha | ha
    · exact hsources.exists_entry ha hne
    · exact hadditions.exists_entry ha hne
  · exact (hsources.records e.1 x).1 ⟨e, he, .refl e.1, hx⟩
  · exact (hadditions.records e.1 x).1 ⟨e, he, .refl e.1, hx⟩

/-- Texts for the rings in two collections, of which one is merged into the other. -/
def ringHistory : History cellVocabulary :=
  (History.empty.add ringCells ["a"]).extend
    ((History.empty.add backRingCells ["b"]).add twoCells ["c"])

theorem collection_accumulates_ring :
    (∀ a ∈ ringHistory.sources, a.1.WellFormed) ∧
      (ringHistory.collection.entries.Pairwise fun d e => ¬ Isomorphic d.1 e.1) ∧
      (∃ (i : Nat) (e : Structure cellVocabulary × List String),
        ringHistory.collection.entries[i]? = some e ∧ Isomorphic e.1 backRingCells ∧
          ∀ x ∈ ["b"], x ∈ e.2) ∧
      Grows ringHistory.collection (ringHistory.add twoCells ["d"]).collection := by
  have hwf : ∀ a ∈ ringHistory.sources, a.1.WellFormed := by decide
  obtain ⟨hdistinct, hentry, -, hgrows⟩ := collection_accumulates hwf
  obtain ⟨i, e, he, hiso, hin, -⟩ :=
    hentry (backRingCells, ["b"]) (.inl (by simp [ringHistory, sources])) (by simp)
  exact ⟨hwf, hdistinct, ⟨i, e, he, hiso, hin⟩, hgrows _ (.add twoCells ["d"] .refl)⟩

end History

end Messages

end ShapeAnalysis
