import ShapeAnalysis.Proofs.Coerce
import ShapeAnalysis.Proofs.Merge

/-!
# Coerce computes the greatest stable sharpening

A structure is *stable* under constraints when none of them is violated and every
literal that one of them demands is true, unless it is about `sm` (`Stable`).  That is
when a pass changes nothing (`coerce_eq_self_iff`).

Below a structure are the structures on the same nodes whose values are at least as
precise (`Refines`).  A stable one below is kept by every demand on the way, since a body
that is true stays true below.  So if there is one, coerce succeeds, and what it leaves
is the greatest of them (`coerce_of_stable`).  That says nothing about the order of the
constraints, so neither the answer depends on it nor, in a success, what is left.

After a violation the order does show: what the constraints before the violated one
changed stays changed (`coerce_violation_depends_on_order`).
-/

namespace ShapeAnalysis

namespace Structure

variable {V : Vocabulary}

/-! ## Stable structures -/

/-- Wherever the body of a constraint is true, the head is not false, and it is true if
it is a literal of another predicate than `sm`. -/
def Stable (t : Structure V) (ks : List Constraint) : Prop :=
  ∀ k ∈ ks, ∀ a : Assignment, a.Assigns k.body.freeVars t.nodes → t.eval k.body a = .tt →
    t.eval k.head a ≠ .ff ∧
      ∀ l, k.head.literal? = some l → l.pred ≠ Vocabulary.sm → t.eval k.head a = .tt

theorem Stable.congr {t : Structure V} {ks ks' : List Constraint} (h : ∀ k, k ∈ ks ↔ k ∈ ks') :
    t.Stable ks ↔ t.Stable ks' :=
  forall_congr' fun k => imp_congr_left (h k)

theorem stable_iff {t : Structure V} {ks : List Constraint} :
    t.Stable ks ↔ ∀ k ∈ ks, ∀ a ∈ t.triggers k, t.demand k.head a = (.stable, t) := by
  simp only [demand_eq_stable_iff, mem_triggers, and_imp]
  rfl

/-- A constraint whose body is true in a structure applies at every assignment behind in
a stable one that embeds there. -/
theorem Stable.behind {f : Node → Node} {s t : Structure V} {ks : List Constraint}
    (h : s.Stable ks) (hf : Embedding f s t)
    (hle : ∀ p {u}, (∀ n ∈ u, n ∈ s.nodes) → (s.value p u).le (t.value p (u.map f)))
    {k : Constraint} (hk : k ∈ ks) {b : Assignment} (hb : b.Assigns k.body.freeVars s.nodes)
    (hbody : t.eval k.body (b.map f) = .tt) :
    s.eval k.head b ≠ .ff ∧
      ∀ l, k.head.literal? = some l → l.pred ≠ Vocabulary.sm → s.eval k.head b = .tt :=
  h k hk b hb (hf.eval_eq_tt hle hb.within hbody)

section Still

variable {t : Structure V}

theorem demandAll_of_stable {head : Formula PredId} {as : List Assignment}
    (h : ∀ a ∈ as, t.demand head a = (.stable, t)) (acc : Sharpening) :
    demandAll head as acc t = (acc, t) := by
  induction as with
  | nil => rfl
  | cons a rest ih =>
    rw [List.forall_mem_cons] at h
    rw [demandAll, h.1]
    exact ih h.2

theorem coercePass_of_stable {ks : List Constraint} (h : t.Stable ks) :
    coercePass ks .stable t = (.stable, t) := by
  rw [stable_iff] at h
  induction ks with
  | nil => rfl
  | cons k rest ih =>
    rw [List.forall_mem_cons] at h
    rw [coercePass_cons, demandAll_of_stable h.1, if_neg (by simp)]
    exact ih h.2

/-- Coerce accepts a structure as it is exactly when it is stable. -/
theorem coerce_eq_self_iff : t.coerce = (true, t) ↔ t.Stable t.constraints := by
  constructor
  · intro h
    have hstable := coerce_stable (s := t) (by rw [h])
    rw [h] at hstable
    exact stable_iff.2 hstable
  · intro h
    rw [coerce, coerceLoop, coercePass_of_stable h]

end Still

/-! ## Passes without a bound on their number -/

/-- Passes from a structure end in an answer and a structure. -/
inductive Ends : Structure V → Bool × Structure V → Prop
  | violated {s t : Structure V} : coercePass s.constraints .stable s = (.violated, t) →
      Ends s (false, t)
  | stable {s t : Structure V} : coercePass s.constraints .stable s = (.stable, t) →
      Ends s (true, t)
  | changed {s t : Structure V} {r : Bool × Structure V} :
      coercePass s.constraints .stable s = (.changed, t) → Ends t r → Ends s r

/-- Passes end in at most one way. -/
theorem Ends.unique {s : Structure V} {r r' : Bool × Structure V} (h : s.Ends r)
    (h' : s.Ends r') : r = r' := by
  induction h with
  | violated hpass => cases h' <;> simp_all
  | stable hpass => cases h' <;> simp_all
  | changed hpass _ ih =>
    cases h' with
    | violated hpass' => simp_all
    | stable hpass' => simp_all
    | changed hpass' hends' =>
      obtain rfl := (Prod.mk.inj (hpass.symm.trans hpass')).2
      exact ih hends'

/-- More fuel than unknown values is enough for the passes to end. -/
theorem ends_coerceLoop (fuel : Nat) (s : Structure V) (h : s.unknownAtoms.length < fuel) :
    s.Ends (coerceLoop fuel s) := by
  induction fuel generalizing s with
  | zero => exact absurd h (Nat.not_lt_zero _)
  | succ fuel ih =>
    obtain ⟨-, hcases⟩ := coercePass_spec s.constraints .stable s
    rw [coerceLoop]
    rcases hpass : coercePass s.constraints .stable s with ⟨o, t⟩
    rw [hpass] at hcases
    cases o with
    | violated => exact .violated hpass
    | stable => exact .stable hpass
    | changed =>
      have hlt : t.unknownAtoms.length < s.unknownAtoms.length := by simpa using hcases
      exact .changed hpass (ih t (by omega))

theorem ends_iff {s : Structure V} {r : Bool × Structure V} : s.Ends r ↔ r = s.coerce := by
  have hends : s.Ends s.coerce := ends_coerceLoop _ s (Nat.lt_succ_self _)
  exact ⟨fun h => h.unique hends, fun h => h ▸ hends⟩

/-! ## Sharpenings of a structure -/

/-- The structure `t` is at least as precise as `s`, on the same nodes. -/
structure Refines (t s : Structure V) : Prop where
  /-- It is well formed. -/
  wellFormed : t.WellFormed
  /-- It has the same nodes. -/
  nodes : t.nodes = s.nodes
  /-- Its values are at least as precise. -/
  value_le : ∀ p u, (t.value p u).le (s.value p u)

theorem Refines.embedding {s t : Structure V} (h : t.Refines s) : Embedding id t s :=
  .of_value_le (fun n => by rw [h.nodes]) fun p u _ => h.value_le p u

/-- An embedding by the identity compares all values, since those at other tuples are
false. -/
theorem WellFormed.refines {s t : Structure V} (ht : t.WellFormed) (hs : s.WellFormed)
    (hnodes : t.nodes = s.nodes) (hf : Embedding id t s) : t.Refines s where
  wellFormed := ht
  nodes := hnodes
  value_le p u := by
    by_cases hadm : t.Admits ⟨p, u⟩
    · simpa using hf.value_le p u hadm
    · rw [ht.value_eq_ff hadm, hs.value_eq_ff fun h => hadm ⟨h.1, h.2.1, hnodes ▸ h.2.2⟩]
      exact Kleene.le_refl _

theorem Sharper.refines {s t : Structure V} (h : t.Sharper s) (hs : s.WellFormed) : t.Refines s :=
  h.wellFormed.refines hs h.nodes h.sharper

theorem Refines.sameContents {s t : Structure V} (h : t.Refines s) (h' : s.Refines t) :
    t.sameContents s = true := by
  have hvalues := h.wellFormed.values_eq h'.wellFormed fun p u =>
    Kleene.le_antisymm (h.value_le p u) (h'.value_le p u)
  simp [Structure.sameContents, h.nodes, hvalues]

/-! ## The greatest stable structure -/

/-- Coerce keeps every stable structure that embeds one to one. -/
theorem Embedding.retains_coerce {f : Node → Node} {c s : Structure V} (hf : Embedding f c s)
    (hinj : ∀ m ∈ c.nodes, ∀ n ∈ c.nodes, f m = f n → m = n) (hc : c.WellFormed)
    (hs : s.WellFormed) (hstable : c.Stable s.constraints) :
    s.coerce.1 = true ∧ Retains f c s s.coerce.2 := by
  have hstart : Retains f c s s := ⟨.refl hs, hf⟩
  refine hstart.coerceLoop hc (fun q hq _ k hk a ha => ?_) _ (.refl hs.sharper_coerce.wellFormed)
  obtain ⟨hassigns, hbody⟩ := mem_triggers.1 ha
  have hbehind : ∀ b : Assignment, b.Assigns k.body.freeVars c.nodes → b.map f = a →
      c.eval k.head b ≠ .ff ∧
        ∀ l, k.head.literal? = some l → l.pred ≠ Vocabulary.sm → c.eval k.head b = .tt := by
    rintro b hb rfl
    exact hstable.behind hq.embedding (hq.embedding.le hc hq.wellFormed) hk hb hbody
  refine ⟨hq.nodes ▸ hassigns, fun b hb hba => (hbehind b hb hba).1, fun l hl hsm u hu hut => ?_⟩
  obtain ⟨b, hb, rfl⟩ := hq.embedding.exists_assigns hassigns
  -- One assignment stands behind, so its tuple is the only tuple behind.
  rw [Assignment.tuple?_map, Option.map_eq_some_iff] at hut
  obtain ⟨w, hw, hwu⟩ := hut
  rw [← tuple_eq_of_map_eq hinj (hb.within.of_mem_tuple? hw) hu hwu]
  have htrue := (hbehind b hb rfl).2 l hl hsm
  rw [eval_eq_denote] at htrue
  exact value_of_literal hl hw htrue

theorem coerce_of_stable {s t : Structure V} (hs : s.WellFormed) (ht : t.Refines s)
    (hstable : t.Stable s.constraints) : s.coerce.1 = true ∧ t.Refines s.coerce.2 := by
  obtain ⟨htrue, hretains⟩ :=
    ht.embedding.retains_coerce (fun _ _ _ _ h => h) ht.wellFormed hs hstable
  refine ⟨htrue, ht.wellFormed.refines hretains.wellFormed ?_ hretains.embedding⟩
  rw [ht.nodes, hretains.nodes]

theorem stable_coerce {s : Structure V} (h : s.coerce.1 = true) :
    s.coerce.2.Stable s.constraints :=
  stable_iff.2 (coerce_stable h)

/-- The structure `r` is stable and below `s`, and every other one is below it. -/
structure GreatestStable (s : Structure V) (ks : List Constraint) (r : Structure V) : Prop where
  /-- It is below `s`. -/
  refines : r.Refines s
  /-- It is stable. -/
  stable : r.Stable ks
  /-- Every stable structure below `s` is below it. -/
  greatest : ∀ t : Structure V, t.Refines s → t.Stable ks → t.Refines r

section Coerce

variable {s : Structure V} (hs : s.WellFormed)
include hs

theorem WellFormed.coerce_iff :
    s.coerce.1 = true ↔ ∃ t : Structure V, t.Refines s ∧ t.Stable s.constraints := by
  constructor
  · exact fun h => ⟨s.coerce.2, hs.sharper_coerce.refines hs, stable_coerce h⟩
  · rintro ⟨t, ht, hstable⟩
    exact (coerce_of_stable hs ht hstable).1

theorem WellFormed.greatestStable_coerce (h : s.coerce.1 = true) :
    s.GreatestStable s.constraints s.coerce.2 where
  refines := hs.sharper_coerce.refines hs
  stable := stable_coerce h
  greatest _ ht hstable := (coerce_of_stable hs ht hstable).2

/-- The order of the constraints and their repetitions do not matter for the answer,
and in a success not for what is left. -/
theorem WellFormed.coerce_congr {ks : List Constraint} (hks : ∀ k, k ∈ ks ↔ k ∈ s.constraints) :
    ({ s with constraints := ks } : Structure V).coerce.1 = s.coerce.1 ∧
      (s.coerce.1 = true →
        ({ s with constraints := ks } : Structure V).coerce.2.sameContents s.coerce.2 = true) := by
  have hs' : ({ s with constraints := ks } : Structure V).WellFormed :=
    ⟨hs.admits, hs.stored, hs.node_lt⟩
  have hrefines : ∀ {t : Structure V}, t.Refines { s with constraints := ks } ↔ t.Refines s :=
    ⟨fun h => ⟨h.wellFormed, h.nodes, h.value_le⟩, fun h => ⟨h.wellFormed, h.nodes, h.value_le⟩⟩
  have hanswer : ({ s with constraints := ks } : Structure V).coerce.1 = s.coerce.1 := by
    rw [Bool.eq_iff_iff, hs.coerce_iff, hs'.coerce_iff]
    exact exists_congr fun t => and_congr hrefines (Stable.congr hks)
  refine ⟨hanswer, fun htrue => ?_⟩
  -- Each of the two is stable, so it is below the other.
  have hmine := hs.greatestStable_coerce htrue
  have htheirs := hs'.greatestStable_coerce (hanswer.trans htrue)
  have hle := hmine.greatest _ (hrefines.1 htheirs.refines) ((Stable.congr hks).1 htheirs.stable)
  exact hle.sameContents
    (htheirs.greatest _ (hrefines.2 hmine.refines) ((Stable.congr hks).2 hmine.stable))

end Coerce

theorem coerce_coerce {s : Structure V} (h : s.coerce.1 = true) :
    s.coerce.2.coerce = (true, s.coerce.2) := by
  rw [coerce_eq_self_iff, s.sharpens_coerce.constraints]
  exact stable_coerce h

/-- Coerce computes the greatest stable sharpening.  The passes end.  They end in a
success exactly when there is a stable structure below, and then they leave the greatest
one, otherwise some structure below.  So the answer does not depend on the order of the
constraints, nor does what a success leaves, and to coerce that again changes nothing. -/
theorem WellFormed.coerce_greatest {s : Structure V} (hs : s.WellFormed) :
    (∀ r, s.Ends r ↔ r = s.coerce) ∧
      (s.coerce.1 = true ↔ ∃ t : Structure V, t.Refines s ∧ t.Stable s.constraints) ∧
      (s.coerce.1 = true → s.GreatestStable s.constraints s.coerce.2) ∧
      s.coerce.2.Refines s ∧
      (∀ ks : List Constraint, (∀ k, k ∈ ks ↔ k ∈ s.constraints) →
        ({ s with constraints := ks } : Structure V).coerce.1 = s.coerce.1 ∧
          (s.coerce.1 = true → ({ s with constraints := ks } : Structure V).coerce.2.sameContents
            s.coerce.2 = true)) ∧
      (s.coerce.1 = true → s.coerce.2.coerce = (true, s.coerce.2)) :=
  ⟨fun _ => ends_iff, hs.coerce_iff, hs.greatestStable_coerce, hs.sharper_coerce.refines hs,
    fun _ => hs.coerce_congr, coerce_coerce⟩

/-- A cell that `x` points to, about which nothing else is known. -/
def pointedCell (ks : List Constraint) : Structure cellVocabulary :=
  let s := newNodes 1 { constraints := ks }
  ((s.set Vocabulary.kill [0] .unknown).set 6 [0] .tt).set 7 [0, 0] .unknown

/-- What `x` points to is linked to itself. -/
def linksItself : Constraint := .new (.atom 6 [0]) (.atom 7 [0, 0])

/-- What is linked to itself is not killed. -/
def sparesLoops : Constraint := .new (.atom 7 [0, 0]) (.neg (.atom Vocabulary.kill [0]))

/-- What `x` points to is not pointed to by `x`. -/
def forbidsPointing : Constraint := .new (.atom 6 [0]) (.neg (.atom 6 [0]))

/-- The first constraint applies only once the second one has, so it takes two passes. -/
theorem coerce_greatest_pointedCell :
    let s := pointedCell [sparesLoops, linksItself]
    s.WellFormed ∧ s.coerce.1 = true ∧ s.Ends s.coerce ∧
      s.GreatestStable s.constraints s.coerce.2 ∧ s.coerce.2.value 7 [0, 0] = .tt ∧
      s.coerce.2.value Vocabulary.kill [0] = .ff ∧
      (pointedCell [linksItself, sparesLoops]).coerce.2.sameContents s.coerce.2 = true ∧
      s.coerce.2.coerce = (true, s.coerce.2) := by
  intro s
  have hs : s.WellFormed := by decide
  have htrue : s.coerce.1 = true := by decide
  obtain ⟨hends, -, hgreatest, -, horder, hagain⟩ := hs.coerce_greatest
  have hperm : [linksItself, sparesLoops].Perm s.constraints := .swap sparesLoops linksItself []
  have hswapped := (horder _ fun _ => hperm.mem_iff).2 htrue
  exact ⟨hs, htrue, (hends _).2 rfl, hgreatest htrue, by decide, by decide, hswapped,
    hagain htrue⟩

/-- A violation is found with what was changed before it, so what is left then depends
on the order of the constraints. -/
theorem coerce_violation_depends_on_order :
    (pointedCell [linksItself, forbidsPointing]).WellFormed ∧
      (pointedCell [linksItself, forbidsPointing]).coerce.1 = false ∧
      (pointedCell [forbidsPointing, linksItself]).coerce.1 = false ∧
      (pointedCell [linksItself, forbidsPointing]).coerce.2.sameContents
        (pointedCell [forbidsPointing, linksItself]).coerce.2 = false := by
  decide

end Structure

end ShapeAnalysis
