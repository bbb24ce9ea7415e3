import Mathlib.Data.List.Duplicate
import ShapeAnalysis.Structure.Coerce
import ShapeAnalysis.Proofs.Embedding

/-!
# Coerce keeps legal configurations

Every change makes an unknown atom definite, so the passes end in one that
changes nothing, or in a violation (`coerceLoop_spec`).

A configuration is *legal* when it satisfies the constraints.  Where the body of
a constraint is true in a structure, it is true at every assignment behind, so
the head is true there in a legal configuration.  Demanding the head of the
structure then takes nothing away from it.

One case is different.  When a literal head repeats a variable and the variable
stands for a summary node, the sharpened tuple also stands for tuples of
different nodes, about which the constraint says nothing.  A configuration is
kept exactly when it happens to have the demanded value there as well (`Meets`).
Two cells with loops show that a legal configuration can be lost, and outside of
this case none is (`RepeatsSingle`).
-/

namespace ShapeAnalysis

namespace Structure

variable {V : Vocabulary}

/-! ## Legal configurations -/

/-- The head of the constraint is true wherever its body is. -/
def Satisfies (s : Structure V) (k : Constraint) : Prop :=
  ∀ a : Assignment, a.Assigns k.body.freeVars s.nodes → s.eval k.body a = .tt →
    s.eval k.head a = .tt

theorem mem_triggers {s : Structure V} {k : Constraint} {a : Assignment} :
    a ∈ s.triggers k ↔ a.Assigns k.body.freeVars s.nodes ∧ s.eval k.body a = .tt := by
  rw [eval_eq_denote, triggers, List.mem_filterMap]
  constructor
  · rintro ⟨⟨b, v⟩, hmem, hb⟩
    obtain ⟨hb', hval, -⟩ := mem_solutions.1 hmem
    simp only [Option.ite_none_right_eq_some, Option.some.injEq] at hb
    obtain ⟨rfl, rfl⟩ := hb
    exact ⟨hb', hval⟩
  · rintro ⟨ha, hval⟩
    exact ⟨(a, .tt), mem_solutions.2 ⟨ha, hval, by decide⟩, by simp⟩

instance (s : Structure V) (k : Constraint) : Decidable (s.Satisfies k) :=
  decidable_of_iff (∀ a ∈ s.triggers k, s.eval k.head a = .tt)
    ⟨fun h a ha hbody => h a (mem_triggers.2 ⟨ha, hbody⟩),
     fun h a ha => h a (mem_triggers.1 ha).1 (mem_triggers.1 ha).2⟩

/-- Where a constraint may apply, the variables that its literal head repeats
stand for single nodes. -/
def RepeatsSingle (s : Structure V) : Prop :=
  ∀ k ∈ s.constraints, ∀ l : Formula.Literal PredId, k.head.literal? = some l →
    ∀ a : Assignment, a.Assigns k.body.freeVars s.nodes → s.eval k.body a ≠ .ff →
    ∀ v : Var, l.vars.Duplicate v → ∀ n, a.get? v = some n → ¬ s.isSummary n

theorem repeatsSingle_of_nodup {s : Structure V}
    (h : ∀ k ∈ s.constraints, ∀ l, k.head.literal? = some l → l.vars.Nodup) : s.RepeatsSingle :=
  fun k hk l hl _ _ _ _ hv => absurd (h k hk l hl) hv.not_nodup

/-- A variable at two different nodes is repeated. -/
theorem duplicate_of_mem_zip {v : Var} {m n : Node} (hmn : m ≠ n) {vars : List Var}
    {u : List Node} (hm : (v, m) ∈ vars.zip u) (hn : (v, n) ∈ vars.zip u) :
    vars.Duplicate v := by
  induction vars generalizing u with
  | nil => cases hm
  | cons w vars ih =>
    cases u with
    | nil => cases hm
    | cons k u =>
      rw [List.zip_cons_cons, List.mem_cons, Prod.mk.injEq] at hm hn
      rcases hm with ⟨rfl, rfl⟩ | hm
      · rcases hn with ⟨-, rfl⟩ | hn
        · exact absurd rfl hmn
        · exact .cons_mem (List.of_mem_zip hn).1
      · rcases hn with ⟨rfl, rfl⟩ | hn
        · exact .cons_mem (List.of_mem_zip hm).1
        · exact .cons_duplicate (ih hm hn)

theorem denote_literal {s : Structure V} {φ : Formula PredId} {l : Formula.Literal PredId}
    (hl : φ.literal? = some l) {a : Assignment} {t : List Node} (ht : a.tuple? l.vars = some t) :
    s.denote φ a = if l.positive then s.value l.pred t else (s.value l.pred t).not := by
  cases φ with
  | atom p vars =>
    cases hl
    rw [denote_atom ht, if_pos rfl]
  | neg ψ =>
    cases ψ with
    | atom p vars =>
      cases hl
      rw [denote, denote_atom ht, if_neg Bool.false_ne_true]
    | _ => cases hl
  | _ => cases hl

/-- A true literal fixes its value. -/
theorem value_of_literal {s : Structure V} {φ : Formula PredId} {l : Formula.Literal PredId}
    (hl : φ.literal? = some l) {a : Assignment} {t : List Node} (ht : a.tuple? l.vars = some t)
    (h : s.denote φ a = .tt) : s.value l.pred t = .ofBool l.positive := by
  rw [denote_literal hl ht] at h
  cases hpos : l.positive with
  | true => simpa [hpos, Kleene.ofBool] using h
  | false =>
    simp only [hpos, Bool.false_eq_true, if_false] at h
    cases hval : s.value l.pred t <;> simp_all [Kleene.not, Kleene.ofBool]

theorem value_eq_unknown_of_literal {s : Structure V} {φ : Formula PredId}
    {l : Formula.Literal PredId} (hl : φ.literal? = some l) {a : Assignment} {t : List Node}
    (ht : a.tuple? l.vars = some t) (h : s.denote φ a = .unknown) :
    s.value l.pred t = .unknown := by
  rw [denote_literal hl ht] at h
  split at h
  · exact h
  · cases hval : s.value l.pred t <;> simp_all [Kleene.not]

/-- A literal with an unbound variable has a definite value. -/
theorem exists_tuple_of_unknown {s : Structure V} {φ : Formula PredId}
    {l : Formula.Literal PredId} (hl : φ.literal? = some l) {a : Assignment}
    (h : s.denote φ a = .unknown) : ∃ t, a.tuple? l.vars = some t := by
  refine Option.ne_none_iff_exists'.1 fun hnone => ?_
  cases φ with
  | atom p vars =>
    cases hl
    simp [denote, atomValue, hnone] at h
  | neg ψ =>
    cases ψ with
    | atom p vars =>
      cases hl
      simp [denote, atomValue, hnone, Kleene.not] at h
    | _ => cases hl
  | _ => cases hl

/-! ## What a pass can do -/

/-- What demanding a head can come to. -/
theorem demand_cases (s : Structure V) (head : Formula PredId) (a : Assignment) :
    (s.eval head a = .ff ∧ s.demand head a = (.violated, s)) ∨
      (s.eval head a ≠ .ff ∧ s.demand head a = (.stable, s)) ∨
      ∃ l t, s.eval head a = .unknown ∧ head.literal? = some l ∧ l.pred ≠ Vocabulary.sm ∧
        a.tuple? l.vars = some t ∧
        s.demand head a = (.changed, s.set l.pred t (.ofBool l.positive)) := by
  unfold demand
  cases hval : s.eval head a with
  | ff => exact .inl ⟨rfl, rfl⟩
  | tt => exact .inr (.inl ⟨by simp, rfl⟩)
  | unknown =>
    refine .inr ?_
    cases hl : head.literal? with
    | none => exact .inl ⟨by simp, rfl⟩
    | some l =>
      by_cases hsm : l.pred = Vocabulary.sm
      · exact .inl ⟨by simp, by simp [hsm]⟩
      · cases ht : a.tuple? l.vars with
        | none => exact .inl ⟨by simp, by simp [hsm, ht]⟩
        | some t => exact .inr ⟨l, t, rfl, rfl, hsm, ht, by simp [hsm, ht]⟩

/-- A demand finds nothing to change when the head is not false, and true if it is a
literal of another predicate than `sm`. -/
theorem demand_eq_stable_iff {s : Structure V} {head : Formula PredId} {a : Assignment} :
    s.demand head a = (.stable, s) ↔ s.eval head a ≠ .ff ∧
      ∀ l, head.literal? = some l → l.pred ≠ Vocabulary.sm → s.eval head a = .tt := by
  rcases s.demand_cases head a with ⟨hff, heq⟩ | ⟨hff, heq⟩ | ⟨l, t, hval, hl, hsm, -, heq⟩
  · simp [heq, hff]
  · refine ⟨fun hstable => ⟨hff, fun l hl hsm => ?_⟩, fun _ => heq⟩
    cases hval : s.eval head a with
    | tt => rfl
    | ff => exact absurd hval hff
    | unknown =>
      -- The literal would have been set.
      obtain ⟨t, ht⟩ := exists_tuple_of_unknown hl ((s.eval_eq_denote head a).symm.trans hval)
      simp [demand, hval, hl, hsm, ht] at hstable
  · rw [heq]
    constructor
    · intro h
      cases h
    · rintro ⟨-, htrue⟩
      rw [htrue l hl hsm] at hval
      cases hval

/-- The structure `r` is `s` after some unknown values, one after the other, were
made definite. -/
inductive Sharpens : Structure V → Structure V → Prop
  | refl (s : Structure V) : Sharpens s s
  | set {r s : Structure V} {p : PredId} {t : List Node} {k : Kleene} :
      Sharpens r s → r.value p t = .unknown → k ≠ .unknown → Sharpens (r.set p t k) s

theorem Sharpens.trans {q r s : Structure V} (h₁ : q.Sharpens r) (h₂ : r.Sharpens s) :
    q.Sharpens s := by
  induction h₁ with
  | refl => exact h₂
  | set _ hunknown hk ih => exact (ih h₂).set hunknown hk

section Sharpens

variable {r s : Structure V} (h : r.Sharpens s)
include h

theorem Sharpens.nodes : r.nodes = s.nodes := by
  induction h with
  | refl => rfl
  | set _ _ _ ih => exact ih

theorem Sharpens.constraints : r.constraints = s.constraints := by
  induction h with
  | refl => rfl
  | set _ _ _ ih => exact ih

theorem Sharpens.closed (hs : s.Closed) : r.Closed := by
  induction h with
  | refl => exact hs
  | @set r s p t k _ hunknown _ ih =>
    have hne : r.value p t ≠ .ff := by simp [hunknown]
    exact (ih hs).set ((ih hs).within_of_ne_ff hne) k

/-- Each change leaves fewer unknown values. -/
theorem Sharpens.eq_or_length_lt :
    r = s ∨ r.unknownAtoms.length < s.unknownAtoms.length := by
  induction h with
  | refl => exact .inl rfl
  | @set r s p t k _ hunknown hk ih =>
    have hlt : ((r.set p t k).unknownAtoms.filter fun _ => true).length <
        (r.unknownAtoms.filter fun _ => true).length := by
      refine length_filter_unknownAtoms_lt (fun b _ hb => ?_) (a := ⟨p, t⟩) rfl hunknown
        (by simpa using hk)
      rw [value_set] at hb
      split at hb
      · exact absurd hb hk
      · exact hb
    simp only [List.filter_true] at hlt
    rcases ih with rfl | hle
    · exact .inr hlt
    · exact .inr (Nat.lt_trans hlt hle)

end Sharpens

/-- The structure `r` is `s` with some unknown values made definite. -/
structure Sharper (r s : Structure V) : Prop where
  /-- It is well formed. -/
  wellFormed : r.WellFormed
  /-- It has the same nodes. -/
  nodes : r.nodes = s.nodes
  /-- It has the same constraints. -/
  constraints : r.constraints = s.constraints
  /-- Its values are at least as precise. -/
  sharper : Embedding id r s

theorem Sharper.refl {s : Structure V} (hs : s.WellFormed) : s.Sharper s :=
  ⟨hs, rfl, rfl, Embedding.refl s⟩

theorem Sharper.trans {q r s : Structure V} (h₁ : q.Sharper r) (h₂ : r.Sharper s) :
    q.Sharper s :=
  ⟨h₁.wellFormed, h₁.nodes.trans h₂.nodes, h₁.constraints.trans h₂.constraints,
    h₂.sharper.comp h₁.sharper⟩

theorem Sharper.set {r s : Structure V} (h : r.Sharper s) {p : PredId} {t : List Node}
    (ht : r.value p t = .unknown) (k : Kleene) : (r.set p t k).Sharper s where
  wellFormed := h.wellFormed.set (h.wellFormed.admits_of_unknown ht) k
  nodes := h.nodes
  constraints := h.constraints
  sharper := h.sharper.comp (Embedding.set_id (by simp [ht]))

theorem Sharpens.sharper {r s : Structure V} (h : r.Sharpens s) (hs : s.WellFormed) :
    r.Sharper s := by
  induction h with
  | refl => exact .refl hs
  | set _ hunknown _ ih => exact (ih hs).set hunknown _

/-- A body that is true stays true when values are made definite. -/
theorem Sharper.mem_triggers {r s : Structure V} (h : r.Sharper s) (hs : s.WellFormed)
    {k : Constraint} {a : Assignment} (ha : a ∈ s.triggers k) : a ∈ r.triggers k := by
  obtain ⟨hassigns, hbody⟩ := Structure.mem_triggers.1 ha
  have hassigns' : a.Assigns k.body.freeVars r.nodes := h.nodes ▸ hassigns
  rw [← a.map_id] at hbody
  exact Structure.mem_triggers.2
    ⟨hassigns', h.sharper.eval_eq_tt (h.sharper.le h.wellFormed hs) hassigns'.within hbody⟩

theorem coercePass_cons (k : Constraint) (rest : List Constraint) (acc : Sharpening)
    (s : Structure V) : coercePass (k :: rest) acc s =
      if (demandAll k.head (s.triggers k) acc s).1 = .violated then
        (.violated, (demandAll k.head (s.triggers k) acc s).2)
      else coercePass rest (demandAll k.head (s.triggers k) acc s).1
        (demandAll k.head (s.triggers k) acc s).2 := by
  rw [coercePass]
  rcases demandAll k.head (s.triggers k) acc s with ⟨o, s'⟩
  cases o <;> rfl

/-- A demand is a violation, or finds nothing to change, or makes one unknown value
definite. -/
theorem demand_spec (head : Formula PredId) (a : Assignment) (s : Structure V) :
    (s.demand head a).2.Sharpens s ∧
      ((s.demand head a).1 = .violated ∨ s.demand head a = (.stable, s) ∨
        (s.demand head a).1 = .changed ∧
          (s.demand head a).2.unknownAtoms.length < s.unknownAtoms.length) := by
  rcases s.demand_cases head a with ⟨-, heq⟩ | ⟨-, heq⟩ | ⟨l, t, hval, hl, -, ht, heq⟩
  · rw [heq]
    exact ⟨.refl s, .inl rfl⟩
  · exact ⟨heq ▸ .refl s, .inr (.inl heq)⟩
  · rw [heq]
    rw [eval_eq_denote] at hval
    have hunknown := value_eq_unknown_of_literal hl ht hval
    have hdefinite : Kleene.ofBool l.positive ≠ .unknown := by cases l.positive <;> decide
    have hset : (s.set l.pred t (.ofBool l.positive)).Sharpens s :=
      (Sharpens.refl s).set hunknown hdefinite
    refine ⟨hset, .inr (.inr ⟨rfl, hset.eq_or_length_lt.resolve_left fun h => hdefinite ?_⟩)⟩
    have hval : (s.set l.pred t (.ofBool l.positive)).value l.pred t = .ofBool l.positive := by
      simp
    rw [← hval, h, hunknown]

/-- Demands at a list of assignments stop at a violation, or find nothing to
change, or leave fewer unknown values. -/
theorem demandAll_spec (head : Formula PredId) (as : List Assignment) (acc : Sharpening)
    (s : Structure V) :
    (demandAll head as acc s).2.Sharpens s ∧
      ((demandAll head as acc s).1 = .violated ∨
        (demandAll head as acc s = (acc, s) ∧ ∀ a ∈ as, s.demand head a = (.stable, s)) ∨
        (demandAll head as acc s).1 = .changed ∧
          (demandAll head as acc s).2.unknownAtoms.length < s.unknownAtoms.length) := by
  induction as generalizing acc s with
  | nil => exact ⟨.refl s, .inr (.inl ⟨rfl, by simp⟩)⟩
  | cons a rest ih =>
    obtain ⟨hsharpens, hcases⟩ := demand_spec head a s
    rw [demandAll]
    rcases hd : s.demand head a with ⟨o, s'⟩
    rw [hd] at hsharpens hcases
    cases o with
    | violated => exact ⟨hsharpens, .inl rfl⟩
    | stable =>
      have heq : s' = s := by simpa using hcases
      subst heq
      obtain ⟨hrest, hrestCases⟩ := ih acc s'
      refine ⟨hrest, hrestCases.imp id (Or.imp (fun h => ⟨h.1, ?_⟩) id)⟩
      exact List.forall_mem_cons.2 ⟨hd, h.2⟩
    | changed =>
      have hlt : s'.unknownAtoms.length < s.unknownAtoms.length := by simpa using hcases
      dsimp only at hsharpens ⊢
      obtain ⟨hrest, hrestCases⟩ := ih .changed s'
      refine ⟨hrest.trans hsharpens, hrestCases.imp id fun h => .inr ?_⟩
      rcases h with ⟨heq, -⟩ | ⟨hchanged, hlt'⟩
      · rw [heq]
        exact ⟨rfl, hlt⟩
      · exact ⟨hchanged, Nat.lt_trans hlt' hlt⟩

/-- The same for a pass over constraints. -/
theorem coercePass_spec (ks : List Constraint) (acc : Sharpening) (s : Structure V) :
    (coercePass ks acc s).2.Sharpens s ∧
      ((coercePass ks acc s).1 = .violated ∨
        (coercePass ks acc s = (acc, s) ∧
          ∀ k ∈ ks, ∀ a ∈ s.triggers k, s.demand k.head a = (.stable, s)) ∨
        (coercePass ks acc s).1 = .changed ∧
          (coercePass ks acc s).2.unknownAtoms.length < s.unknownAtoms.length) := by
  induction ks generalizing acc s with
  | nil => exact ⟨.refl s, .inr (.inl ⟨rfl, by simp⟩)⟩
  | cons k rest ih =>
    obtain ⟨hsharpens, hcases⟩ := demandAll_spec k.head (s.triggers k) acc s
    rw [coercePass_cons]
    rcases hd : demandAll k.head (s.triggers k) acc s with ⟨o, s'⟩
    rw [hd] at hsharpens hcases
    dsimp only at hsharpens hcases ⊢
    by_cases ho : o = .violated
    · rw [if_pos ho]
      exact ⟨hsharpens, .inl rfl⟩
    · rw [if_neg ho]
      obtain ⟨hrest, hrestCases⟩ := ih o s'
      refine ⟨hrest.trans hsharpens, hrestCases.imp id fun h => ?_⟩
      rcases hcases.resolve_left ho with ⟨heq, hstable⟩ | ⟨rfl, hlt⟩
      · obtain ⟨rfl, rfl⟩ := Prod.mk.inj heq
        exact h.imp (fun h => ⟨h.1, List.forall_mem_cons.2 ⟨hstable, h.2⟩⟩) id
      · right
        rcases h with ⟨heq, -⟩ | ⟨hchanged, hlt'⟩
        · rw [heq]
          exact ⟨rfl, hlt⟩
        · exact ⟨hchanged, Nat.lt_trans hlt' hlt⟩

/-- With more fuel than unknown values the passes end in one that changes
nothing, unless a constraint is violated. -/
theorem coerceLoop_spec (fuel : Nat) (s : Structure V) :
    (coerceLoop fuel s).2.Sharpens s ∧
      (s.unknownAtoms.length < fuel → (coerceLoop fuel s).1 = true →
        ∀ k ∈ s.constraints, ∀ a ∈ (coerceLoop fuel s).2.triggers k,
          (coerceLoop fuel s).2.demand k.head a = (.stable, (coerceLoop fuel s).2)) := by
  induction fuel generalizing s with
  | zero => exact ⟨.refl s, fun h => absurd h (Nat.not_lt_zero _)⟩
  | succ fuel ih =>
    obtain ⟨hsharpens, hcases⟩ := coercePass_spec s.constraints .stable s
    rw [coerceLoop]
    rcases hd : coercePass s.constraints .stable s with ⟨o, s'⟩
    rw [hd] at hsharpens hcases
    cases o with
    | violated => exact ⟨hsharpens, fun _ h => by cases h⟩
    | stable =>
      obtain ⟨heq, hstable⟩ : s' = s ∧ ∀ k ∈ s.constraints, ∀ a ∈ s.triggers k,
          s.demand k.head a = (.stable, s) := by simpa using hcases
      subst heq
      exact ⟨hsharpens, fun _ _ => hstable⟩
    | changed =>
      have hlt : s'.unknownAtoms.length < s.unknownAtoms.length := by simpa using hcases
      dsimp only at hsharpens ⊢
      obtain ⟨hrest, hstable⟩ := ih s'
      refine ⟨hrest.trans hsharpens, fun hfuel htrue => ?_⟩
      rw [← hsharpens.constraints]
      exact hstable (by omega) htrue

theorem sharpens_coerce (s : Structure V) : s.coerce.2.Sharpens s := (coerceLoop_spec _ s).1

theorem WellFormed.sharper_coerce {s : Structure V} (hs : s.WellFormed) : s.coerce.2.Sharper s :=
  s.sharpens_coerce.sharper hs

/-- What coerce leaves demands nothing more. -/
theorem coerce_stable {s : Structure V} (h : s.coerce.1 = true) : ∀ k ∈ s.constraints,
    ∀ a ∈ s.coerce.2.triggers k, s.coerce.2.demand k.head a = (.stable, s.coerce.2) :=
  (coerceLoop_spec _ s).2 (Nat.lt_succ_self _) h

/-! ## Keeping a configuration -/

/-- The structure `s` is a sharpened `s₀` that still describes `c` by `f`. -/
structure Retains (f : Node → Node) (c s₀ s : Structure V) : Prop extends s.Sharper s₀ where
  /-- It describes `c`. -/
  embedding : Embedding f c s

/-- The head demanded at an assignment is false at no assignment behind, and a
literal has the demanded value at every tuple behind. -/
structure Justified (f : Node → Node) (c s₀ : Structure V) (head : Formula PredId)
    (vars : List Var) (a : Assignment) : Prop where
  /-- The assignment is to the nodes. -/
  assigns : a.Assigns vars s₀.nodes
  /-- The head is not false behind it. -/
  behind : ∀ b : Assignment, b.Assigns vars c.nodes → b.map f = a → c.eval head b ≠ .ff
  /-- The tuples behind have the demanded value. -/
  demanded : ∀ l, head.literal? = some l → l.pred ≠ Vocabulary.sm → ∀ u : List Node,
    (∀ n ∈ u, n ∈ c.nodes) → a.tuple? l.vars = some (u.map f) →
    c.value l.pred u = .ofBool l.positive

section Run

variable {f : Node → Node} {c s₀ : Structure V} (hc : c.WellFormed)
include hc

theorem Retains.demand {s : Structure V} (h : Retains f c s₀ s) {head : Formula PredId}
    {vars : List Var} {a : Assignment} (ha : Justified f c s₀ head vars a) :
    (s.demand head a).1 ≠ .violated ∧ Retains f c s₀ (s.demand head a).2 := by
  rcases s.demand_cases head a with ⟨hff, -⟩ | ⟨-, heq⟩ | ⟨l, t, hval, hl, hsm, ht, heq⟩
  · -- The head is not false, since it is not false at some assignment behind.
    obtain ⟨b, hb, rfl⟩ := h.embedding.exists_assigns (h.nodes ▸ ha.assigns)
    have hle := h.embedding.le hc h.wellFormed
    exact absurd hff (h.embedding.eval_ne_ff hle hb.within (ha.behind b hb rfl))
  · rw [heq]
    exact ⟨by simp, h⟩
  · rw [heq]
    rw [eval_eq_denote] at hval
    refine ⟨by simp, h.toSharper.set (value_eq_unknown_of_literal hl ht hval) _, ?_⟩
    refine h.embedding.set hsm fun u hu hut => ?_
    exact Kleene.le_of_eq (ha.demanded l hl hsm u hu (hut ▸ ht))

theorem Retains.demandAll {head : Formula PredId} {vars : List Var} (as : List Assignment)
    (has : ∀ a ∈ as, Justified f c s₀ head vars a) {acc : Sharpening} (hacc : acc ≠ .violated)
    {s : Structure V} (h : Retains f c s₀ s) :
    (Structure.demandAll head as acc s).1 ≠ .violated ∧
      Retains f c s₀ (Structure.demandAll head as acc s).2 := by
  induction as generalizing acc s with
  | nil => exact ⟨hacc, h⟩
  | cons a rest ih =>
    obtain ⟨hne, hret⟩ := h.demand hc (has a List.mem_cons_self)
    have hrest := fun b hb => has b (List.mem_cons_of_mem _ hb)
    rw [Structure.demandAll]
    rcases hd : s.demand head a with ⟨o, s'⟩
    rw [hd] at hne hret
    cases o with
    | violated => exact absurd rfl hne
    | stable => exact ih hrest hacc hret
    | changed => exact ih hrest (by decide) hret

variable {r : Structure V} (hjust : ∀ s, Retains f c s₀ s → r.Sharper s → ∀ k ∈ s₀.constraints,
  ∀ a ∈ s.triggers k, Justified f c s₀ k.head k.body.freeVars a)
include hjust

/-- A pass keeps `c` when every demand on the way to `r` is justified. -/
theorem Retains.coercePass (ks : List Constraint) (hks : ∀ k ∈ ks, k ∈ s₀.constraints)
    {acc : Sharpening} (hacc : acc ≠ .violated) {s : Structure V} (h : Retains f c s₀ s)
    (hr : r.Sharper (Structure.coercePass ks acc s).2) :
    (Structure.coercePass ks acc s).1 ≠ .violated ∧
      Retains f c s₀ (Structure.coercePass ks acc s).2 := by
  induction ks generalizing acc s with
  | nil => exact ⟨hacc, h⟩
  | cons k rest ih =>
    have hrs := hr.trans ((coercePass_spec (k :: rest) acc s).1.sharper h.wellFormed)
    obtain ⟨hne, hret⟩ := h.demandAll hc (s.triggers k)
      (hjust s h hrs k (hks k List.mem_cons_self)) hacc
    rw [coercePass_cons, if_neg hne] at hr ⊢
    exact ih (fun k' hk' => hks k' (List.mem_cons_of_mem _ hk')) hne hret hr

theorem Retains.coerceLoop (fuel : Nat) {s : Structure V} (h : Retains f c s₀ s)
    (hr : r.Sharper (Structure.coerceLoop fuel s).2) :
    (Structure.coerceLoop fuel s).1 = true ∧ Retains f c s₀ (Structure.coerceLoop fuel s).2 := by
  induction fuel generalizing s with
  | zero => exact ⟨rfl, h⟩
  | succ fuel ih =>
    have hstable : Sharpening.stable ≠ .violated := by decide
    have hpass := h.coercePass hc hjust s.constraints (fun k hk => h.constraints ▸ hk) hstable
    have hsharper := (coercePass_spec s.constraints .stable s).1.sharper h.wellFormed
    rw [Structure.coerceLoop] at hr ⊢
    rcases hd : Structure.coercePass s.constraints .stable s with ⟨o, s'⟩
    rw [hd] at hr hpass hsharper
    cases o with
    | violated => exact absurd rfl (hpass hr).1
    | stable => exact ⟨rfl, (hpass hr).2⟩
    | changed =>
      have hrs := hr.trans ((coerceLoop_spec fuel s').1.sharper hsharper.wellFormed)
      exact ih (hpass hrs).2 hr

end Run

/-- What a trigger demands is justified in a legal configuration that has the
demanded value at the tuples behind. -/
theorem Retains.justified {f : Node → Node} {c s₀ s : Structure V} (hc : c.WellFormed)
    (h : Retains f c s₀ s) {k : Constraint} (hsat : c.Satisfies k) {a : Assignment}
    (ha : a ∈ s.triggers k)
    (hdemanded : ∀ l, k.head.literal? = some l → l.pred ≠ Vocabulary.sm → ∀ u : List Node,
      (∀ n ∈ u, n ∈ c.nodes) → a.tuple? l.vars = some (u.map f) →
      c.value l.pred u = .ofBool l.positive) :
    Justified f c s₀ k.head k.body.freeVars a := by
  obtain ⟨hassigns, hbody⟩ := mem_triggers.1 ha
  refine ⟨h.nodes ▸ hassigns, fun b hb hba => ?_, hdemanded⟩
  rw [← hba] at hbody
  rw [hsat b hb (h.embedding.eval_eq_tt (h.embedding.le hc h.wellFormed) hb.within hbody)]
  decide

/-! ## Heads that repeat no variable on a summary node -/

/-- Where repeated variables stand for single nodes, a tuple behind a demanded
literal comes from one assignment, at which the head is true. -/
theorem Retains.demanded_of_single {f : Node → Node} {c s₀ s : Structure V} (hc : c.WellFormed)
    (hs₀ : s₀.WellFormed) (h : Retains f c s₀ s) (hsingle : s₀.RepeatsSingle) {k : Constraint}
    (hk : k ∈ s₀.constraints) (hsat : c.Satisfies k) {a : Assignment} (ha : a ∈ s.triggers k)
    {l : Formula.Literal PredId} (hl : k.head.literal? = some l) {u : List Node}
    (hu : ∀ n ∈ u, n ∈ c.nodes) (ht : a.tuple? l.vars = some (u.map f)) :
    c.value l.pred u = .ofBool l.positive := by
  obtain ⟨hassigns, hbody⟩ := mem_triggers.1 ha
  have hbody₀ : s₀.eval k.body a ≠ .ff := by
    rw [← a.map_id]
    exact h.sharper.eval_ne_ff (h.sharper.le h.wellFormed hs₀) hassigns.within (by simp [hbody])
  have hget : ∀ v m, (v, m) ∈ l.vars.zip u → a.get? v = some (f m) := by
    intro v m hm
    refine (Assignment.tuple?_eq_some_iff_zip.1 ht).2 v (f m) ?_
    rw [List.zip_map_right]
    exact List.mem_map.2 ⟨(v, m), hm, rfl⟩
  obtain ⟨b, hb, hba, hbu⟩ := h.embedding.exists_lift hassigns hu ht fun v m n hm hn => by
    by_contra hmn
    have hmn' : f m = f n := Option.some.inj ((hget v m hm).symm.trans (hget v n hn))
    have hmc := hu m (List.of_mem_zip hm).2
    have hsum := h.embedding.summary m hmc n (hu n (List.of_mem_zip hn).2) hmn hmn'
    have hsum₀ := h.sharper.isSummary (h.embedding.maps m hmc) hsum
    exact hsingle k hk l hl a (h.nodes ▸ hassigns) hbody₀ v (duplicate_of_mem_zip hmn hm hn)
      (f m) (hget v m hm) hsum₀
  rw [← hba] at hbody
  have htt := hsat b hb (h.embedding.eval_eq_tt (h.embedding.le hc h.wellFormed) hb.within hbody)
  rw [eval_eq_denote] at htt
  exact value_of_literal hl hbu htt

theorem retains_coerce {f : Node → Node} {c s : Structure V} (hc : c.WellFormed)
    (hs : s.WellFormed) (hf : Embedding f c s) (hsingle : s.RepeatsSingle)
    (hsat : ∀ k ∈ s.constraints, c.Satisfies k) :
    s.coerce.1 = true ∧ Retains f c s s.coerce.2 := by
  have hstart : Retains f c s s := ⟨.refl hs, hf⟩
  refine hstart.coerceLoop hc (fun t ht _ k hk a ha => ?_) _ (.refl hs.sharper_coerce.wellFormed)
  refine ht.justified hc (hsat k hk) ha fun l hl _ u hu hut => ?_
  exact ht.demanded_of_single hc hs hsingle hk (hsat k hk) ha hl hu hut

/-! ## The exact condition -/

/-- The configuration has the value that a literal head demands at every tuple
behind, also where different nodes stand behind one variable. -/
def Meets (f : Node → Node) (c s : Structure V) : Prop :=
  ∀ k ∈ s.constraints, ∀ l, k.head.literal? = some l → l.pred ≠ Vocabulary.sm →
    ∀ a : Assignment, a.Assigns k.body.freeVars s.nodes → s.eval k.body a = .tt →
    ∀ u : List Node, (∀ n ∈ u, n ∈ c.nodes) → a.tuple? l.vars = some (u.map f) →
    c.value l.pred u = .ofBool l.positive

/-- A stable demand of a literal has been met. -/
theorem value_of_demand_stable {s : Structure V} {head : Formula PredId} {a : Assignment}
    (h : s.demand head a = (.stable, s)) {l : Formula.Literal PredId}
    (hl : head.literal? = some l) (hsm : l.pred ≠ Vocabulary.sm) {t : List Node}
    (ht : a.tuple? l.vars = some t) : s.value l.pred t = .ofBool l.positive := by
  have htt := (demand_eq_stable_iff.1 h).2 l hl hsm
  rw [eval_eq_denote] at htt
  exact value_of_literal hl ht htt

section Exact

variable {f : Node → Node} {c s : Structure V} (hs : s.WellFormed) (hc : c.WellFormed)
include hs hc

theorem meets_of_embedding_coerce (htrue : s.coerce.1 = true) (hf : Embedding f c s.coerce.2) :
    Meets f c s.coerce.2 := by
  intro k hk l hl hsm a ha hbody u hu hut
  have hsharper := hs.sharper_coerce
  have hstable := coerce_stable htrue k (hsharper.constraints ▸ hk) a
    (mem_triggers.2 ⟨ha, hbody⟩)
  have hle := hf.le hc hsharper.wellFormed l.pred hu
  rw [value_of_demand_stable hstable hl hsm hut] at hle
  exact Kleene.eq_of_le hle (by cases l.positive <;> decide)

theorem retains_coerce_of_meets (hf : Embedding f c s) (hsat : ∀ k ∈ s.constraints, c.Satisfies k)
    (hmeets : Meets f c s.coerce.2) : s.coerce.1 = true ∧ Retains f c s s.coerce.2 := by
  have hsharper := hs.sharper_coerce
  have hstart : Retains f c s s := ⟨.refl hs, hf⟩
  refine hstart.coerceLoop hc (fun t ht hr k hk a ha => ?_) _ (.refl hsharper.wellFormed)
  refine ht.justified hc (hsat k hk) ha fun l hl hsm u hu hut => ?_
  -- A trigger on the way is still a trigger at the end.
  obtain ⟨hassigns, hbody⟩ := mem_triggers.1 (hr.mem_triggers ht.wellFormed ha)
  exact hmeets k (hsharper.constraints ▸ hk) l hl hsm a hassigns hbody u hu hut

end Exact

/-- Coerce keeps a legal configuration that the structure describes, by the same
embedding, exactly when the configuration has the demanded values at all tuples
behind.  It has them when no literal head repeats a variable on a summary node. -/
theorem coerce_keeps_legal {f : Node → Node} {c s : Structure V} (hs : s.WellFormed)
    (hc : c.Concrete) (hsat : ∀ k ∈ s.constraints, c.Satisfies k) (hf : Embedding f c s) :
    ((s.coerce.1 = true ∧ Embedding f c s.coerce.2) ↔ Meets f c s.coerce.2) ∧
      (s.RepeatsSingle → s.coerce.1 = true ∧ Embedding f c s.coerce.2) := by
  have hcwf := hc.toWellFormed
  refine ⟨⟨fun h => meets_of_embedding_coerce hs hcwf h.1 h.2, fun hmeets => ?_⟩,
    fun hsingle => ?_⟩
  · obtain ⟨htrue, hret⟩ := retains_coerce_of_meets hs hcwf hf hsat hmeets
    exact ⟨htrue, hret.embedding⟩
  · obtain ⟨htrue, hret⟩ := retains_coerce hcwf hs hf hsingle hsat
    exact ⟨htrue, hret.embedding⟩

/-- Cells behind the first one, to which `x` may point although a constraint
says that it points to nothing with a cell before it. -/
def linkedCells : Structure cellVocabulary :=
  let s := newNodes 2 { constraints := [.new (.atom 7 [0, 1]) (.neg (.atom 6 [1]))] }
  (((s.set Vocabulary.sm [1] .unknown).set 6 [0] .tt).set 6 [1] .unknown).set 7 [0, 1] .tt

theorem coerce_keeps_legal_cells :
    linkedCells.WellFormed ∧ twoCells.Concrete ∧ linkedCells.coerce.2.value 6 [1] = .ff ∧
      linkedCells.coerce.1 = true ∧ Embedding id twoCells linkedCells.coerce.2 :=
  ⟨by decide, by decide, by decide,
    (coerce_keeps_legal (by decide) (by decide) (by decide) (by decide)).2
      (repeatsSingle_of_nodup fun k hk l hl => by
        rw [List.mem_singleton.1 hk] at hl
        cases hl
        decide)⟩

/-- Cells to which `x` points, each with a loop by the constraint. -/
def loopCells : Structure cellVocabulary :=
  let s := newNodes 1 { constraints := [.new (.atom 6 [0]) (.atom 7 [0, 0])] }
  ((s.set Vocabulary.sm [0] .unknown).set 6 [0] .tt).set 7 [0, 0] .unknown

/-- Two cells with loops, not linked to each other. -/
def twoLoops : Structure cellVocabulary :=
  ((((newNodes 2 {}).set 6 [0] .tt).set 6 [1] .tt).set 7 [0, 0] .tt).set 7 [1, 1] .tt

/-- The constraint sets `n` to true between all cells that the summary node
stands for, and two cells that are not linked are lost. -/
theorem coerce_loses_twoLoops :
    loopCells.WellFormed ∧ twoLoops.Concrete ∧
      (∀ k ∈ loopCells.constraints, twoLoops.Satisfies k) ∧
      Embedding (fun _ => 0) twoLoops loopCells ∧
      loopCells.coerce.1 = true ∧ ¬ Embedding (fun _ => 0) twoLoops loopCells.coerce.2 := by
  decide

end Structure

end ShapeAnalysis
