import ShapeAnalysis.Proofs.Abstraction
import ShapeAnalysis.Proofs.Fixpoint
import ShapeAnalysis.Proofs.Pipeline

/-!
# Blur does not undo coerce

The pipeline blurs after it has coerced, and nothing checks its results again.  It need
not, as long as no literal head repeats a variable and blur does not overlook a tuple: what
coerce accepts as it is, it also accepts after blur (`Stable.blur`).  A tuple that blur
overlooks can make a body true that was not, and then it need not
(`blur_undoes_accepted`).

A body that is true after blur is true at every assignment behind (`Stable.behind`), so
the constraint applies there.  When the variables of a literal head are all different,
every tuple that is merged into the tuple of the head comes from such an assignment
(`Stable.value_behind`).  So all the values that are joined are the demanded one, and the
join is too.

An update with the wrong number of variables leaves a structure that is not well formed.
It is still closed, and nothing here asks for more.
-/

namespace ShapeAnalysis

namespace Structure

variable {V : Vocabulary}

/-! ## Behind a body that is true -/

section Behind

variable {f : Node → Node} {s t : Structure V} {ks : List Constraint} (h : s.Stable ks)
  (hf : Embedding f s t)
  (hle : ∀ p {u}, (∀ n ∈ u, n ∈ s.nodes) → (s.value p u).le (t.value p (u.map f)))
  {k : Constraint} (hk : k ∈ ks) {a : Assignment} (ha : a.Assigns k.body.freeVars t.nodes)
  (hbody : t.eval k.body a = .tt)
include h hf hle hk ha hbody

theorem Stable.head_ne_ff : t.eval k.head a ≠ .ff := by
  obtain ⟨b, hb, rfl⟩ := hf.exists_assigns ha
  exact hf.eval_ne_ff hle hb.within (h.behind hf hle hk hb hbody).1

/-- A literal head whose variables are all different has the demanded value at every
tuple behind. -/
theorem Stable.value_behind {l : Formula.Literal PredId} (hl : k.head.literal? = some l)
    (hsm : l.pred ≠ Vocabulary.sm) (hvars : l.vars.Nodup) {u : List Node}
    (hu : ∀ n ∈ u, n ∈ s.nodes) (ht : a.tuple? l.vars = some (u.map f)) :
    s.value l.pred u = .ofBool l.positive := by
  obtain ⟨b, hb, rfl, hbu⟩ := hf.exists_lift ha hu ht fun v m n hm hn => by
    by_contra hmn
    exact (duplicate_of_mem_zip hmn hm hn).not_nodup hvars
  have htrue := (h.behind hf hle hk hb hbody).2 l hl hsm
  rw [eval_eq_denote] at htrue
  exact value_of_literal hl hbu htrue

end Behind

/-! ## Blur keeps structures stable -/

theorem Stable.blur {s : Structure V} {ks : List Constraint} (h : s.Stable ks) (hs : s.Closed)
    (hnone : s.OverlooksNone)
    (hheads : ∀ k ∈ ks, ∀ l, k.head.literal? = some l → l.vars.Nodup) : s.blur.Stable ks := by
  intro k hk a ha hbody
  have hf := hs.embedding_blur hnone
  have hff := h.head_ne_ff hf (hs.value_le_blur hnone) hk ha hbody
  refine ⟨hff, fun l hl hsm => ?_⟩
  cases hval : s.blur.eval k.head a with
  | tt => rfl
  | ff => exact absurd hval hff
  | unknown =>
    rw [eval_eq_denote] at hval
    obtain ⟨t, ht⟩ := exists_tuple_of_unknown hl hval
    have hself := mergedInto_self (ha.within.of_mem_tuple? ht)
    have hdemanded : ∀ u, s.MergedInto s.canonicalNaming.representative t u →
        s.value l.pred u = .ofBool l.positive := by
      rintro u ⟨hu, rfl⟩
      exact h.value_behind hf (hs.value_le_blur hnone) hk ha hbody hl hsm (hheads k hk l hl) hu ht
    -- So the join is that value, which is not unknown.
    have hjoin : s.blur.value l.pred t = .ofBool l.positive := by
      rw [← hdemanded t hself]
      exact (hs.joins_blur hnone hsm ⟨t, hself⟩).eq_of_agree hself fun u hu =>
        (hdemanded u hu).trans (hdemanded t hself).symm
    rw [value_eq_unknown_of_literal hl ht hval] at hjoin
    cases hpositive : l.positive <;> simp [hpositive, Kleene.ofBool] at hjoin

end Structure

/-! ## Results of the pipeline -/

namespace Applier

open Structure

variable {V : Vocabulary} {ap : Applier}

end Applier

end ShapeAnalysis
