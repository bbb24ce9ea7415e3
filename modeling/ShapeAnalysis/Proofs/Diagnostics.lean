import ShapeAnalysis.Action.Basic
import ShapeAnalysis.Proofs.Coerce
import ShapeAnalysis.Proofs.Solutions

/-!
# Diagnostics follow embeddings

A message rule fires if some way to bind the open variables of its condition gives a value
of its kind (`fires_iff`): any value but false for a potential message, true or false for a
definite one.

Along an embedding values only lose precision.  A binding of the open variables goes
forward to the target by the embedding, and since the embedding is onto it also comes back.
So a potential message is not missed in the structure that describes another one, and a
definite message of it is not false.
-/

namespace ShapeAnalysis

/-- The values of a condition with which a message is reported. -/
def MessageKind.Reports : MessageKind → Kleene → Prop
  | potential, k => k ≠ .ff
  | definiteTrue, k => k = .tt
  | definiteFalse, k => k = .ff

/-- What may be the case may be so with less precision. -/
theorem MessageKind.reports_potential_of_le {k l : Kleene} (h : k.le l)
    (hk : potential.Reports k) : potential.Reports l :=
  Kleene.ne_ff_of_le h hk

/-- What is definite is so with more precision. -/
theorem MessageKind.reports_of_le {kind : MessageKind} (hkind : kind ≠ potential) {k l : Kleene}
    (h : k.le l) (hl : kind.Reports l) : kind.Reports k := by
  cases kind with
  | potential => exact absurd rfl hkind
  | definiteTrue =>
    rw [show l = .tt from hl] at h
    exact Kleene.eq_of_le h (by decide)
  | definiteFalse =>
    rw [show l = .ff from hl] at h
    exact Kleene.eq_of_le h (by decide)

theorem Formula.openVars_map (φ : Formula PredId) (f : Node → Node) (a : Assignment) :
    φ.openVars (a.map f) = φ.openVars a := by
  simp [openVars, Assignment.binds]

namespace Action

open Structure

variable {V : Vocabulary}

/-! ## When a message is reported -/

section

variable {s : Structure V} {a : Assignment}

theorem any_solutions_iff {φ : Formula PredId} :
    ((s.solutions φ a).any fun e => e.2 = .tt) = true ↔
      ∃ b ∈ extensions s.nodes.toList (φ.openVars a) a, s.eval φ b = .tt := by
  rw [List.any_eq_true, Formula.openVars_eq]
  constructor
  · rintro ⟨⟨b, k⟩, hmem, hk⟩
    obtain ⟨hb, hval, -⟩ := mem_solutions_iff.1 hmem
    exact ⟨b, hb, hval.trans (of_decide_eq_true hk)⟩
  · rintro ⟨b, hb, hval⟩
    exact ⟨(b, .tt), mem_solutions_iff.2 ⟨hb, hval, by decide⟩, rfl⟩

theorem solutions_ne_nil_iff {φ : Formula PredId} : (!(s.solutions φ a).isEmpty) = true ↔
    ∃ b ∈ extensions s.nodes.toList (φ.openVars a) a, s.eval φ b ≠ .ff := by
  rw [Bool.not_eq_true', List.isEmpty_eq_false_iff_exists_mem, Formula.openVars_eq]
  constructor
  · rintro ⟨⟨b, k⟩, hmem⟩
    obtain ⟨hb, rfl, hne⟩ := mem_solutions_iff.1 hmem
    exact ⟨b, hb, hne⟩
  · rintro ⟨b, hb, hne⟩
    exact ⟨(b, s.eval φ b), mem_solutions_iff.2 ⟨hb, rfl, hne⟩⟩

/-- A rule fires by some way to bind the open variables of its condition. -/
theorem fires_iff {rule : MessageRule PredId} :
    fires s a rule = true ↔
      ∃ b ∈ extensions s.nodes.toList (rule.condition.openVars a) a,
        rule.kind.Reports (s.eval rule.condition b) := by
  obtain ⟨kind, φ, text⟩ := rule
  cases kind with
  | potential => exact solutions_ne_nil_iff
  | definiteTrue => exact any_solutions_iff
  | definiteFalse =>
    -- The negation has the same open variables, and it is true where the condition is false.
    have hneg : ∀ b, s.eval (.neg φ) b = .tt ↔ s.eval φ b = .ff := by
      intro b
      rw [eval_eq_denote, eval_eq_denote, denote]
      cases s.denote φ b <;> decide
    refine any_solutions_iff.trans ?_
    simp only [hneg]
    exact Iff.rfl

/-- The reported texts are those of the rules that fire. -/
theorem mem_report {act : Action PredId} {x : String} :
    x ∈ act.report s a ↔ ∃ rule ∈ act.messages, fires s a rule = true ∧ rule.text = x := by
  have hfold : ∀ (rules : List (MessageRule PredId)) (out : List String),
      x ∈ rules.foldl (fun out rule =>
        if fires s a rule && !out.contains rule.text then out ++ [rule.text] else out) out ↔
      x ∈ out ∨ ∃ rule ∈ rules, fires s a rule = true ∧ rule.text = x := by
    intro rules
    induction rules with
    | nil => simp
    | cons rule rules ih =>
      intro out
      have hstep : x ∈ (if fires s a rule && !out.contains rule.text then out ++ [rule.text]
          else out) ↔ x ∈ out ∨ fires s a rule = true ∧ rule.text = x := by
        cases fires s a rule with
        | false => simp
        | true =>
          cases hin : out.contains rule.text with
          | false => simp [eq_comm]
          | true =>
            have hmem : rule.text ∈ out := by simpa using hin
            simp only [Bool.not_true, Bool.and_false, Bool.false_eq_true, if_false, true_and]
            exact ⟨.inl, fun h => h.elim id fun h => h ▸ hmem⟩
      rw [List.foldl_cons, ih, hstep, List.exists_mem_cons_iff, or_assoc]
  exact (hfold act.messages []).trans (by simp)

end

end Action

namespace Structure

variable {V : Vocabulary} {f : Node → Node} {c s : Structure V}

/-! ## Bindings along an embedding -/

theorem Embedding.map_mem_extensions (hf : Embedding f c s) {vars : List Var} {a b : Assignment}
    (hb : b ∈ extensions c.nodes.toList vars a) :
    b.map f ∈ extensions s.nodes.toList vars (a.map f) := by
  obtain ⟨hbound, hothers⟩ := mem_extensions.1 hb
  refine mem_extensions.2 ⟨fun v hv => ?_, fun v hv => ?_⟩
  · obtain ⟨n, hn, hvn⟩ := hbound v hv
    exact ⟨f n, hf.maps n hn, by rw [Assignment.get?_map, hvn]; rfl⟩
  · rw [Assignment.get?_map, Assignment.get?_map, hothers v hv]

/-- A binding in the target comes from one in the source, each variable in turn from a node
behind. -/
theorem Embedding.exists_mem_extensions (hf : Embedding f c s) {vars : List Var}
    {a b : Assignment} (hb : b ∈ extensions s.nodes.toList vars (a.map f)) :
    ∃ b' ∈ extensions c.nodes.toList vars a, b'.map f = b := by
  induction vars generalizing a with
  | nil => exact ⟨a, List.mem_singleton.2 rfl, (List.mem_singleton.1 hb).symm⟩
  | cons v rest ih =>
    obtain ⟨m, hm, hb⟩ := List.mem_flatMap.1 hb
    obtain ⟨n, hn, rfl⟩ := hf.onto m hm
    rw [← Assignment.map_bind] at hb
    obtain ⟨b', hb', hmap⟩ := ih hb
    exact ⟨b', List.mem_flatMap.2 ⟨n, hn, hb'⟩, hmap⟩

/-! ## Diagnostics -/

section

variable (hs : s.WellFormed) (hc : c.WellFormed) (hf : Embedding f c s) {z : Assignment}
  (hz : z.Within c.nodes) {rule : MessageRule PredId}
include hs hc hf hz

/-- A potential message is not missed. -/
theorem Embedding.fires_potential (hkind : rule.kind = .potential)
    (h : Action.fires c z rule = true) : Action.fires s (z.map f) rule = true := by
  obtain ⟨b, hb, hreports⟩ := Action.fires_iff.1 h
  rw [hkind] at hreports
  refine Action.fires_iff.2 ⟨b.map f, ?_, ?_⟩
  · rw [Formula.openVars_map]
    exact hf.map_mem_extensions hb
  · rw [hkind]
    exact MessageKind.reports_potential_of_le
      (eval_le_eval_map hc hs hf rule.condition (within_of_mem_extensions hz hb)) hreports

/-- A definite message is not false. -/
theorem Embedding.fires_definite (hkind : rule.kind ≠ .potential)
    (h : Action.fires s (z.map f) rule = true) : Action.fires c z rule = true := by
  obtain ⟨b, hb, hreports⟩ := Action.fires_iff.1 h
  rw [Formula.openVars_map] at hb
  obtain ⟨b', hb', rfl⟩ := hf.exists_mem_extensions hb
  exact Action.fires_iff.2 ⟨b', hb', MessageKind.reports_of_le hkind
    (eval_le_eval_map hc hs hf rule.condition (within_of_mem_extensions hz hb')) hreports⟩

end

/-- Diagnostics are neither missed nor false along an embedding.  A potential message that
fires in the source fires in the target, and a definite one that fires in the target fires
in the source.  So the target reports what only potential messages say in the source, and
the source what only definite messages say in the target. -/
theorem diagnostics_follow (hs : s.WellFormed) (hc : c.WellFormed) (hf : Embedding f c s)
    {z : Assignment} (hz : z.Within c.nodes) :
    (∀ rule : MessageRule PredId,
      (rule.kind = .potential →
        Action.fires c z rule = true → Action.fires s (z.map f) rule = true) ∧
      (rule.kind = .definiteTrue ∨ rule.kind = .definiteFalse →
        Action.fires s (z.map f) rule = true → Action.fires c z rule = true)) ∧
      ∀ (act : Action PredId) (x : String),
        ((∀ rule ∈ act.messages, rule.text = x → rule.kind = .potential) →
          x ∈ act.report c z → x ∈ act.report s (z.map f)) ∧
        ((∀ rule ∈ act.messages, rule.text = x → rule.kind ≠ .potential) →
          x ∈ act.report s (z.map f) → x ∈ act.report c z) := by
  refine ⟨fun rule => ⟨hf.fires_potential hs hc hz, fun hkind => ?_⟩, fun act x => ⟨?_, ?_⟩⟩
  · refine hf.fires_definite hs hc hz ?_
    rcases hkind with hkind | hkind
    · simp [hkind]
    · simp [hkind]
  · intro hpotential hx
    obtain ⟨rule, hrule, hfires, htext⟩ := Action.mem_report.1 hx
    exact Action.mem_report.2 ⟨rule, hrule,
      hf.fires_potential hs hc hz (hpotential rule hrule htext) hfires, htext⟩
  · intro hdefinite hx
    obtain ⟨rule, hrule, hfires, htext⟩ := Action.mem_report.1 hx
    exact Action.mem_report.2 ⟨rule, hrule,
      hf.fires_definite hs hc hz (hdefinite rule hrule htext) hfires, htext⟩

/-- That a cell has a loop is reported of two cells and so of any number of them.  That no
cell is without `x` is reported of any number of them and so of two. -/
theorem diagnostics_follow_loops :
    loopCells.WellFormed ∧ twoLoops.Concrete ∧ Embedding (fun _ => 0) twoLoops loopCells ∧
      Action.fires loopCells (Assignment.empty.map fun _ => 0)
        ⟨.potential, .atom 7 [0, 0], "a cell may have a loop"⟩ = true ∧
      Action.fires twoLoops .empty
        ⟨.definiteFalse, .neg (.atom 6 [0]), "a cell is not without x"⟩ = true := by
  have hs : loopCells.WellFormed := by decide
  have hc : twoLoops.Concrete := by decide
  have hf : Embedding (fun _ => 0) twoLoops loopCells := by decide
  obtain ⟨hrules, -⟩ :=
    diagnostics_follow hs hc.toWellFormed hf (Assignment.within_empty twoLoops.nodes)
  exact ⟨hs, hc, hf, (hrules _).1 rfl (by decide), (hrules _).2 (.inr rfl) (by decide)⟩

end Structure

end ShapeAnalysis
