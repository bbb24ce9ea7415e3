import ShapeAnalysis.Kleene

/-!
# The information order

`a.le b` says that `a` is at least as precise as `b`.  The connectives are
monotone in this order, and so are the maximum and the minimum of a list in the
truth order, which are what the quantifiers compute.  A list may be replaced by
another one of a different length as long as the values of either have partners
in the other.
-/

namespace ShapeAnalysis

namespace Kleene

/-! ## The order -/

@[simp] theorem le_refl (a : Kleene) : a.le a := by
  cases a <;> rfl

theorem le_of_eq {a b : Kleene} (h : a = b) : a.le b := by
  rw [h]
  exact le_refl b

/-- Unknown is above every value. -/
@[simp] theorem le_unknown (a : Kleene) : a.le unknown := by
  cases a <;> rfl

theorem le_trans {a b c : Kleene} (hab : a.le b) (hbc : b.le c) : a.le c := by
  revert hab hbc
  cases a <;> cases b <;> cases c <;> decide

theorem le_antisymm {a b : Kleene} (hab : a.le b) (hba : b.le a) : a = b := by
  revert hab hba
  cases a <;> cases b <;> decide

/-- Below a definite value there is only that value. -/
theorem eq_of_le {a b : Kleene} (h : a.le b) (hb : b ≠ unknown) : a = b := by
  revert h hb
  cases a <;> cases b <;> decide

/-- Above `unknown` there is only `unknown`. -/
theorem eq_unknown_of_le {a : Kleene} (h : unknown.le a) : a = unknown := by
  revert h
  cases a <;> decide

/-- What may be true stays so in a less precise value. -/
theorem ne_ff_of_le {a b : Kleene} (h : a.le b) (ha : a ≠ ff) : b ≠ ff := by
  intro hb
  subst hb
  exact ha (eq_of_le h (by decide))

theorem le_join_left (a b : Kleene) : a.le (a.join b) := by
  cases a <;> cases b <;> rfl

theorem le_join_right (a b : Kleene) : b.le (a.join b) := by
  cases a <;> cases b <;> rfl

/-- The join is the least value above both. -/
theorem join_le {a b c : Kleene} (ha : a.le c) (hb : b.le c) : (a.join b).le c := by
  revert ha hb
  cases a <;> cases b <;> cases c <;> decide

theorem join_eq_left_iff {a b : Kleene} : a.join b = a ↔ b.le a := by
  cases a <;> cases b <;> decide

theorem join_eq_ff_iff {a b : Kleene} : a.join b = ff ↔ a = ff ∧ b = ff := by
  cases a <;> cases b <;> decide

theorem eq_unknown_or_tt {a : Kleene} (h : a ≠ ff) : a = unknown ∨ a = tt := by
  cases a with
  | ff => exact absurd rfl h
  | unknown => exact .inl rfl
  | tt => exact .inr rfl

/-- What may be true is not definite once it is joined with false. -/
theorem join_ff {a : Kleene} (h : a ≠ ff) : a.join ff = unknown := if_neg h

/-- A join over a list is above all of it. -/
theorem le_foldl_join (l : List Kleene) (k : Kleene) :
    k.le (l.foldl join k) ∧ ∀ x ∈ l, x.le (l.foldl join k) := by
  induction l generalizing k with
  | nil => exact ⟨le_refl k, by simp⟩
  | cons x rest ih =>
    obtain ⟨hacc, hrest⟩ := ih (k.join x)
    refine ⟨le_trans (le_join_left _ _) hacc, fun y hy => ?_⟩
    rcases List.mem_cons.1 hy with rfl | hy
    · exact le_trans (le_join_right _ _) hacc
    · exact hrest y hy

/-- It is below whatever is above all of it. -/
theorem foldl_join_le {l : List Kleene} {k b : Kleene} (hk : k.le b) (hl : ∀ x ∈ l, x.le b) :
    (l.foldl join k).le b := by
  induction l generalizing k with
  | nil => exact hk
  | cons x rest ih =>
    exact ih (join_le hk (hl x List.mem_cons_self)) fun y hy => hl y (List.mem_cons_of_mem _ hy)

/-! ## The connectives are monotone -/

/-- The connectives are monotone. -/
theorem not_le_not {a b : Kleene} (h : a.le b) : a.not.le b.not := by
  revert h
  cases a <;> cases b <;> decide

theorem and_le_and {a b c d : Kleene} (h₁ : a.le c) (h₂ : b.le d) : (a.and b).le (c.and d) := by
  revert h₁ h₂
  cases a <;> cases b <;> cases c <;> cases d <;> decide

theorem or_le_or {a b c d : Kleene} (h₁ : a.le c) (h₂ : b.le d) : (a.or b).le (c.or d) := by
  revert h₁ h₂
  cases a <;> cases b <;> cases c <;> cases d <;> decide

theorem implies_le_implies {a b c d : Kleene} (h₁ : a.le c) (h₂ : b.le d) :
    (a.implies b).le (c.implies d) :=
  or_le_or (not_le_not h₁) h₂

/-! ## Maximum and minimum of a list -/

/-- A disjunction is true if one part is. -/
theorem foldl_or_eq_tt_iff (l : List Kleene) (k : Kleene) :
    l.foldl or k = tt ↔ k = tt ∨ tt ∈ l := by
  induction l generalizing k with
  | nil => simp
  | cons x rest ih =>
    have hor : k.or x = tt ↔ k = tt ∨ tt = x := by cases k <;> cases x <;> decide
    rw [List.foldl_cons, ih, hor, List.mem_cons, or_assoc]

theorem foldl_or_eq_ff_iff (l : List Kleene) (k : Kleene) :
    l.foldl or k = ff ↔ k = ff ∧ ∀ x ∈ l, x = ff := by
  induction l generalizing k with
  | nil => simp
  | cons x rest ih =>
    have hor : k.or x = ff ↔ k = ff ∧ x = ff := by cases k <;> cases x <;> decide
    rw [List.foldl_cons, ih, hor, List.forall_mem_cons, and_assoc]

theorem foldl_and_eq_ff_iff (l : List Kleene) (k : Kleene) :
    l.foldl and k = ff ↔ k = ff ∨ ff ∈ l := by
  induction l generalizing k with
  | nil => simp
  | cons x rest ih =>
    have hand : k.and x = ff ↔ k = ff ∨ ff = x := by cases k <;> cases x <;> decide
    rw [List.foldl_cons, ih, hand, List.mem_cons, or_assoc]

/-- A conjunction is true if all parts are. -/
theorem foldl_and_eq_tt_iff (l : List Kleene) (k : Kleene) :
    l.foldl and k = tt ↔ k = tt ∧ ∀ x ∈ l, x = tt := by
  induction l generalizing k with
  | nil => simp
  | cons x rest ih =>
    have hand : k.and x = tt ↔ k = tt ∧ x = tt := by cases k <;> cases x <;> decide
    rw [List.foldl_cons, ih, hand, List.forall_mem_cons, and_assoc]

/-- The maximum is monotone along a correspondence of the values. -/
theorem foldl_or_le_foldl_or {l l' : List Kleene} (hfwd : ∀ x ∈ l, ∃ y ∈ l', x.le y)
    (hbwd : ∀ y ∈ l', ∃ x ∈ l, x.le y) : (l.foldl or ff).le (l'.foldl or ff) := by
  cases h : l'.foldl or ff with
  | unknown => exact le_unknown _
  | tt =>
    -- A true value of the second list has a true partner in the first.
    have hmem : tt ∈ l' := ((foldl_or_eq_tt_iff l' ff).1 h).resolve_left (by decide)
    obtain ⟨x, hx, hle⟩ := hbwd tt hmem
    have hxt : x = tt := eq_of_le hle (by decide)
    subst hxt
    exact le_of_eq ((foldl_or_eq_tt_iff l ff).2 (.inr hx))
  | ff =>
    have hall : ∀ y ∈ l', y = ff := ((foldl_or_eq_ff_iff l' ff).1 h).2
    refine le_of_eq ((foldl_or_eq_ff_iff l ff).2 ⟨rfl, fun x hx => ?_⟩)
    obtain ⟨y, hy, hle⟩ := hfwd x hx
    rw [hall y hy] at hle
    exact eq_of_le hle (by decide)

/-- The minimum is monotone along a correspondence of the values. -/
theorem foldl_and_le_foldl_and {l l' : List Kleene} (hfwd : ∀ x ∈ l, ∃ y ∈ l', x.le y)
    (hbwd : ∀ y ∈ l', ∃ x ∈ l, x.le y) : (l.foldl and tt).le (l'.foldl and tt) := by
  cases h : l'.foldl and tt with
  | unknown => exact le_unknown _
  | ff =>
    have hmem : ff ∈ l' := ((foldl_and_eq_ff_iff l' tt).1 h).resolve_left (by decide)
    obtain ⟨x, hx, hle⟩ := hbwd ff hmem
    have hxf : x = ff := eq_of_le hle (by decide)
    subst hxf
    exact le_of_eq ((foldl_and_eq_ff_iff l tt).2 (.inr hx))
  | tt =>
    have hall : ∀ y ∈ l', y = tt := ((foldl_and_eq_tt_iff l' tt).1 h).2
    refine le_of_eq ((foldl_and_eq_tt_iff l tt).2 ⟨rfl, fun x hx => ?_⟩)
    obtain ⟨y, hy, hle⟩ := hfwd x hx
    rw [hall y hy] at hle
    exact eq_of_le hle (by decide)

end Kleene

end ShapeAnalysis
