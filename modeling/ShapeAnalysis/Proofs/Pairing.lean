import Mathlib.Data.Multiset.Bind

/-!
# Pairing lists

Two lists are *paired* by a relation when their elements can be matched one to
one, in any order, so that matched elements are related.
-/

namespace ShapeAnalysis

variable {α β γ δ : Type}

/-- The elements of the lists can be matched one to one by the relation. -/
def Paired (R : α → β → Prop) (l : List α) (l' : List β) : Prop :=
  Multiset.Rel R (l : Multiset α) (l' : Multiset β)

namespace Paired

variable {R : α → β → Prop} {l : List α} {l' : List β}

theorem nil : Paired R [] [] := Multiset.Rel.zero

theorem cons {a : α} {b : β} (h : R a b) (hrest : Paired R l l') :
    Paired R (a :: l) (b :: l') :=
  Multiset.Rel.cons h hrest

theorem singleton {a : α} {b : β} (h : R a b) : Paired R [a] [b] := cons h nil

/-- Lists are paired either way round. -/
theorem flip (h : Paired R l l') : Paired (fun b a => R a b) l' l := Multiset.rel_flip.2 h

/-- What relates more pairs elements that were paired. -/
theorem mono {S : α → β → Prop} (h : Paired R l l') (hRS : ∀ a ∈ l, ∀ b ∈ l', R a b → S a b) :
    Paired S l l' :=
  Multiset.Rel.mono h hRS

theorem trans {R : α → α → Prop} [IsTrans α R] {l₁ l₂ l₃ : List α} (h₁ : Paired R l₁ l₂)
    (h₂ : Paired R l₂ l₃) : Paired R l₁ l₃ :=
  Multiset.Rel.trans R h₁ h₂

/-- Paired lists are equally long. -/
theorem length_eq (h : Paired R l l') : l.length = l'.length := Multiset.card_eq_card_of_rel h

/-- A list is paired with the images of its elements in any order. -/
theorem of_perm_map {f : α → β} (hperm : (l.map f).Perm l') (h : ∀ a ∈ l, R a (f a)) :
    Paired R l l' := by
  unfold Paired
  rw [← Multiset.coe_eq_coe.2 hperm, ← Multiset.map_coe, Multiset.rel_map_right]
  exact Multiset.rel_refl_of_refl_on h

theorem refl {R : α → α → Prop} {l : List α} (h : ∀ a ∈ l, R a a) : Paired R l l :=
  Multiset.rel_refl_of_refl_on h

/-- Images of paired lists are paired where images of related elements are related. -/
theorem map {S : γ → δ → Prop} {g : α → γ} {g' : β → δ} (h : Paired R l l')
    (hg : ∀ a ∈ l, ∀ b ∈ l', R a b → S (g a) (g' b)) : Paired S (l.map g) (l'.map g') := by
  unfold Paired
  rw [← Multiset.map_coe, ← Multiset.map_coe, Multiset.rel_map]
  exact h.mono hg

theorem map_left {S : γ → δ → Prop} {g : α → γ} {g' : α → δ} (hg : ∀ a ∈ l, S (g a) (g' a)) :
    Paired S (l.map g) (l.map g') :=
  (Paired.refl (R := (· = ·)) fun _ _ => rfl).map fun a ha _ _ hab => hab ▸ hg a ha

/-- Every element has a partner. -/
theorem exists_mem (h : Paired R l l') {a : α} (ha : a ∈ l) : ∃ b ∈ l', R a b :=
  Multiset.exists_mem_of_rel_of_mem h ha

/-- So are lists that paired elements give. -/
theorem flatMap {S : γ → δ → Prop} {g : α → List γ} {g' : β → List δ} (h : Paired R l l')
    (hg : ∀ a ∈ l, ∀ b ∈ l', R a b → Paired S (g a) (g' b)) :
    Paired S (l.flatMap g) (l'.flatMap g') := by
  unfold Paired
  rw [← Multiset.coe_bind, ← Multiset.coe_bind]
  exact Multiset.rel_bind (fun _ _ hab => hab) (h.mono hg)

theorem flatMap_left {S : γ → δ → Prop} {g : α → List γ} {g' : α → List δ}
    (hg : ∀ a ∈ l, Paired S (g a) (g' a)) : Paired S (l.flatMap g) (l.flatMap g') :=
  (Paired.refl (R := (· = ·)) fun _ _ => rfl).flatMap fun a ha _ _ hab => hab ▸ hg a ha

/-- Two nested listings may change places. -/
theorem flatMap_comm {S : γ → γ → Prop} {l₁ : List α} {l₂ : List β} {g g' : α → β → γ}
    (hg : ∀ a ∈ l₁, ∀ b ∈ l₂, S (g a b) (g' a b)) :
    Paired S (l₁.flatMap fun a => l₂.map (g a)) (l₂.flatMap fun b => l₁.map fun a => g' a b) := by
  have hswap : (l₂.flatMap fun b => l₁.map fun a => g' a b : Multiset γ) =
      (l₁.flatMap fun a => l₂.map (g' a) : List γ) := by
    simp only [← Multiset.coe_bind, ← Multiset.map_coe]
    exact Multiset.bind_map_comm _ _
  unfold Paired
  rw [hswap]
  exact flatMap_left fun a ha => map_left (hg a ha)

/-- Where related elements are kept or dropped together, what is kept is paired. -/
theorem filterMap {S : γ → δ → Prop} {g : α → Option γ} {g' : β → Option δ} (h : Paired R l l')
    (hg : ∀ a ∈ l, ∀ b ∈ l', R a b → Option.Rel S (g a) (g' b)) :
    Paired S (l.filterMap g) (l'.filterMap g') := by
  rw [List.filterMap_eq_flatMap_toList, List.filterMap_eq_flatMap_toList]
  refine h.flatMap fun a ha b hb hab => ?_
  have hrel := hg a ha b hb hab
  generalize g a = o at hrel ⊢
  generalize g' b = o' at hrel ⊢
  cases hrel with
  | some h => exact singleton h
  | none => exact nil

/-- Lists are paired when elements of either have partners in the other and no
two elements share a partner. -/
theorem of_pairwise (hto : ∀ a ∈ l, ∃ b ∈ l', R a b) (hfrom : ∀ b ∈ l', ∃ a ∈ l, R a b)
    (hl : l.Pairwise fun a a' => ∀ b, R a b → ¬ R a' b)
    (hl' : l'.Pairwise fun b b' => ∀ a, R a b → ¬ R a b') : Paired R l l' := by
  induction l generalizing l' with
  | nil =>
    cases l' with
    | nil => exact nil
    | cons b rest =>
      obtain ⟨a, ha, -⟩ := hfrom b List.mem_cons_self
      cases ha
  | cons a l ih =>
    obtain ⟨b, hb, hab⟩ := hto a List.mem_cons_self
    obtain ⟨before, after, rfl⟩ := List.append_of_mem hb
    obtain ⟨hothers, hrest⟩ := List.pairwise_cons.1 hl
    have hswap : (before ++ b :: after).Perm (b :: (before ++ after)) := List.perm_middle
    have hunique := (hswap.pairwise_iff fun {x y} h c hcy hcx => h c hcx hcy).1 hl'
    obtain ⟨hothers', hrest'⟩ := List.pairwise_cons.1 hunique
    have hpaired : Paired R l (before ++ after) := by
      refine ih (fun a' ha' => ?_) (fun b' hb' => ?_) hrest hrest'
      · obtain ⟨b', hb', hab'⟩ := hto a' (List.mem_cons_of_mem _ ha')
        rcases List.mem_cons.1 (hswap.mem_iff.1 hb') with rfl | hb'
        · exact absurd hab' (hothers a' ha' b' hab)
        · exact ⟨b', hb', hab'⟩
      · obtain ⟨a', ha', hab'⟩ := hfrom b' (hswap.mem_iff.2 (List.mem_cons_of_mem _ hb'))
        rcases List.mem_cons.1 ha' with rfl | ha'
        · exact absurd hab' (hothers' b' hb' a' hab)
        · exact ⟨a', ha', hab'⟩
    have hcons : Paired R (a :: l) (b :: (before ++ after)) := cons hab hpaired
    unfold Paired at hcons ⊢
    rwa [Multiset.coe_eq_coe.2 hswap]

end Paired

end ShapeAnalysis
