import Mathlib.Algebra.Ring.Nat
import Mathlib.Data.List.Basic
import ShapeAnalysis.Order.SortedMap
import ShapeAnalysis.Order.SortedSet

/-!
# Reading sorted maps and sets

A sorted map is read through `get?` and a sorted set through membership.  Every
operation has one equation here that says what it does to the view, and after
that no proof opens an operation again.

The entries of a map and its view determine each other (`mem_entries`), since no
key occurs twice.
-/

namespace ShapeAnalysis

open Std (TransOrd OrientedCmp TransCmp LawfulEqOrd)

namespace SortedMap

variable {κ ν : Type} [Ord κ]

@[simp] theorem get?_empty (k : κ) : (∅ : SortedMap κ ν).get? k = none := rfl

/-! ## Sums over the values -/

theorem sum_insertEntry (f : ν → Nat) (k : κ) (v : ν) (es : List (κ × ν)) :
    ((insertEntry k v es).map fun e => f e.2).sum + ((findEntry k es).map f).getD 0 =
      (es.map fun e => f e.2).sum + f v := by
  induction es with
  | nil => simp [insertEntry, findEntry]
  | cons e rest ih =>
    simp only [insertEntry, findEntry]
    split
    · simp [Nat.add_comm]
    · simp
      omega
    · simp only [List.map_cons, List.sum_cons]
      omega

/-- In a sum over the values a written value takes the place of the one before. -/
theorem sum_values_insert [TransOrd κ] (f : ν → Nat) (m : SortedMap κ ν) (k : κ) (v : ν) :
    ((m.insert k v).values.map f).sum + ((m.get? k).map f).getD 0 =
      (m.values.map f).sum + f v := by
  simpa [values, insert, get?, Function.comp_def] using sum_insertEntry f k v m.entries

theorem size_insert_of_none [TransOrd κ] {m : SortedMap κ ν} {k : κ} (h : m.get? k = none)
    (v : ν) : (m.insert k v).size = m.size + 1 := by
  have hsize : ∀ m : SortedMap κ ν, m.size = (m.values.map fun _ => 1).sum := by
    intro m
    simp [size, values, Function.comp_def, List.map_const']
  have hsum := sum_values_insert (fun _ => 1) m k v
  rw [h, ← hsize, ← hsize] at hsum
  exact hsum

/-! ## Entries and the view -/

variable [LawfulEqOrd κ]

/-- No entry occurs twice. -/
theorem nodup_entries (m : SortedMap κ ν) : m.entries.Nodup := by
  refine m.sorted.imp ?_
  intro a b hlt he
  simp [he] at hlt

variable [TransOrd κ]

/-- In a sorted list a search finds exactly the entries. -/
theorem findEntry_eq_some_iff {k : κ} {v : ν} {es : List (κ × ν)}
    (h : es.Pairwise fun a b => compare a.1 b.1 = .lt) :
    findEntry k es = some v ↔ (k, v) ∈ es := by
  induction es with
  | nil => simp [findEntry]
  | cons d rest ih =>
    obtain ⟨k', v'⟩ := d
    obtain ⟨hd, hrest⟩ := List.pairwise_cons.1 h
    simp only [findEntry, List.mem_cons, Prod.mk.injEq]
    split
    · rename_i hlt
      -- A key below the head is below every later key too.
      have hnone : (k, v) ∉ rest := fun hmem => by
        have hlt' := TransCmp.lt_trans hlt (hd _ hmem)
        simp at hlt'
      have hne : k ≠ k' := fun he => by simp [he] at hlt
      simp [hnone, hne]
    · rename_i heq
      have he : k = k' := LawfulEqOrd.eq_of_compare heq
      have hnone : (k, v) ∉ rest := fun hmem => by
        have hlt := hd _ hmem
        simp [he] at hlt
      simp [he, he ▸ hnone, eq_comm]
    · rename_i hgt
      have hne : k ≠ k' := fun he => by simp [he] at hgt
      rw [ih hrest]
      simp [hne]

/-- A map holds the entry `(k, v)` exactly when it reads `v` at `k`. -/
theorem mem_entries {m : SortedMap κ ν} {k : κ} {v : ν} :
    (k, v) ∈ m.entries ↔ m.get? k = some v :=
  (findEntry_eq_some_iff m.sorted).symm

/-- Maps that read alike are equal. -/
theorem ext_get? {m m' : SortedMap κ ν} (h : ∀ k, m.get? k = m'.get? k) : m = m' := by
  have hperm : m.entries.Perm m'.entries := by
    rw [List.perm_ext_iff_of_nodup m.nodup_entries m'.nodup_entries]
    rintro ⟨k, v⟩
    rw [mem_entries, mem_entries, h k]
  have heq : m.entries = m'.entries :=
    hperm.eq_of_pairwise (fun a b _ _ hab hba => by
      have hlt := TransCmp.lt_trans hab hba
      simp at hlt) m.sorted m'.sorted
  cases m
  cases m'
  cases heq
  rfl

theorem mem_keys {m : SortedMap κ ν} {k : κ} : k ∈ m.keys ↔ m.get? k ≠ none := by
  rw [keys, List.mem_map, Option.ne_none_iff_exists']
  constructor
  · rintro ⟨e, he, rfl⟩
    exact ⟨e.2, mem_entries.1 he⟩
  · rintro ⟨v, hv⟩
    exact ⟨(k, v), mem_entries.2 hv, rfl⟩

/-! ## Operations -/

theorem findEntry_insertEntry [DecidableEq κ] (k k' : κ) (v : ν) (es : List (κ × ν)) :
    findEntry k' (insertEntry k v es) = if k' = k then some v else findEntry k' es := by
  induction es with
  | nil =>
    by_cases he : k' = k
    · simp [insertEntry, findEntry, he]
    · simp only [insertEntry, findEntry, he, if_false]
      split
      · rfl
      · exact absurd (LawfulEqOrd.eq_of_compare ‹_›) he
      · rfl
  | cons d rest ih =>
    obtain ⟨l, w⟩ := d
    simp only [insertEntry]
    split
    · rename_i hlt
      by_cases he : k' = k
      · simp [findEntry, he]
      · simp only [findEntry, he, if_false]
        split
        · -- Below `k` means below the old head.
          rename_i hlt'
          simp [TransCmp.lt_trans hlt' hlt]
        · exact absurd (LawfulEqOrd.eq_of_compare ‹_›) he
        · rfl
    · rename_i heq
      have hkl : k = l := LawfulEqOrd.eq_of_compare heq
      subst hkl
      by_cases he : k' = k
      · simp [findEntry, he]
      · simp only [findEntry, he, if_false]
        split
        · rfl
        · exact absurd (LawfulEqOrd.eq_of_compare ‹_›) he
        · rfl
    · rename_i hgt
      by_cases he : k' = k
      · subst he
        simp [findEntry, hgt, ih]
      · simp [findEntry, ih, he]

@[simp] theorem get?_insert [DecidableEq κ] (m : SortedMap κ ν) (k k' : κ) (v : ν) :
    (m.insert k v).get? k' = if k' = k then some v else m.get? k' :=
  findEntry_insertEntry k k' v m.entries

@[simp] theorem get?_filter (m : SortedMap κ ν) (p : κ → ν → Bool) (k : κ) :
    (m.filter p).get? k = (m.get? k).filter (p k) := by
  apply Option.ext
  intro v
  rw [← mem_entries, Option.filter_eq_some_iff, ← mem_entries]
  simp [filter]

@[simp] theorem get?_erase [DecidableEq κ] (m : SortedMap κ ν) (k k' : κ) :
    (m.erase k).get? k' = if k' = k then none else m.get? k' := by
  by_cases he : k' = k
  · cases h : m.get? k' <;> simp [erase, he, he ▸ h]
  · have hne : compare k k' ≠ .eq := fun h => he (LawfulEqOrd.eq_of_compare h).symm
    cases h : m.get? k' <;> simp [erase, he, h, hne]

@[simp] theorem get?_alter [DecidableEq κ] (m : SortedMap κ ν) (k k' : κ) (start : ν) (f : ν → ν) :
    (m.alter k start f).get? k' =
      if k' = k then some (f ((m.get? k).getD start)) else m.get? k' :=
  get?_insert m k k' _

/-- A list without an entry at `k` writes nothing there. -/
theorem get?_insertAll_of_forall_ne [DecidableEq κ] {k : κ} {es : List (κ × ν)}
    (h : ∀ e ∈ es, e.1 ≠ k) (m : SortedMap κ ν) : (m.insertAll es).get? k = m.get? k := by
  induction es generalizing m with
  | nil => rfl
  | cons e rest ih =>
    have hne : k ≠ e.1 := (h e List.mem_cons_self).symm
    have hrest : ∀ d ∈ rest, d.1 ≠ k := fun d hd => h d (List.mem_cons_of_mem _ hd)
    rw [insertAll, List.foldl_cons]
    exact (ih hrest _).trans (by simp [hne])

/-- Entries of a list that agree at `k` decide the value there. -/
theorem get?_insertAll_of_mem [DecidableEq κ] {k : κ} {v : ν} {es : List (κ × ν)}
    (h : ∀ e ∈ es, e.1 = k → e.2 = v) (hmem : ∃ e ∈ es, e.1 = k) (m : SortedMap κ ν) :
    (m.insertAll es).get? k = some v := by
  induction es generalizing m with
  | nil =>
    obtain ⟨e, he, _⟩ := hmem
    cases he
  | cons e rest ih =>
    have hrest : ∀ d ∈ rest, d.1 = k → d.2 = v := fun d hd => h d (List.mem_cons_of_mem _ hd)
    rw [insertAll, List.foldl_cons]
    by_cases hlater : ∃ d ∈ rest, d.1 = k
    · exact ih hrest hlater _
    · -- The head is the last entry at `k`.
      obtain ⟨d, hd, hdk⟩ := hmem
      have hde : d = e := (List.mem_cons.1 hd).resolve_right fun hd' => hlater ⟨d, hd', hdk⟩
      subst hde
      have hne : ∀ c ∈ rest, c.1 ≠ k := fun c hc hck => hlater ⟨c, hc, hck⟩
      have hval : d.2 = v := h d List.mem_cons_self hdk
      exact (get?_insertAll_of_forall_ne hne _).trans (by simp [hdk, hval])

/-- What is found after writing a list was there before or is in the list. -/
theorem get?_or_mem_of_get?_insertAll [DecidableEq κ] {k : κ} {v : ν} (es : List (κ × ν))
    {m : SortedMap κ ν} (h : (m.insertAll es).get? k = some v) :
    m.get? k = some v ∨ (k, v) ∈ es := by
  induction es generalizing m with
  | nil => exact .inl h
  | cons e rest ih =>
    rcases ih h with hget | hmem
    · rw [get?_insert] at hget
      split at hget
      · rename_i hk
        cases hget
        exact .inr (hk ▸ List.mem_cons_self)
      · exact .inl hget
    · exact .inr (List.mem_cons_of_mem _ hmem)

end SortedMap

namespace SortedSet

variable {α : Type} [Ord α]

@[simp] theorem mem_toList {s : SortedSet α} {x : α} : x ∈ s.toList ↔ x ∈ s := Iff.rfl

@[simp] theorem mem_filter {s : SortedSet α} {p : α → Bool} {x : α} :
    x ∈ s.filter p ↔ x ∈ s ∧ p x = true :=
  List.mem_filter

theorem filter_congr {s : SortedSet α} {p q : α → Bool} (h : ∀ x ∈ s, p x = q x) :
    s.filter p = s.filter q := by
  simp only [filter, SortedSet.mk.injEq]
  exact List.filter_congr h

variable [LawfulEqOrd α]

/-- No member occurs twice. -/
theorem nodup (s : SortedSet α) : s.toList.Nodup := by
  refine s.sorted.imp ?_
  intro a b hlt he
  simp [he] at hlt

/-- Sets with the same members are equal. -/
theorem ext_mem [TransOrd α] {s t : SortedSet α} (h : ∀ x, x ∈ s ↔ x ∈ t) : s = t := by
  have hperm : s.toList.Perm t.toList := (List.perm_ext_iff_of_nodup s.nodup t.nodup).2 h
  have heq : s.toList = t.toList :=
    hperm.eq_of_pairwise (fun a b _ _ hab hba => by
      have hlt := TransCmp.lt_trans hab hba
      simp at hlt) s.sorted t.sorted
  cases s
  cases t
  cases heq
  rfl

theorem mem_insertItem {x y : α} {xs : List α} : y ∈ insertItem x xs ↔ y = x ∨ y ∈ xs := by
  refine ⟨eq_or_mem_of_mem_insertItem, ?_⟩
  intro h
  induction xs with
  | nil => simpa [insertItem] using h
  | cons z rest ih =>
    simp only [insertItem]
    split
    · simpa using h
    · have hxz : x = z := LawfulEqOrd.eq_of_compare ‹_›
      rcases h with rfl | h
      · exact hxz ▸ List.mem_cons_self
      · exact h
    · rcases h with rfl | h
      · exact List.mem_cons_of_mem _ (ih (.inl rfl))
      · rcases List.mem_cons.1 h with rfl | h
        · exact List.mem_cons_self
        · exact List.mem_cons_of_mem _ (ih (.inr h))

@[simp] theorem mem_insert [TransOrd α] {s : SortedSet α} {x y : α} :
    y ∈ s.insert x ↔ y = x ∨ y ∈ s :=
  mem_insertItem

@[simp] theorem mem_ofList [TransOrd α] {xs : List α} {y : α} : y ∈ ofList xs ↔ y ∈ xs := by
  have hfold : ∀ s : SortedSet α, y ∈ xs.foldl insert s ↔ y ∈ xs ∨ y ∈ s := by
    induction xs with
    | nil => simp
    | cons x xs ih =>
      intro s
      rw [List.foldl_cons, ih, mem_insert, List.mem_cons, ← or_assoc, or_comm (a := y ∈ xs)]
  exact (hfold ∅).trans (or_iff_left List.not_mem_nil)

end SortedSet

end ShapeAnalysis
