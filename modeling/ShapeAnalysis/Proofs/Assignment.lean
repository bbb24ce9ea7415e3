import Mathlib.Data.List.Basic
import ShapeAnalysis.Formula.Assignment
import ShapeAnalysis.Proofs.Order

/-!
# Assignments as finite maps

An assignment is read through `get?`.  Since its bindings are sorted, two
assignments that read alike are equal (`ext_get?`).  So a statement that an
operation hands back the assignment it was given is proved by reading both.

`map f` sends the nodes of an assignment through `f`.  It commutes with binding
and with reading tuples, which is all that an embedding of structures asks of
it.
-/

namespace ShapeAnalysis

namespace Assignment

/-! ## Binding lists -/

theorem find_put (v w : Var) (n : Node) (bs : List (Var × Node)) :
    find w (put v n bs) = if w = v then some n else find w bs := by
  induction bs with
  | nil =>
    by_cases h : w = v
    · simp [put, find, h]
    · simp [put, find, h]
  | cons d rest ih =>
    obtain ⟨x, m⟩ := d
    simp only [put]
    split
    · rename_i hvx
      by_cases h : w = v
      · simp [find, h]
      · by_cases hwv : w < v
        · -- What comes before `v` comes before the old head.
          have hwx : w < x := Nat.lt_trans hwv hvx
          simp [find, h, hwv, hwx, Nat.ne_of_lt hwx]
        · simp [find, h, hwv]
    · split
      · rename_i hvx
        subst hvx
        by_cases h : w = v
        · simp [find, h]
        · simp [find, h]
      · rename_i hlt hne
        by_cases h : w = v
        · subst h
          simp [find, hne, hlt, ih]
        · simp [find, h, ih]

/-- In sorted bindings a search finds exactly the bindings. -/
theorem find_eq_some_iff {v : Var} {n : Node} {bs : List (Var × Node)}
    (hs : bs.Pairwise fun a b => a.1 < b.1) : find v bs = some n ↔ (v, n) ∈ bs := by
  induction bs with
  | nil => simp [find]
  | cons d rest ih =>
    obtain ⟨w, m⟩ := d
    obtain ⟨hd, hrest⟩ := List.pairwise_cons.1 hs
    have hlater : (v, n) ∈ rest → w < v := fun h => hd _ h
    simp only [find, List.mem_cons, Prod.mk.injEq]
    split
    · rename_i he
      have hnot : (v, n) ∉ rest := fun h => Nat.ne_of_gt (hlater h) he
      simp [he, he ▸ hnot, eq_comm]
    · rename_i hne
      split
      · rename_i hlt
        have hnot : (v, n) ∉ rest := fun h => Nat.lt_asymm hlt (hlater h)
        simp [hne, hnot]
      · rw [ih hrest]
        simp [hne]

theorem find_drop {v w : Var} {bs : List (Var × Node)}
    (hs : bs.Pairwise fun a b => a.1 < b.1) :
    find w (drop v bs) = if w = v then none else find w bs := by
  induction bs with
  | nil => simp [drop, find]
  | cons d rest ih =>
    obtain ⟨x, m⟩ := d
    obtain ⟨hd, hrest⟩ := List.pairwise_cons.1 hs
    -- The bindings after the head are of larger variables.
    have hsmall : ∀ y, y ≤ x → find y rest = none := fun y hy => by
      refine Option.eq_none_iff_forall_ne_some.2 fun n hn => ?_
      exact absurd (hd _ ((find_eq_some_iff hrest).1 hn)) (Nat.not_lt.2 hy)
    simp only [drop]
    split
    · rename_i hvx
      by_cases h : w = v
      · subst h
        simp [find, Nat.ne_of_lt hvx, hvx]
      · simp [h]
    · split
      · rename_i hvx
        subst hvx
        by_cases h : w = v
        · simp [h, hsmall v (Nat.le_refl v)]
        · by_cases hwv : w < v
          · simp [find, h, hwv, hsmall w (Nat.le_of_lt hwv)]
          · simp [find, h, hwv]
      · rename_i hlt hne
        by_cases h : w = v
        · subst h
          simp [find, hne, hlt, ih hrest]
        · simp [find, h, ih hrest]

/-! ## Reading -/

@[simp] theorem get?_empty (v : Var) : empty.get? v = none := rfl

@[simp] theorem get?_bind (a : Assignment) (v w : Var) (n : Node) :
    (a.bind v n).get? w = if w = v then some n else a.get? w :=
  find_put v w n a.bindings

@[simp] theorem get?_unbind (a : Assignment) (v w : Var) :
    (a.unbind v).get? w = if w = v then none else a.get? w :=
  find_drop a.sorted

theorem mem_bindings {a : Assignment} {v : Var} {n : Node} :
    (v, n) ∈ a.bindings ↔ a.get? v = some n :=
  (find_eq_some_iff a.sorted).symm

/-- Assignments that read alike are equal. -/
theorem ext_get? {a b : Assignment} (h : ∀ v, a.get? v = b.get? v) : a = b := by
  have hnodup : ∀ c : Assignment, c.bindings.Nodup := fun c =>
    c.sorted.imp fun hlt he => Nat.ne_of_lt hlt (congrArg Prod.fst he)
  have hperm : a.bindings.Perm b.bindings := by
    rw [List.perm_ext_iff_of_nodup (hnodup a) (hnodup b)]
    rintro ⟨v, n⟩
    rw [mem_bindings, mem_bindings, h v]
  have heq : a.bindings = b.bindings :=
    hperm.eq_of_pairwise (fun x y _ _ hxy hyx => absurd hxy (Nat.lt_asymm hyx)) a.sorted b.sorted
  cases a
  cases b
  cases heq
  rfl

/-- Binding a variable twice keeps the second node. -/
@[simp] theorem bind_bind (a : Assignment) (v : Var) (m n : Node) :
    (a.bind v m).bind v n = a.bind v n := by
  apply ext_get?
  intro w
  by_cases h : w = v
  · simp [h]
  · simp [h]

/-- The nodes of a list of variables, read one by one. -/
theorem tuple?_eq_some_iff {a : Assignment} {vars : List Var} {t : List Node} :
    a.tuple? vars = some t ↔ vars.map a.get? = t.map some := by
  induction vars generalizing t with
  | nil => cases t <;> simp [tuple?]
  | cons v rest ih =>
    have hcons : a.tuple? (v :: rest) =
        (a.get? v).bind fun n => (a.tuple? rest).map (n :: ·) := by
      simp only [tuple?, List.mapM_cons]
      cases a.get? v with
      | none => rfl
      | some n => cases rest.mapM a.get? <;> rfl
    rw [hcons]
    cases t with
    | nil =>
      cases hv : a.get? v <;> simp [Option.bind]
    | cons n ns =>
      rw [List.map_cons, List.map_cons, List.cons.injEq, ← ih]
      cases hv : a.get? v with
      | none => simp
      | some m =>
        cases hr : a.tuple? rest <;> simp

theorem length_of_tuple? {a : Assignment} {vars : List Var} {t : List Node}
    (h : a.tuple? vars = some t) : t.length = vars.length := by
  have hmap := congrArg List.length (tuple?_eq_some_iff.1 h)
  simpa using hmap.symm

/-- A tuple pairs every variable with the node it is bound to. -/
theorem tuple?_eq_some_iff_zip {a : Assignment} {vars : List Var} {t : List Node} :
    a.tuple? vars = some t ↔
      vars.length = t.length ∧ ∀ v n, (v, n) ∈ vars.zip t → a.get? v = some n := by
  rw [tuple?_eq_some_iff]
  induction vars generalizing t with
  | nil => cases t <;> simp
  | cons v rest ih =>
    cases t with
    | nil => simp
    | cons n ns =>
      rw [List.map_cons, List.map_cons, List.cons.injEq, ih, List.zip_cons_cons]
      constructor
      · rintro ⟨hv, hlen, hrest⟩
        refine ⟨by simp [hlen], fun w m hm => ?_⟩
        rcases List.mem_cons.1 hm with heq | hm
        · cases heq
          exact hv
        · exact hrest w m hm
      · rintro ⟨hlen, hall⟩
        exact ⟨hall v n List.mem_cons_self, by simpa using hlen,
          fun w m hm => hall w m (List.mem_cons_of_mem _ hm)⟩

/-- Every node of a tuple is what some variable is bound to. -/
theorem exists_get?_of_mem_tuple? {a : Assignment} {vars : List Var} {t : List Node} {n : Node}
    (h : a.tuple? vars = some t) (hn : n ∈ t) : ∃ v ∈ vars, a.get? v = some n := by
  have hmem : some n ∈ vars.map a.get? := by
    rw [tuple?_eq_some_iff.1 h]
    exact List.mem_map_of_mem hn
  exact List.mem_map.1 hmem

/-- A list of bound variables has a tuple. -/
theorem exists_tuple? {a : Assignment} {vars : List Var}
    (h : ∀ v ∈ vars, ∃ n, a.get? v = some n) : ∃ t, a.tuple? vars = some t := by
  induction vars with
  | nil => exact ⟨[], rfl⟩
  | cons v rest ih =>
    obtain ⟨n, hn⟩ := h v List.mem_cons_self
    obtain ⟨t, ht⟩ := ih fun w hw => h w (List.mem_cons_of_mem _ hw)
    refine ⟨n :: t, ?_⟩
    rw [tuple?_eq_some_iff] at ht ⊢
    rw [List.map_cons, List.map_cons, hn, ht]

/-! ## Sending the nodes through a map -/

/-- Replace the node of every binding, with the variable in view. -/
def mapWith (g : Var → Node → Node) (a : Assignment) : Assignment :=
  ⟨a.bindings.map fun b => (b.1, g b.1 b.2), List.pairwise_map.2 a.sorted⟩

/-- Replace the node of every binding. -/
def map (f : Node → Node) (a : Assignment) : Assignment := a.mapWith fun _ => f

@[simp] theorem get?_mapWith (g : Var → Node → Node) (a : Assignment) (v : Var) :
    (a.mapWith g).get? v = (a.get? v).map (g v) := by
  obtain ⟨bs, hs⟩ := a
  simp only [get?, mapWith]
  clear hs
  induction bs with
  | nil => rfl
  | cons b rest ih =>
    by_cases h : v = b.1
    · simp [find, h]
    · by_cases hlt : v < b.1
      · simp [find, h, hlt]
      · simp [find, h, hlt, ih]

@[simp] theorem get?_map (f : Node → Node) (a : Assignment) (v : Var) :
    (a.map f).get? v = (a.get? v).map f :=
  get?_mapWith _ a v

@[simp] theorem map_id (a : Assignment) : a.map id = a := by
  apply ext_get?
  intro v
  simp

theorem map_map (f g : Node → Node) (a : Assignment) : (a.map f).map g = a.map (g ∘ f) := by
  apply ext_get?
  intro v
  simp

theorem map_bind (f : Node → Node) (a : Assignment) (v : Var) (n : Node) :
    (a.bind v n).map f = (a.map f).bind v (f n) := by
  apply ext_get?
  intro w
  by_cases h : w = v
  · simp [h]
  · simp [h]

theorem map_bindAll (f : Node → Node) (vars : List Var) (t : List Node) (a : Assignment) :
    (a.bindAll vars t).map f = (a.map f).bindAll vars (t.map f) := by
  induction vars generalizing t a with
  | nil => rfl
  | cons v rest ih =>
    cases t with
    | nil => rfl
    | cons n ns =>
      have h := ih ns (a.bind v n)
      rw [map_bind] at h
      exact h

theorem tuple?_map (f : Node → Node) (a : Assignment) (vars : List Var) :
    (a.map f).tuple? vars = (a.tuple? vars).map (List.map f) := by
  cases h : a.tuple? vars with
  | some t =>
    rw [tuple?_eq_some_iff] at h
    simp only [Option.map_some, tuple?_eq_some_iff]
    calc vars.map (a.map f).get?
        = (vars.map a.get?).map (Option.map f) := by simp
      _ = (t.map f).map some := by simp [h]
  | none =>
    refine Option.eq_none_iff_forall_ne_some.2 fun t ht => ?_
    -- A tuple of the image would bind every variable already before.
    have hbound : ∀ v ∈ vars, ∃ n, a.get? v = some n := by
      intro v hv
      have hmem : (a.map f).get? v ∈ t.map some := by
        rw [← tuple?_eq_some_iff.1 ht]
        exact List.mem_map_of_mem hv
      obtain ⟨m, _, hm⟩ := List.mem_map.1 hmem
      rw [get?_map] at hm
      obtain ⟨n, hn, _⟩ := Option.map_eq_some_iff.1 hm.symm
      exact ⟨n, hn⟩
    obtain ⟨u, hu⟩ := exists_tuple? hbound
    rw [h] at hu
    cases hu

/-! ## Ranges -/

/-- Every bound node is in a set. -/
def Within (a : Assignment) (nodes : SortedSet Node) : Prop :=
  ∀ v n, a.get? v = some n → n ∈ nodes

/-- The assignment gives a node of a set to exactly the variables of a list. -/
structure Assigns (a : Assignment) (vars : List Var) (nodes : SortedSet Node) : Prop where
  /-- The nodes are in the set. -/
  within : a.Within nodes
  /-- The bound variables are those of the list. -/
  bound : ∀ v, (a.get? v).isSome ↔ v ∈ vars

theorem within_empty (nodes : SortedSet Node) : empty.Within nodes := by
  intro v n h
  simp at h

theorem Within.bind {a : Assignment} {nodes : SortedSet Node} (h : a.Within nodes) (v : Var)
    {n : Node} (hn : n ∈ nodes) : (a.bind v n).Within nodes := by
  intro w m hm
  rw [get?_bind] at hm
  split at hm
  · cases hm
    exact hn
  · exact h w m hm

theorem Within.map {a : Assignment} {nodes nodes' : SortedSet Node} (h : a.Within nodes)
    {f : Node → Node} (hf : ∀ n ∈ nodes, f n ∈ nodes') : (a.map f).Within nodes' := by
  intro v m hm
  rw [get?_map] at hm
  obtain ⟨n, hn, rfl⟩ := Option.map_eq_some_iff.1 hm
  exact hf n (h v n hn)

/-- Maps that agree on the bound nodes do the same to an assignment. -/
theorem Within.map_congr {a : Assignment} {nodes : SortedSet Node} (h : a.Within nodes)
    {f g : Node → Node} (hfg : ∀ n ∈ nodes, f n = g n) : a.map f = a.map g := by
  apply ext_get?
  intro v
  cases hv : a.get? v with
  | none => simp [hv]
  | some n => simp [hv, hfg n (h v n hv)]

theorem Within.bindAll {nodes : SortedSet Node} (vars : List Var) {t : List Node}
    (ht : ∀ n ∈ t, n ∈ nodes) {a : Assignment} (h : a.Within nodes) :
    (a.bindAll vars t).Within nodes := by
  induction vars generalizing t a with
  | nil => exact h
  | cons v rest ih =>
    cases t with
    | nil => exact h
    | cons n ns =>
      have hn : n ∈ nodes := ht n List.mem_cons_self
      exact ih (fun m hm => ht m (List.mem_cons_of_mem _ hm)) (h.bind v hn)

theorem Within.of_mem_tuple? {a : Assignment} {nodes : SortedSet Node} (h : a.Within nodes)
    {vars : List Var} {t : List Node} (ht : a.tuple? vars = some t) : ∀ n ∈ t, n ∈ nodes := by
  intro n hn
  obtain ⟨v, _, hv⟩ := exists_get?_of_mem_tuple? ht hn
  exact h v n hv

theorem Assigns.mapWith {a : Assignment} {vars : List Var} {nodes nodes' : SortedSet Node}
    (h : a.Assigns vars nodes) {g : Var → Node → Node}
    (hg : ∀ v n, a.get? v = some n → g v n ∈ nodes') : (a.mapWith g).Assigns vars nodes' where
  within v n hn := by
    rw [get?_mapWith] at hn
    obtain ⟨m, hm, rfl⟩ := Option.map_eq_some_iff.1 hn
    exact hg v m hm
  bound v := by simpa using h.bound v

end Assignment

end ShapeAnalysis
