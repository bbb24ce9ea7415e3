import ShapeAnalysis.Formula.Basic

/-!
# Assignments

A partial map from variables to nodes, kept as a list of bindings sorted by
variable.
-/

namespace ShapeAnalysis

/-- A node of a structure, by number.  An engine with numbers of 32 bits has the nodes below
`2 ^ 32`. -/
abbrev Node := Nat

/-- The name of a node. -/
def Node.text (n : Node) : String := s!"u{n}"

/-- A partial map from variables to nodes. -/
structure Assignment where
  /-- The bindings, in the order of the variables. -/
  bindings : List (Var × Node)
  /-- Variables strictly increase along the bindings. -/
  sorted : bindings.Pairwise fun a b => a.1 < b.1
deriving DecidableEq, Repr

namespace Assignment

/-! ## Binding lists -/

/-- The node among sorted bindings that a variable is bound to. -/
def find (v : Var) : List (Var × Node) → Option Node
  | [] => none
  | (w, n) :: rest => if v = w then some n else if v < w then none else find v rest

/-- Put a binding among sorted bindings, in the place of an old one. -/
def put (v : Var) (n : Node) : List (Var × Node) → List (Var × Node)
  | [] => [(v, n)]
  | (w, m) :: rest =>
    if v < w then (v, n) :: (w, m) :: rest
    else if v = w then (v, n) :: rest
    else (w, m) :: put v n rest

/-- Drop the binding of a variable from sorted bindings. -/
def drop (v : Var) : List (Var × Node) → List (Var × Node)
  | [] => []
  | (w, m) :: rest =>
    if v < w then (w, m) :: rest
    else if v = w then rest
    else (w, m) :: drop v rest

/-- Every binding after a put is the new one or was there before. -/
theorem eq_or_mem_of_mem_put {v : Var} {n : Node} {bs : List (Var × Node)} {b : Var × Node}
    (h : b ∈ put v n bs) : b = (v, n) ∨ b ∈ bs := by
  induction bs with
  | nil => exact .inl (List.mem_singleton.1 h)
  | cons d rest ih =>
    obtain ⟨w, m⟩ := d
    simp only [put] at h
    split at h
    · exact List.mem_cons.1 h
    · split at h
      · rcases List.mem_cons.1 h with rfl | h
        · exact .inl rfl
        · exact .inr (List.mem_cons_of_mem _ h)
      · rcases List.mem_cons.1 h with rfl | h
        · exact .inr List.mem_cons_self
        · exact (ih h).imp id (List.mem_cons_of_mem _)

/-- Putting a binding keeps the variables strictly increasing. -/
theorem pairwise_put {v : Var} {n : Node} {bs : List (Var × Node)}
    (h : bs.Pairwise fun a b => a.1 < b.1) :
    (put v n bs).Pairwise fun a b => a.1 < b.1 := by
  induction bs with
  | nil => simp [put]
  | cons d rest ih =>
    obtain ⟨w, m⟩ := d
    obtain ⟨hd, hrest⟩ := List.pairwise_cons.1 h
    simp only [put]
    split
    · rename_i hlt
      refine List.pairwise_cons.2 ⟨fun b hb => ?_, h⟩
      rcases List.mem_cons.1 hb with rfl | hb
      · exact hlt
      · exact Nat.lt_trans hlt (hd b hb)
    · split
      · rename_i heq
        exact List.pairwise_cons.2 ⟨fun b hb => heq ▸ hd b hb, hrest⟩
      · refine List.pairwise_cons.2 ⟨fun b hb => ?_, ih hrest⟩
        rcases eq_or_mem_of_mem_put hb with rfl | hb
        · exact Nat.lt_of_le_of_ne (Nat.le_of_not_lt ‹_›) (Ne.symm ‹_›)
        · exact hd b hb

/-- Dropping a binding leaves a part of the bindings. -/
theorem drop_sublist (v : Var) (bs : List (Var × Node)) : (drop v bs).Sublist bs := by
  induction bs with
  | nil => exact .slnil
  | cons d rest ih =>
    obtain ⟨w, m⟩ := d
    simp only [drop]
    split
    · exact .refl _
    · split
      · exact .cons _ (.refl _)
      · exact ih.cons_cons _

/-! ## Operations -/

/-- The assignment that binds nothing. -/
def empty : Assignment := ⟨[], .nil⟩

instance : Inhabited Assignment := ⟨empty⟩

/-- The node a variable is bound to. -/
def get? (a : Assignment) (v : Var) : Option Node := find v a.bindings

/-- Whether a variable is bound. -/
def binds (a : Assignment) (v : Var) : Bool := (a.get? v).isSome

/-- Bind a variable, in the place of an earlier binding. -/
def bind (a : Assignment) (v : Var) (n : Node) : Assignment :=
  ⟨put v n a.bindings, pairwise_put a.sorted⟩

/-- Remove the binding of a variable. -/
def unbind (a : Assignment) (v : Var) : Assignment :=
  ⟨drop v a.bindings, a.sorted.sublist (drop_sublist v _)⟩

/-- Bind variables to nodes pairwise, from left to right. -/
def bindAll (a : Assignment) (vars : List Var) (nodes : List Node) : Assignment :=
  (vars.zip nodes).foldl (fun a b => a.bind b.1 b.2) a

/-- The nodes of a list of variables, `none` if one of them is unbound. -/
def tuple? (a : Assignment) (vars : List Var) : Option (List Node) := vars.mapM a.get?

/-- The number of bound variables. -/
def size (a : Assignment) : Nat := a.bindings.length

/-- The text of an assignment. -/
def text (a : Assignment) : String :=
  "[" ++ ", ".intercalate (a.bindings.map fun (v, n) => v.text ++ "=" ++ n.text) ++ "]"

end Assignment

end ShapeAnalysis
