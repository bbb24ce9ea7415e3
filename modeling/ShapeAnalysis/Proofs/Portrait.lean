import Mathlib.Algebra.Order.BigOperators.Group.List
import Mathlib.Algebra.Order.Ring.Nat
import Mathlib.Data.Fintype.BigOperators
import Mathlib.Data.Fintype.Powerset
import Mathlib.Data.Fintype.Vector
import ShapeAnalysis.Proofs.Merge

/-!
# Structures with unique names are finitely many

Where no two nodes share a canonical name, a name says which node is meant.  The
*portrait* of a structure consists of its names and of the value of every
predicate at every tuple of names.  Structures with the same portrait are
isomorphic (`isomorphic_of_portrait_eq`), and a vocabulary has finitely many
portraits.

So there are finitely many structures with unique names up to isomorphism, and
each has at most `V.atomCount` unknown values.
-/

namespace ShapeAnalysis

instance : Fintype Kleene := ⟨{.ff, .unknown, .tt}, by intro k; cases k <;> decide⟩

theorem card_kleene : Fintype.card Kleene = 3 := rfl

namespace Vocabulary

/-- The number of canonical names. -/
def nameCount (V : Vocabulary) : Nat := 3 ^ V.abstraction.length

/-- The number of atoms over the canonical names. -/
def atomCount (V : Vocabulary) : Nat := (V.ids.map fun p => V.nameCount ^ V.arity p).sum

/-- The number of portraits. -/
def portraitCount (V : Vocabulary) : Nat := 2 ^ V.nameCount * 3 ^ V.atomCount

end Vocabulary

namespace Structure

/-- A canonical name: a value for each abstraction predicate. -/
abbrev Name (V : Vocabulary) := List.Vector Kleene V.abstraction.length

theorem card_name (V : Vocabulary) : Fintype.card (Name V) = V.nameCount := by
  rw [card_vector, card_kleene, Vocabulary.nameCount]

/-- The names of a structure, and its values at tuples of names. -/
abbrev Portrait (V : Vocabulary) :=
  Finset (Name V) × ((p : Fin V.size) → List.Vector (Name V) (V.arity p) → Kleene)

theorem card_portrait (V : Vocabulary) : Fintype.card (Portrait V) = V.portraitCount := by
  have htable : ∀ p : Fin V.size, Fintype.card (List.Vector (Name V) (V.arity p) → Kleene) =
      3 ^ V.nameCount ^ V.arity p := by
    intro p
    rw [Fintype.card_fun, card_kleene, card_vector, card_name]
  have hatoms : ∑ p : Fin V.size, V.nameCount ^ V.arity p = V.atomCount :=
    Fin.sum_univ_eq_sum_range (fun p => V.nameCount ^ V.arity p) V.size
  rw [Fintype.card_prod, Fintype.card_finset, Fintype.card_pi, card_name,
    Finset.prod_congr rfl fun p _ => htable p, Finset.prod_pow_eq_pow_sum, hatoms,
    Vocabulary.portraitCount]

variable {V : Vocabulary}

/-! ## Portraits -/

/-- The canonical name of a node. -/
def nameOf (s : Structure V) (n : Node) : Name V :=
  ⟨s.profile V.abstraction n, by simp [profile]⟩

/-- The first node with a name. -/
def named (s : Structure V) (name : Name V) : Node :=
  (s.nodes.toList.find? fun n => s.nameOf n = name).getD 0

/-- What a structure looks like by names. -/
def portrait (s : Structure V) : Portrait V :=
  ((s.nodes.toList.map s.nameOf).toFinset, fun p names => s.value p (names.toList.map s.named))

theorem mem_portrait_fst {s : Structure V} {name : Name V} :
    name ∈ s.portrait.1 ↔ ∃ n ∈ s.nodes, s.nameOf n = name := by
  simp [portrait]

section Unique

variable {s : Structure V} (h : s.canonicalNames.Nodup)
include h

theorem eq_of_nameOf_eq {m n : Node} (hm : m ∈ s.nodes) (hn : n ∈ s.nodes)
    (heq : s.nameOf m = s.nameOf n) : m = n :=
  eq_of_profile_eq h hm hn (congrArg List.Vector.toList heq)

theorem named_nameOf {n : Node} (hn : n ∈ s.nodes) : s.named (s.nameOf n) = n := by
  unfold named
  cases hfind : s.nodes.toList.find? fun m => s.nameOf m = s.nameOf n with
  | none => simpa using List.find?_eq_none.1 hfind n hn
  | some m =>
    have hname : s.nameOf m = s.nameOf n := by simpa using List.find?_some hfind
    exact eq_of_nameOf_eq h (List.mem_of_find?_eq_some hfind) hn hname

/-- There are at most as many nodes as names. -/
theorem length_nodes_le : s.nodes.toList.length ≤ V.nameCount := by
  have hnodup : (s.nodes.toList.map s.nameOf).Nodup :=
    s.nodes.nodup.map_on fun m hm n hn heq => eq_of_nameOf_eq h hm hn heq
  have hle := hnodup.length_le_card
  rwa [List.length_map, card_name] at hle

end Unique

/-- Structures with unique names and the same portrait are isomorphic. -/
theorem isomorphic_of_portrait_eq {s t : Structure V} (hs : s.canonicalNames.Nodup)
    (ht : t.canonicalNames.Nodup) (h : s.portrait = t.portrait) : Isomorphic s t := by
  have hnames : ∀ name, (∃ n ∈ s.nodes, s.nameOf n = name) ↔ ∃ m ∈ t.nodes, t.nameOf m = name := by
    intro name
    rw [← mem_portrait_fst, ← mem_portrait_fst, h]
  -- A node goes to the node with its name.
  have hpartner : ∀ n ∈ s.nodes, t.named (s.nameOf n) ∈ t.nodes ∧
      t.nameOf (t.named (s.nameOf n)) = s.nameOf n := by
    intro n hn
    obtain ⟨m, hm, hmn⟩ := (hnames _).1 ⟨n, hn, rfl⟩
    rw [← hmn, named_nameOf ht hm]
    exact ⟨hm, rfl⟩
  refine ⟨fun n => t.named (s.nameOf n), fun n hn => (hpartner n hn).1, fun m hm => ?_,
    fun m hm n hn heq => ?_, fun p u hu => ?_⟩
  · obtain ⟨n, hn, hnm⟩ := (hnames _).2 ⟨m, hm, rfl⟩
    exact ⟨n, hn, by rw [hnm, named_nameOf ht hm]⟩
  · refine eq_of_nameOf_eq hs hm hn ?_
    rw [← (hpartner m hm).2, ← (hpartner n hn).2]
    exact congrArg t.nameOf heq
  · obtain ⟨hlt, hlen, hmem⟩ := hu
    dsimp only at hlt hlen hmem
    let names : List.Vector (Name V) (V.arity p) := ⟨u.map s.nameOf, by rw [List.length_map, hlen]⟩
    have hvalue : s.value p ((u.map s.nameOf).map s.named) =
        t.value p ((u.map s.nameOf).map t.named) :=
      congrFun (congrFun (congrArg Prod.snd h) ⟨p, hlt⟩) names
    have hback : (u.map s.nameOf).map s.named = u := by
      rw [List.map_map]
      exact map_eq_self fun n hn => named_nameOf hs (hmem n hn)
    rw [hback, List.map_map] at hvalue
    exact hvalue.symm

/-! ## Unknown values -/

/-- The atoms of a structure. -/
def atoms (s : Structure V) : List Atom :=
  V.ids.flatMap fun p => (tuples s.nodes.toList (V.arity p)).map (Atom.mk p)

theorem mem_atoms {s : Structure V} {a : Atom} : a ∈ s.atoms ↔ s.Admits a := by
  simp only [atoms, List.mem_flatMap, List.mem_map, mem_tuples, Vocabulary.ids, List.mem_range]
  constructor
  · rintro ⟨p, hp, u, hu, rfl⟩
    exact ⟨hp, hu⟩
  · rintro ⟨hp, hu⟩
    exact ⟨a.pred, hp, a.args, hu, rfl⟩

theorem length_atoms_le {s : Structure V} (h : s.canonicalNames.Nodup) :
    s.atoms.length ≤ V.atomCount := by
  simp only [atoms, Vocabulary.atomCount, List.length_flatMap, List.length_map, length_tuples]
  exact List.sum_le_sum fun p _ => Nat.pow_le_pow_left (length_nodes_le h) _

/-- A structure with unique names has boundedly many unknown values. -/
theorem WellFormed.length_unknownAtoms_le {s : Structure V} (hs : s.WellFormed)
    (h : s.canonicalNames.Nodup) : s.unknownAtoms.length ≤ V.atomCount := by
  have hsub : s.unknownAtoms ⊆ s.atoms := by
    intro a ha
    exact mem_atoms.2 (hs.admits_of_unknown (mem_unknownAtoms.1 ha))
  exact ((List.subperm_of_subset s.nodup_unknownAtoms hsub).length_le).trans (length_atoms_le h)

end Structure

end ShapeAnalysis
