import ShapeAnalysis.Proofs.Blur
import ShapeAnalysis.Proofs.Combine
import ShapeAnalysis.Proofs.Merge

/-!
# Look-ups that never miss

Blur, the isomorphism test, the join by names and the union of two structures look nodes
up in maps that they made from a list of nodes.  Where a map has no entry they go on with
a default.  Here each of them stands once more with look-ups that can fail, and fails with
them.

The entries of a well-formed structure mention its nodes only, and the maps are made from
the nodes.  So on well-formed structures no look-up fails, and no default is ever used
(`blur?_eq`, `isIsomorphic?_eq`, `merge?_eq`, `combine?_eq`).
-/

namespace ShapeAnalysis

/-! ## Lists of answers -/

section Lists

variable {α β : Type} {xs : List α}

theorem mapM_eq_some {f : α → Option β} {g : α → β} (h : ∀ x ∈ xs, f x = some (g x)) :
    xs.mapM f = some (xs.map g) := by
  induction xs with
  | nil => rfl
  | cons x xs ih =>
    rw [List.mapM_cons, h x List.mem_cons_self, ih fun y hy => h y (List.mem_cons_of_mem _ hy)]
    rfl

theorem allM_eq_some {f : α → Option Bool} {g : α → Bool} (h : ∀ x ∈ xs, f x = some (g x)) :
    xs.allM f = some (xs.all g) := by
  induction xs with
  | nil => rfl
  | cons x xs ih =>
    rw [List.allM, h x List.mem_cons_self, List.all_cons]
    cases g x with
    | false => rfl
    | true => exact ih fun y hy => h y (List.mem_cons_of_mem _ hy)

theorem anyM_eq_some {f : α → Option Bool} {g : α → Bool} (h : ∀ x ∈ xs, f x = some (g x)) :
    xs.anyM f = some (xs.any g) := by
  induction xs with
  | nil => rfl
  | cons x xs ih =>
    rw [List.anyM, h x List.mem_cons_self, List.any_cons]
    cases g x with
    | true => rfl
    | false => exact ih fun y hy => h y (List.mem_cons_of_mem _ hy)

end Lists

/-- A list of nodes with something for each finds what it has for a node. -/
theorem lookup_map_self {β : Type} (f : Node → β) {ns : List Node} {n : Node} (hn : n ∈ ns) :
    (ns.map fun m => (m, f m)).lookup n = some (f n) := by
  induction ns with
  | nil => cases hn
  | cons m ns ih =>
    rw [List.map_cons, List.lookup_cons]
    cases hm : n == m with
    | true => rw [beq_iff_eq.1 hm]
    | false =>
      refine ih ((List.mem_cons.1 hn).resolve_left fun h => ?_)
      simp [h] at hm

namespace Structure

variable {V : Vocabulary}

/-- Rename the nodes of entries, if each has a new name. -/
def renameEntries? (f : Node → Option Node) (es : List (Atom × Kleene)) :
    Option (List (Atom × Kleene)) :=
  es.mapM fun e => (e.1.args.mapM f).map fun t => (⟨e.1.pred, t⟩, e.2)

theorem renameEntries?_eq {f : Node → Option Node} {g : Node → Node} {es : List (Atom × Kleene)}
    (h : ∀ e ∈ es, ∀ n ∈ e.1.args, f n = some (g n)) :
    renameEntries? f es = some (es.map fun e => (e.1.map g, e.2)) := by
  refine mapM_eq_some fun e he => ?_
  rw [mapM_eq_some (h e he)]
  rfl

/-! ## Blur -/

/-- The node that a node is merged into, if it has a name. -/
def representative? (l : Naming) (n : Node) : Option Node := do
  let name ← l.lookup n
  (l.find? (·.2 = name)).map Prod.fst

/-- The size of a group, found under the node that the group is merged into. -/
def groupSize? (l : Naming) (n : Node) : Option Nat := do
  let m ← representative? l n
  if m = n then some (l.groupSize n) else none

/-- Settle what was gathered for an atom, if the size of every group is found. -/
def settle? (l : Naming) (e : Atom × Kleene × Nat) : Option (Atom × Kleene) :=
  (e.1.args.mapM (groupSize? l)).map fun sizes =>
    (e.1, if e.2.2 < ((sizes.map UInt64.ofNat).foldl (· * ·) 1).toNat then e.2.1.join .ff
      else e.2.1)

/-- The values after merging, if every node is found. -/
def mergedValues? (l : Naming) (values : SortedMap Atom Kleene) :
    Option (SortedMap Atom Kleene) := do
  let renamed ← renameEntries? (representative? l) values.entries
  let settled ← (renamed.foldl (gather id) ∅).entries.mapM (settle? l)
  return SortedMap.insertAll ∅ (settled.filterMap fun e => if e.2 = .ff then none else some e)

/-- Merge the nodes that share a canonical name, if every node is found. -/
def blur? (s : Structure V) : Option (Structure V) :=
  let l := s.canonicalNaming
  if l.names.Nodup then some s
  else do
    let values ← mergedValues? l s.values
    let firsts ← s.nodes.toList.mapM (representative? l)
    let merged : Structure V := { s with nodes := s.nodes.filter (· ∈ firsts), values }
    let sizes ← merged.nodes.toList.mapM fun n => (groupSize? l n).map (n, ·)
    return sizes.foldl (fun t e => if e.2 > 1 then t.set Vocabulary.sm [e.1] .unknown else t)
      merged

theorem representative?_eq {s : Structure V} {n : Node} (hn : n ∈ s.nodes) :
    representative? s.canonicalNaming n = some (s.canonicalNaming.representative n) := by
  have hlookup : s.canonicalNaming.lookup n = some (s.profile V.abstraction n) :=
    lookup_naming hn
  have hfind : (s.canonicalNaming.find? (·.2 = s.profile V.abstraction n)).isSome := by
    rw [List.find?_isSome]
    exact ⟨(n, s.profile V.abstraction n), List.mem_map_of_mem hn, by simp⟩
  obtain ⟨e, he⟩ := Option.isSome_iff_exists.1 hfind
  simp [representative?, Naming.representative, hlookup, he]

theorem groupSize?_eq {s : Structure V} {n : Node} (hn : n ∈ s.nodes)
    (hrep : s.canonicalNaming.representative n = n) :
    groupSize? s.canonicalNaming n = some (s.canonicalNaming.groupSize n) := by
  simp [groupSize?, representative?_eq hn, hrep]

theorem gather_id (rep : Node → Node) (m : SortedMap Atom (Kleene × Nat)) (e : Atom × Kleene) :
    gather id m (e.1.map rep, e.2) = gather rep m e := by
  simp [gather, Atom.map]

section

variable {s : Structure V} (hs : s.WellFormed)
include hs

/-- What is gathered is at tuples of representatives. -/
theorem WellFormed.representative_of_gathered {e : Atom × Kleene × Nat}
    (he : e ∈ (s.values.entries.foldl (gather s.canonicalNaming.representative) ∅).entries)
    {n : Node} (hn : n ∈ e.1.args) :
    n ∈ s.nodes ∧ s.canonicalNaming.representative n = n := by
  have hget := SortedMap.mem_entries.1 he
  rw [get?_foldl_gather, SortedMap.get?_empty] at hget
  rcases foldl_tally_none (s.values.entries.filter fun d =>
    d.1.map s.canonicalNaming.representative = e.1) with ⟨-, htally⟩ | ⟨hne, -⟩
  · rw [htally] at hget
    cases hget
  · obtain ⟨d, hd⟩ := List.exists_mem_of_ne_nil _ hne
    obtain ⟨hentry, hmap⟩ := List.mem_filter.1 hd
    rw [← of_decide_eq_true hmap] at hn
    obtain ⟨m, hm, rfl⟩ := List.mem_map.1 hn
    have hms := (hs.admits d hentry).2.2 m hm
    exact ⟨representative_mem hms, representative_representative hms⟩

theorem WellFormed.mergedValues?_eq : mergedValues? s.canonicalNaming s.values =
    some (mergedValues s.canonicalNaming.representative s.canonicalNaming.groupSize
      s.values) := by
  have hrenamed : renameEntries? (representative? s.canonicalNaming) s.values.entries =
      some (s.values.entries.map fun e => (e.1.map s.canonicalNaming.representative, e.2)) :=
    renameEntries?_eq fun e he n hn => representative?_eq ((hs.admits e he).2.2 n hn)
  have hgathered : (s.values.entries.map fun e =>
      (e.1.map s.canonicalNaming.representative, e.2)).foldl (gather id) ∅ =
      s.values.entries.foldl (gather s.canonicalNaming.representative) ∅ := by
    rw [List.foldl_map]
    simp only [gather_id]
  have hsettled : (s.values.entries.foldl (gather s.canonicalNaming.representative) ∅).entries.mapM
      (settle? s.canonicalNaming) =
      some ((s.values.entries.foldl (gather s.canonicalNaming.representative) ∅).entries.map
        fun e => (e.1, settleMerged s.canonicalNaming.groupSize e.1 e.2)) := by
    refine mapM_eq_some fun e he => ?_
    have hsizes := mapM_eq_some fun n hn =>
      let h := hs.representative_of_gathered he hn
      groupSize?_eq h.1 h.2
    rw [settle?, hsizes, Option.map_some, List.map_map]
    rfl
  simp only [mergedValues?, hrenamed, hgathered, hsettled, Option.bind_eq_bind, Option.bind_some,
    mergedValues_eq, List.filterMap_map]
  rfl

/-- On well-formed structures blur finds every node. -/
theorem WellFormed.blur?_eq : s.blur? = some s.blur := by
  unfold Structure.blur? Structure.blur
  dsimp only
  split
  · rfl
  · have hfirsts : s.nodes.toList.mapM (representative? s.canonicalNaming) =
        some (s.nodes.toList.map s.canonicalNaming.representative) :=
      mapM_eq_some fun n hn => representative?_eq hn
    have hkept : (s.nodes.filter (· ∈ s.nodes.toList.map s.canonicalNaming.representative)) =
        s.nodes.filter fun n => s.canonicalNaming.representative n = n := by
      refine SortedSet.filter_congr fun n hn => ?_
      rw [decide_eq_decide, List.mem_map]
      constructor
      · rintro ⟨m, hm, rfl⟩
        exact representative_representative hm
      · intro hrep
        exact ⟨n, hn, hrep⟩
    have hsizes : s.merged.nodes.toList.mapM
        (fun n => (groupSize? s.canonicalNaming n).map (n, ·)) =
        some (s.merged.nodes.toList.map fun n => (n, s.canonicalNaming.groupSize n)) := by
      refine mapM_eq_some fun n hn => ?_
      obtain ⟨hmem, hrep⟩ := mem_nodes_merged.1 hn
      rw [groupSize?_eq hmem hrep]
      rfl
    simp only [hs.mergedValues?_eq, hfirsts, hkept, Option.bind_eq_bind, Option.bind_some]
    simp only [Structure.merged] at hsizes
    rw [hsizes, Option.bind_some, List.foldl_map]
    rfl

end

/-! ## Isomorphism -/

/-- The node that a list of pairs maps a node to, if it maps it. -/
def image? (pairs : List (Node × Node)) (n : Node) : Option Node :=
  (pairs.find? fun e => e.1 = n).map Prod.snd

/-- Whether every entry of the relations has its value at the image, if all its nodes have
one. -/
def relationsAgree? (s t : Structure V) (pairs : List (Node × Node)) : Option Bool :=
  (relations V).allM fun p =>
    (s.entries p).allM fun e =>
      (e.1.mapM (image? pairs)).map fun u => decide (t.value p u = e.2)

/-- Search for images of the nodes that are left. -/
def extendMapping? (s t : Structure V) :
    List (Node × List Node) → List (Node × Node) → Option Bool
  | [], pairs => s.relationsAgree? t pairs
  | (a, candidates) :: rest, pairs =>
    candidates.anyM fun b =>
      if !(pairs.any fun e => e.2 = b) && s.pairAgrees t ((a, b) :: pairs) a b then
        extendMapping? s t rest ((a, b) :: pairs)
      else some false
termination_by structural rest => rest

/-- The nodes with a given name, if there is one. -/
def withName? (l : Naming) (name : List Kleene) : Option (List Node) :=
  if name ∈ l.names then some (l.withName name) else none

/-- Whether a bijection of the nodes keeps every value, if every look-up succeeds. -/
def isIsomorphic? (s t : Structure V) : Option Bool :=
  let mine := s.signatures
  let theirs := t.signatures
  if s.sameCounts t && mine.names.all (fun g => mine.names.count g = theirs.names.count g) then do
    let order ← (mine.mergeSort fun a b => signatureLe a.2 b.2).mapM fun e =>
      (withName? theirs e.2).map (e.1, ·)
    s.extendMapping? t order []
  else some false

section

variable {s t : Structure V} (hs : s.WellFormed)
include hs

/-- Pairs for all nodes answer for all entries. -/
theorem WellFormed.relationsAgree?_eq {pairs : List (Node × Node)}
    (hall : ∀ n ∈ s.nodes, ∃ e ∈ pairs, e.1 = n) :
    s.relationsAgree? t pairs = some (s.relationsAgree t pairs) := by
  refine allM_eq_some fun p _ => allM_eq_some fun e he => ?_
  have hwithin := (hs.get? (mem_entries_iff.1 he)).1.2.2
  have himages : e.1.mapM (image? pairs) = some (e.1.map (image pairs)) := by
    refine mapM_eq_some fun n hn => ?_
    obtain ⟨d, hd, hdn⟩ := hall n (hwithin n hn)
    have hfind : (pairs.find? fun e => e.1 = n).isSome := by
      rw [List.find?_isSome]
      exact ⟨d, hd, by simpa using hdn⟩
    obtain ⟨d', hd'⟩ := Option.isSome_iff_exists.1 hfind
    simp [image?, image, hd']
  rw [himages]
  rfl

/-- A search that has a pair or a place for every node ends with pairs for all. -/
theorem WellFormed.extendMapping?_eq (rest : List (Node × List Node))
    (pairs : List (Node × Node))
    (hall : ∀ n ∈ s.nodes, n ∈ rest.map Prod.fst ∨ ∃ e ∈ pairs, e.1 = n) :
    s.extendMapping? t rest pairs = some (s.extendMapping t rest pairs) := by
  induction rest generalizing pairs with
  | nil => exact hs.relationsAgree?_eq fun n hn => (hall n hn).resolve_left (by simp)
  | cons c rest ih =>
    obtain ⟨a, candidates⟩ := c
    refine anyM_eq_some fun b _ => ?_
    cases hfree : (!(pairs.any fun e => e.2 = b) && s.pairAgrees t ((a, b) :: pairs) a b) with
    | false => rfl
    | true =>
      refine ih ((a, b) :: pairs) fun n hn => ?_
      rcases hall n hn with hmem | ⟨e, he, hen⟩
      · rcases List.mem_cons.1 hmem with rfl | hmem
        · exact .inr ⟨_, List.mem_cons_self, rfl⟩
        · exact .inl hmem
      · exact .inr ⟨e, List.mem_cons_of_mem _ he, hen⟩

/-- On well-formed structures the isomorphism test finds every node and every name. -/
theorem WellFormed.isIsomorphic?_eq : s.isIsomorphic? t = some (s.isIsomorphic t) := by
  unfold Structure.isIsomorphic? Structure.isIsomorphic
  dsimp only
  cases hcounts : s.sameCounts t &&
      s.signatures.names.all (fun g => s.signatures.names.count g = t.signatures.names.count g) with
  | false => rfl
  | true =>
    have hcount : ∀ g ∈ s.signatures.names,
        s.signatures.names.count g = t.signatures.names.count g := by
      simpa using (Bool.and_eq_true_iff.1 hcounts).2
    have horder : (s.signatures.mergeSort fun a b => signatureLe a.2 b.2).mapM
        (fun e => (withName? t.signatures e.2).map (e.1, ·)) = some (s.searchOrder t) := by
      refine mapM_eq_some fun e he => ?_
      have hname : e.2 ∈ s.signatures.names :=
        List.mem_map_of_mem (List.mem_mergeSort.1 he)
      have hfound : e.2 ∈ t.signatures.names := by
        rw [← List.count_pos_iff, ← hcount e.2 hname]
        exact List.count_pos_iff.2 hname
      rw [withName?, if_pos hfound]
      rfl
    rw [horder]
    exact hs.extendMapping?_eq (s.searchOrder t) [] fun n hn =>
      .inl ((s.searchOrder_fst_perm t).mem_iff.2 hn)

end

/-! ## Joining by names -/

/-- Join a structure that matches by names, if every node and name is found. -/
def joinWith? (s t : Structure V) : Option (MergeOutcome × Structure V) := do
  let toMine ← t.canonicalNaming.mapM fun e =>
    (s.canonicalNaming.withName e.2).head?.map (e.1, ·)
  let renamed ← renameEntries? (fun n => toMine.lookup n) t.values.entries
  let joined := joinValues s.values ((∅ : SortedMap Atom Kleene).insertAll renamed)
  return if joined = s.values then (.subsumed, s) else (.merged, { s with values := joined })

/-- Merge a candidate into a structure, if every look-up succeeds. -/
def merge? (mode : JoinMode) (s t : Structure V) : Option (MergeOutcome × Structure V) :=
  let exactly := (s.isIsomorphic? t).map fun b =>
    (if b then MergeOutcome.subsumed else .unrelated, s)
  match mode with
  | .relational => exactly
  | .pointwise => if s.namesMatch t then s.joinWith? t else exactly

section

variable {s t : Structure V} (hs : s.WellFormed) (ht : t.WellFormed)
include ht

/-- Where structures match by names, the join finds every node and every name. -/
theorem WellFormed.joinWith?_eq (hmatch : s.namesMatch t = true) :
    s.joinWith? t = some (s.joinWith t) := by
  obtain ⟨hnodup, f, hf⟩ := namesMatch_iff.1 hmatch
  have hnodes : ∀ g : Node → Node, t.canonicalNaming.map (fun e => (e.1, g e.1)) =
      t.nodes.toList.map fun m => (m, g m) := by
    intro g
    rw [canonicalNaming, naming, List.map_map]
    rfl
  have htoMine : t.canonicalNaming.mapM
      (fun e => (s.canonicalNaming.withName e.2).head?.map (e.1, ·)) =
      some (t.nodes.toList.map fun m =>
        (m, namesake s.canonicalNaming t.canonicalNaming m)) := by
    rw [← hnodes]
    refine mapM_eq_some fun e he => ?_
    obtain ⟨m, hm, rfl⟩ := List.mem_map.1 he
    -- The node that goes to `m` has its name.
    obtain ⟨n, hn, rfl⟩ := hf.onto m hm
    have hmem : n ∈ s.canonicalNaming.withName (t.profile V.abstraction (f n)) := by
      simpa [Naming.withName, canonicalNaming, naming, hf.profile_of_outline hn] using hn
    have hlookup : t.canonicalNaming.lookup (f n) = some (t.profile V.abstraction (f n)) :=
      lookup_naming hm
    cases hlist : s.canonicalNaming.withName (t.profile V.abstraction (f n)) with
    | nil => simp [hlist] at hmem
    | cons m' rest => simp [namesake, hlookup, hlist]
  have hrenamed : renameEntries? (fun n => (t.nodes.toList.map fun m =>
        (m, namesake s.canonicalNaming t.canonicalNaming m)).lookup n) t.values.entries =
      some (t.values.entries.map fun e =>
        (e.1.map (namesake s.canonicalNaming t.canonicalNaming), e.2)) :=
    renameEntries?_eq fun e he n hn => lookup_map_self _ ((ht.admits e he).2.2 n hn)
  simp only [joinWith?, htoMine, hrenamed, Option.bind_eq_bind, Option.bind_some]
  rfl

include hs

theorem WellFormed.merge?_eq (mode : JoinMode) : merge? mode s t = some (merge mode s t) := by
  unfold merge? merge
  rw [hs.isIsomorphic?_eq]
  cases mode with
  | relational => rfl
  | pointwise =>
    dsimp only
    split
    · rename_i hmatch
      exact ht.joinWith?_eq hmatch
    · rfl

end

/-! ## The union -/

/-- The disjoint union of a call and an exit structure, if every node is found. -/
def combine? (combiner : Kleene → Kleene → Kleene) (call exit : Structure V) :
    Option (Structure V) := do
  let placed (s : Structure V) := s.values.entries.filter fun e => V.arity e.1.pred ≠ 0
  let fromCall ← renameEntries? (fun n => call.nodes.toList.idxOf? n) (placed call)
  let fromExit ← renameEntries?
    (fun n => (exit.nodes.toList.idxOf? n).map (call.nodes.size + ·)) (placed exit)
  let union : Structure V :=
    newNodes (call.nodes.size + exit.nodes.size) { constraints := call.constraints }
  let filled := { union with values := union.values.insertAll (fromCall ++ fromExit) }
  return (V.withArity 0).foldl
    (fun s p => s.set p [] (combiner (call.value p []) (exit.value p []))) filled

theorem idxOf?_of_mem {ns : List Node} {n : Node} (hn : n ∈ ns) :
    ns.idxOf? n = some (ns.idxOf n) := by
  cases hidx : ns.idxOf? n with
  | none => exact absurd hn (List.idxOf?_eq_none_iff.1 hidx)
  | some i => rw [List.idxOf_eq_getD_idxOf?, hidx, Option.getD_some]

/-- On well-formed structures the union finds every node. -/
theorem WellFormed.combine?_eq (combiner : Kleene → Kleene → Kleene) {call exit : Structure V}
    (hcall : call.WellFormed) (hexit : exit.WellFormed) :
    combine? combiner call exit = some (Structure.combine combiner call exit) := by
  have hwithin : ∀ {s : Structure V}, s.WellFormed →
      ∀ e ∈ s.values.entries.filter (fun e => V.arity e.1.pred ≠ 0), ∀ n ∈ e.1.args,
        n ∈ s.nodes := fun hs e he => (hs.admits e (List.mem_filter.1 he).1).2.2
  have hfromCall : renameEntries? (fun n => call.nodes.toList.idxOf? n)
      (call.values.entries.filter fun e => V.arity e.1.pred ≠ 0) =
      some (call.renamedEntries call.callNode) :=
    renameEntries?_eq fun e he n hn => idxOf?_of_mem (hwithin hcall e he n hn)
  have hfromExit : renameEntries? (fun n => (exit.nodes.toList.idxOf? n).map (call.nodes.size + ·))
      (exit.values.entries.filter fun e => V.arity e.1.pred ≠ 0) =
      some (exit.renamedEntries (call.exitNode exit)) := by
    refine renameEntries?_eq fun e he n hn => ?_
    rw [idxOf?_of_mem (hwithin hexit e he n hn)]
    rfl
  simp only [combine?, hfromCall, hfromExit, Option.bind_eq_bind, Option.bind_some]
  rfl

end Structure

end ShapeAnalysis
