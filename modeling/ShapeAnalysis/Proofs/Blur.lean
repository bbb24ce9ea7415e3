import ShapeAnalysis.Proofs.Counting

/-!
# Blur loses precision only

Blur merges the nodes of a group into one of them.  The map that takes each node to the
one it is merged into embeds a structure in what blur makes of it, as long as merging
overlooks no tuple (`Closed.embedding_blur`).
-/

namespace ShapeAnalysis

namespace Structure

variable {V : Vocabulary}

/-! ## Representatives -/

theorem representative_naming {s : Structure V} {ps : List PredId} {n : Node} (hn : n ∈ s.nodes) :
    (s.naming ps).representative n =
      (s.nodes.toList.find? fun m => s.profile ps m = s.profile ps n).getD n := by
  simp only [Naming.representative, lookup_naming hn]
  rw [naming, List.find?_map]
  simp [Function.comp_def]

section Naming

variable {s : Structure V} {ps : List PredId} {m n : Node} (hn : n ∈ s.nodes)
include hn

variable (ps) in
theorem find?_profile :
    (s.nodes.toList.find? fun m => s.profile ps m = s.profile ps n) =
      some ((s.naming ps).representative n) := by
  rw [representative_naming hn]
  cases h : s.nodes.toList.find? fun m => s.profile ps m = s.profile ps n with
  | none => simpa using List.find?_eq_none.1 h n hn
  | some m => rfl

theorem representative_mem : (s.naming ps).representative n ∈ s.nodes :=
  List.mem_of_find?_eq_some (find?_profile ps hn)

theorem profile_representative :
    s.profile ps ((s.naming ps).representative n) = s.profile ps n := by
  simpa using List.find?_some (find?_profile ps hn)

/-- Nodes are merged when their profiles agree. -/
theorem representative_eq_iff (hm : m ∈ s.nodes) :
    (s.naming ps).representative m = (s.naming ps).representative n ↔
      s.profile ps m = s.profile ps n := by
  constructor
  · intro h
    rw [← profile_representative hm, h, profile_representative hn]
  · intro h
    have hm' := find?_profile ps hm
    rw [h, find?_profile ps hn] at hm'
    exact (Option.some.inj hm').symm

theorem representative_representative :
    (s.naming ps).representative ((s.naming ps).representative n) =
      (s.naming ps).representative n :=
  (representative_eq_iff hn (representative_mem hn)).2 (profile_representative hn)

/-- The size of the group of a representative counts the nodes merged into it. -/
theorem groupSize_naming (hrep : (s.naming ps).representative n = n) :
    (s.naming ps).groupSize n =
      (s.nodes.toList.filter fun m => (s.naming ps).representative m = n).length := by
  have hgroup : (s.naming ps).group n =
      s.nodes.toList.filter fun m => s.profile ps m = s.profile ps n := by
    simp only [Naming.group, lookup_naming hn, Naming.withName]
    rw [naming, List.filter_map, List.map_map]
    simp [Function.comp_def]
  rw [Naming.groupSize, hgroup]
  congr 1
  refine List.filter_congr fun m hm => ?_
  have hiff : (s.naming ps).representative m = (s.naming ps).representative n ↔
      s.profile ps m = s.profile ps n := representative_eq_iff hn hm
  rw [hrep] at hiff
  simp only [hiff]

theorem groupSize_representative :
    (s.naming ps).groupSize ((s.naming ps).representative n) =
      (s.nodes.toList.filter fun m =>
        (s.naming ps).representative m = (s.naming ps).representative n).length :=
  groupSize_naming (representative_mem hn) (representative_representative hn)

end Naming

/-- Where names are unique, each node represents itself. -/
theorem representative_of_nodup {s : Structure V} {ps : List PredId}
    (h : (s.naming ps).names.Nodup) {n : Node} (hn : n ∈ s.nodes) :
    (s.naming ps).representative n = n := by
  rw [names_naming] at h
  exact List.inj_on_of_nodup_map h (representative_mem hn) hn (profile_representative hn)

/-! ## Blur -/

/-- The structure after merging, before summary nodes are marked. -/
def merged (s : Structure V) : Structure V :=
  { s with
    nodes := s.nodes.filter fun n => s.canonicalNaming.representative n = n
    values := mergedValues s.canonicalNaming.representative s.canonicalNaming.groupSize s.values }

/-- The nodes that several nodes were merged into. -/
def crowded (s : Structure V) : List Node :=
  s.merged.nodes.toList.filter fun n => s.canonicalNaming.groupSize n > 1

theorem blur_eq (s : Structure V) : s.blur =
    if s.canonicalNaming.names.Nodup then s
    else s.merged.writeAll Vocabulary.sm (s.crowded.map fun n => [n]) fun _ => .unknown := by
  rw [writeAll, List.foldl_map, crowded, List.foldl_filter]
  simp only [decide_eq_true_eq]
  rfl

theorem mem_nodes_merged {s : Structure V} {n : Node} :
    n ∈ s.merged.nodes ↔ n ∈ s.nodes ∧ s.canonicalNaming.representative n = n := by
  simp [merged]

theorem mem_crowded {s : Structure V} {n : Node} :
    n ∈ s.crowded ↔ n ∈ s.merged.nodes ∧ 1 < s.canonicalNaming.groupSize n := by
  simp [crowded]

theorem representative_mem_merged {s : Structure V} {n : Node} (hn : n ∈ s.nodes) :
    s.canonicalNaming.representative n ∈ s.merged.nodes :=
  mem_nodes_merged.2 ⟨representative_mem hn, representative_representative hn⟩

/-- A group is crowded when another node is merged into the one that is kept. -/
theorem mem_crowded_iff {s : Structure V} {n : Node} : n ∈ s.crowded ↔
    n ∈ s.merged.nodes ∧ ∃ m ∈ s.nodes, m ≠ n ∧ s.canonicalNaming.representative m = n := by
  rw [mem_crowded]
  refine and_congr_right fun hn => ?_
  obtain ⟨hmem, hrep⟩ := mem_nodes_merged.1 hn
  rw [canonicalNaming] at hrep ⊢
  rw [groupSize_naming hmem hrep]
  constructor
  · intro hlt
    by_contra hnone
    push Not at hnone
    have hsub : ∀ m ∈ s.nodes.toList.filter fun m =>
        (s.naming V.abstraction).representative m = n, m ∈ [n] := by
      intro m hm
      obtain ⟨hms, hmn⟩ := List.mem_filter.1 hm
      by_contra hne
      exact hnone m hms (by simpa using hne) (of_decide_eq_true hmn)
    have hle := (List.subperm_of_subset (s.nodes.nodup.filter _) hsub).length_le
    exact absurd hlt (Nat.not_lt.2 hle)
  · rintro ⟨m, hm, hne, hmn⟩
    have hpair : [m, n].Subperm (s.nodes.toList.filter fun k =>
        (s.naming V.abstraction).representative k = n) := by
      refine List.subperm_of_subset (by simpa using hne) fun k hk => ?_
      rw [List.mem_filter]
      rcases List.mem_pair.1 hk with rfl | rfl
      · exact ⟨hm, by simpa using hmn⟩
      · exact ⟨hmem, by simpa using hrep⟩
    exact hpair.length_le

theorem WellFormed.merged {s : Structure V} (hs : s.WellFormed) : s.merged.WellFormed := by
  refine .of_get? (fun a k h => ?_) fun n hn => hs.node_lt n (mem_nodes_merged.1 hn).1
  have hget : (mergedValues s.canonicalNaming.representative s.canonicalNaming.groupSize
      s.values).get? a = some k := h
  rw [get?_mergedValues, get?_foldl_gather, SortedMap.get?_empty] at hget
  rcases foldl_tally_none (s.values.entries.filter fun e =>
    e.1.map s.canonicalNaming.representative = a) with ⟨-, htally⟩ | ⟨hne, l, htally, -⟩
  · rw [htally] at hget
    cases hget
  · -- The atom is the image of one that has an entry.
    obtain ⟨e, he⟩ := List.exists_mem_of_ne_nil _ hne
    obtain ⟨hentry, rfl⟩ : e ∈ s.values.entries ∧
        e.1.map s.canonicalNaming.representative = a := by simpa using he
    obtain ⟨hsize, hlen, hmem⟩ := hs.admits e hentry
    refine ⟨⟨hsize, by simpa [Atom.map] using hlen, fun m hm => ?_⟩, ?_⟩
    · obtain ⟨n, hn, rfl⟩ := List.mem_map.1 hm
      exact representative_mem_merged (hmem n hn)
    · rw [htally, Option.bind_some, Option.ite_none_left_eq_some] at hget
      obtain ⟨hff, hk⟩ := hget
      rw [← Option.some.inj hk]
      exact hff

theorem WellFormed.blur {s : Structure V} (hs : s.WellFormed) : s.blur.WellFormed := by
  rw [blur_eq]
  split
  · exact hs
  · refine WellFormed.writeAll _ _ hs.merged fun t ht => ?_
    obtain ⟨n, hn, rfl⟩ := List.mem_map.1 ht
    exact admits_of_isReserved rfl (mem_crowded.1 hn).1

/-- The nodes that are left represent themselves. -/
theorem mem_nodes_blur {s : Structure V} {n : Node} :
    n ∈ s.blur.nodes ↔ n ∈ s.nodes ∧ s.canonicalNaming.representative n = n := by
  rw [blur_eq]
  split
  · rename_i hnodup
    exact ⟨fun hn => ⟨hn, representative_of_nodup hnodup hn⟩, And.left⟩
  · rw [nodes_writeAll, mem_nodes_merged]

theorem representative_mem_blur {s : Structure V} {n : Node} (hn : n ∈ s.nodes) :
    s.canonicalNaming.representative n ∈ s.blur.nodes :=
  mem_nodes_blur.2 ⟨representative_mem hn, representative_representative hn⟩

/-- A node into which another one is merged becomes a summary node. -/
theorem isSummary_blur {s : Structure V} {m n : Node} (hm : m ∈ s.nodes) (hne : m ≠ n)
    (hrep : s.canonicalNaming.representative m = n) : s.blur.isSummary n := by
  rw [blur_eq]
  split
  · rename_i hnodup
    exact absurd ((representative_of_nodup hnodup hm).symm.trans hrep) hne
  · have hcrowded : n ∈ s.crowded :=
      mem_crowded_iff.2 ⟨hrep ▸ representative_mem_merged hm, m, hm, hne, hrep⟩
    rw [Structure.isSummary, value_writeAll, if_pos ⟨rfl, List.mem_map.2 ⟨_, hcrowded, rfl⟩⟩]
    rfl

/-- A node that is kept for two nodes is a summary node. -/
theorem isSummary_blur_of_ne {s : Structure V} {m n : Node} (hm : m ∈ s.nodes) (hn : n ∈ s.nodes)
    (hne : m ≠ n)
    (heq : s.canonicalNaming.representative m = s.canonicalNaming.representative n) :
    s.blur.isSummary (s.canonicalNaming.representative m) := by
  -- One of the two is not the node that is kept.
  by_cases hself : m = s.canonicalNaming.representative m
  · refine isSummary_blur hn (fun h => hne ?_) heq.symm
    rw [hself, ← h]
  · exact isSummary_blur hm hself rfl

/-- Blur overlooks no tuple of any predicate. -/
def OverlooksNone (s : Structure V) : Prop :=
  ∀ p t, ¬ s.Overlooks s.canonicalNaming.representative p t

/-- The sizes of the groups count what is merged. -/
theorem sizes_groupSize {s : Structure V} :
    s.Sizes s.canonicalNaming.representative s.canonicalNaming.groupSize := fun _ hn =>
  groupSize_representative hn

section Blur

variable {s : Structure V} (hs : s.Closed)
include hs

/-- Blur loses precision only, unless it overlooks something. -/
theorem Closed.value_le_blur (hnone : s.OverlooksNone) (p : PredId) {u : List Node}
    (hu : ∀ n ∈ u, n ∈ s.nodes) :
    (s.value p u).le (s.blur.value p (u.map s.canonicalNaming.representative)) := by
  rw [blur_eq]
  split
  · rename_i hnodup
    have hid : u.map s.canonicalNaming.representative = u :=
      map_eq_self fun n hn => representative_of_nodup hnodup (hu n hn)
    rw [hid]
    exact Kleene.le_refl _
  · rw [value_writeAll]
    split
    · exact Kleene.le_unknown _
    · exact (hs.joins_merged (hnone p _) sizes_groupSize ⟨u, hu, rfl⟩).le ⟨hu, rfl⟩

/-- Every structure embeds in what blur makes of it, unless blur overlooks something. -/
theorem Closed.embedding_blur (hnone : s.OverlooksNone) :
    Embedding s.canonicalNaming.representative s s.blur where
  maps _ hn := representative_mem_blur hn
  onto m hm := ⟨m, mem_nodes_blur.1 hm⟩
  value_le p _ hu := hs.value_le_blur hnone p hu.2.2
  summary _ hm _ hn hne heq := isSummary_blur_of_ne hm hn hne heq

end Blur

end Structure

end ShapeAnalysis
