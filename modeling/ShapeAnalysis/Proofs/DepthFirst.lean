import Mathlib.Algebra.Ring.Nat
import Mathlib.Data.List.Count
import Mathlib.Data.List.Nodup
import Mathlib.Logic.Relation
import ShapeAnalysis.Flow.DepthFirst

/-!
# The search finds what can be reached

The fuel of a search suffices when it covers the stack and every edge that
leaves a node not visited yet: a step takes one entry off the stack, and the
edges of a node are paid for when it is visited.  With that much fuel the nodes
found are closed under successors, so they are exactly the reachable ones
(`mem_searchOrder_iff`).  Each is found once, and the start comes first.

`Searches` is all that other modules use of a search, so that every order with
these properties would serve them.  `searches_searchOrder` is the search here.
-/

namespace ShapeAnalysis

variable {α : Type}

/-- A path of successors leads from one node to another. -/
def Reaches (next : α → List α) : α → α → Prop := Relation.ReflTransGen fun x y => y ∈ next x

/-- Different nodes have at most `n` successors together. -/
def EdgesAtMost (next : α → List α) (n : Nat) : Prop :=
  ∀ xs : List α, xs.Nodup → (xs.map fun x => (next x).length).sum ≤ n

/-- What a depth-first search owes its callers: the nodes that its start reaches, each once,
and the start before the others. -/
structure Searches (next : α → List α) (start : α) (order : List α) : Prop where
  /-- No node comes twice. -/
  nodup : order.Nodup
  /-- The nodes are those that can be reached. -/
  mem_iff : ∀ {x}, x ∈ order ↔ Reaches next start x
  /-- The start is the first. -/
  first : order.head? = some start

variable [DecidableEq α]

/-- Each edge of a list leaves one node. -/
theorem sum_length_filter_le {β : Type} (src : β → α) (es : List β) {xs : List α}
    (h : xs.Nodup) : (xs.map fun x => (es.filter fun e => src e = x).length).sum ≤ es.length := by
  induction es with
  | nil => simp
  | cons e es ih =>
    have hsplit : ∀ ys : List α,
        (ys.map fun x => ((e :: es).filter fun d => src d = x).length).sum =
          ys.count (src e) + (ys.map fun x => (es.filter fun d => src d = x).length).sum := by
      intro ys
      induction ys with
      | nil => simp
      | cons y ys ihy =>
        by_cases hy : src e = y
        · simp [hy] at ihy ⊢
          omega
        · simp [hy, Ne.symm hy] at ihy ⊢
          omega
    have hcount := List.nodup_iff_count_le_one.1 h (src e)
    rw [hsplit, List.length_cons]
    omega

section Search

variable {next : α → List α}

/-- Only nodes to which the stack leads are added. -/
theorem mem_depthFirst {fuel : Nat} {stack seen : List α} {x : α}
    (h : x ∈ depthFirst next fuel stack seen) :
    x ∈ seen ∨ ∃ y ∈ stack, Reaches next y x := by
  fun_induction depthFirst next fuel stack seen with
  | case1 => exact .inl h
  | case2 => exact .inl h
  | case3 fuel y stack seen hy ih =>
    rcases ih h with hx | ⟨z, hz, hzx⟩
    · exact .inl hx
    · exact .inr ⟨z, List.mem_cons_of_mem _ hz, hzx⟩
  | case4 fuel y stack seen hy ih =>
    rcases ih h with hx | ⟨z, hz, hzx⟩
    · rcases List.mem_cons.1 hx with rfl | hx
      · exact .inr ⟨x, List.mem_cons_self, .refl⟩
      · exact .inl hx
    · rcases List.mem_append.1 hz with hz | hz
      · exact .inr ⟨y, List.mem_cons_self, .head hz hzx⟩
      · exact .inr ⟨z, List.mem_cons_of_mem _ hz, hzx⟩

/-- Nodes that were visited stay, and later ones come in front of them. -/
theorem suffix_depthFirst (fuel : Nat) (stack seen : List α) :
    seen <:+ depthFirst next fuel stack seen := by
  fun_induction depthFirst next fuel stack seen with
  | case1 => exact List.suffix_rfl
  | case2 => exact List.suffix_rfl
  | case3 fuel y stack seen hy ih => exact ih
  | case4 fuel y stack seen hy ih => exact (List.suffix_cons y seen).trans ih

/-- No node is visited twice. -/
theorem nodup_depthFirst {fuel : Nat} {stack seen : List α} (h : seen.Nodup) :
    (depthFirst next fuel stack seen).Nodup := by
  fun_induction depthFirst next fuel stack seen with
  | case1 => exact h
  | case2 => exact h
  | case3 fuel y stack seen hy ih => exact ih h
  | case4 fuel y stack seen hy ih => exact ih (List.nodup_cons.2 ⟨hy, h⟩)

/-- With enough fuel the search visits the stack and all that follows. -/
theorem depthFirst_closed {n : Nat} (hn : EdgesAtMost next n) {fuel : Nat} {stack seen : List α}
    (hseen : seen.Nodup)
    (hfuel : stack.length + n ≤ fuel + (seen.map fun x => (next x).length).sum)
    (hclosed : ∀ x ∈ seen, ∀ y ∈ next x, y ∈ seen ∨ y ∈ stack) :
    (∀ x ∈ stack, x ∈ depthFirst next fuel stack seen) ∧
      (∀ x ∈ seen, x ∈ depthFirst next fuel stack seen) ∧
      ∀ x ∈ depthFirst next fuel stack seen, ∀ y ∈ next x,
        y ∈ depthFirst next fuel stack seen := by
  fun_induction depthFirst next fuel stack seen with
  | case1 stack seen =>
    -- The edges of the nodes seen use up all of `n`, so nothing waits.
    have hle := hn seen hseen
    have hnil : stack = [] := List.length_eq_zero_iff.1 (by omega)
    subst hnil
    refine ⟨by simp, fun x hx => hx, fun x hx y hy => ?_⟩
    exact (hclosed x hx y hy).resolve_right (by simp)
  | case2 fuel seen =>
    refine ⟨by simp, fun x hx => hx, fun x hx y hy => ?_⟩
    exact (hclosed x hx y hy).resolve_right (by simp)
  | case3 fuel z stack seen hz ih =>
    obtain ⟨hstack, hold, hnext⟩ := ih hseen (by rw [List.length_cons] at hfuel; omega)
      fun x hx y hy => by
        rcases hclosed x hx y hy with h | h
        · exact .inl h
        · rcases List.mem_cons.1 h with rfl | h
          · exact .inl hz
          · exact .inr h
    refine ⟨fun x hx => ?_, hold, hnext⟩
    rcases List.mem_cons.1 hx with rfl | hx
    · exact hold x hz
    · exact hstack x hx
  | case4 fuel z stack seen hz ih =>
    obtain ⟨hstack, hold, hnext⟩ := ih (List.nodup_cons.2 ⟨hz, hseen⟩)
      (by
        rw [List.length_cons] at hfuel
        rw [List.length_append, List.map_cons, List.sum_cons]
        omega)
      fun x hx y hy => by
        rcases List.mem_cons.1 hx with rfl | hx
        · exact .inr (List.mem_append_left _ hy)
        · rcases hclosed x hx y hy with h | h
          · exact .inl (List.mem_cons_of_mem _ h)
          · rcases List.mem_cons.1 h with rfl | h
            · exact .inl List.mem_cons_self
            · exact .inr (List.mem_append_right _ h)
    refine ⟨fun x hx => ?_, fun x hx => hold x (List.mem_cons_of_mem _ hx), hnext⟩
    rcases List.mem_cons.1 hx with rfl | hx
    · exact hold x List.mem_cons_self
    · exact hstack x (List.mem_append_right _ hx)

/-- A search finds exactly the nodes that its start reaches. -/
theorem mem_searchOrder_iff {edges : Nat} (h : EdgesAtMost next edges) {start x : α} :
    x ∈ searchOrder next edges start ↔ Reaches next start x := by
  have hfuel : [start].length + edges ≤
      (edges + 1) + (([] : List α).map fun x => (next x).length).sum := by
    simp
    omega
  obtain ⟨hstart, -, hnext⟩ := depthFirst_closed h List.nodup_nil hfuel (by simp)
  rw [searchOrder, List.mem_reverse]
  constructor
  · intro hx
    rcases mem_depthFirst hx with hx | ⟨y, hy, hyx⟩
    · cases hx
    · rwa [List.mem_singleton.1 hy] at hyx
  · intro hpath
    induction hpath with
    | refl => exact hstart start List.mem_cons_self
    | tail _ hstep ih => exact hnext _ ih _ hstep

/-- A search finds no node twice. -/
theorem nodup_searchOrder (edges : Nat) (start : α) : (searchOrder next edges start).Nodup :=
  List.nodup_reverse.2 (nodup_depthFirst List.nodup_nil)

/-- A search begins where it starts. -/
theorem head?_searchOrder (edges : Nat) (start : α) :
    (searchOrder next edges start).head? = some start := by
  have hstep : searchOrder next edges start =
      (depthFirst next edges (next start) [start]).reverse := by
    simp [searchOrder, depthFirst]
  have hstart : [start] <:+ depthFirst next edges (next start) [start] := suffix_depthFirst _ _ _
  obtain ⟨later, hlater⟩ := hstart
  rw [hstep, ← hlater, List.reverse_append]
  rfl

/-- The search does what is asked of one, where it is told the number of edges. -/
theorem searches_searchOrder {edges : Nat} (h : EdgesAtMost next edges) (start : α) :
    Searches next start (searchOrder next edges start) where
  nodup := nodup_searchOrder edges start
  mem_iff := mem_searchOrder_iff h
  first := head?_searchOrder edges start

end Search

end ShapeAnalysis
