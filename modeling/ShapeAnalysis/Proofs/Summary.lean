import ShapeAnalysis.Flow.Exploded
import ShapeAnalysis.Proofs.DepthFirst
import ShapeAnalysis.Proofs.Order

/-!
# Summaries are exact

A run is a list of calls on an exploded graph.  Facts and transitions only come
in, so a pair of the summary stays one (`Summarizes.mono`).  What a graph has
handed out is therefore part of its summary at all times, and a new change holds
just the pairs that are missing.

The summary is computed again when facts or transitions came in, and a call that
brings none leaves it right (`Valid.fresh`).
-/

namespace ShapeAnalysis

namespace ExplodedGraph

/-! ## Calls and runs -/

/-- A call that may change an exploded graph. -/
inductive Call where
  | node (n : Site)
  | edge (src dst : Site)
  | fact (n : Site) (f : Fact)
  | transition (src : Site) (f : Fact) (dst : Site) (f' : Fact)
  | delta
deriving DecidableEq

/-- The graph after a call.  A transition that is refused leaves it as it was. -/
def perform (g : ExplodedGraph) : Call → ExplodedGraph
  | .node n => g.addNode n
  | .edge src dst => g.addEdge src dst
  | .fact n f => (g.addFact n f).1
  | .transition src f dst f' =>
    match g.addTransition src f dst f' with
    | .ok (g', _) => g'
    | .error _ => g
  | .delta => g.delta.1

/-- The graph after a list of calls. -/
def run (g : ExplodedGraph) (calls : List Call) : ExplodedGraph := calls.foldl perform g

/-- The pairs that a call hands out as added. -/
def added (g : ExplodedGraph) : Call → List FactPair
  | .delta => (g.delta.2.map (·.added)).getD []
  | _ => []

/-- The pairs that the calls of a run hand out as added, call after call. -/
def allAdded (g : ExplodedGraph) : List Call → List FactPair
  | [] => []
  | call :: rest => g.added call ++ allAdded (g.perform call) rest

/-! ## The pairs of a summary -/

/-- A path of transitions leads from one fact to another. -/
def Leads (g : ExplodedGraph) : FactAt → FactAt → Prop :=
  Relation.ReflTransGen fun x y => (x, y) ∈ g.moves

/-- A fact at the source leads to a fact at the sink. -/
structure Summarizes (g : ExplodedGraph) (p : FactPair) : Prop where
  entry : p.fst ∈ g.factsAt g.source
  exit : p.snd ∈ g.factsAt g.sink
  path : g.Leads ⟨g.source, p.fst⟩ ⟨g.sink, p.snd⟩

/-- The targets of a fact are where its transitions lead. -/
theorem mem_targets {g : ExplodedGraph} {x y : FactAt} : y ∈ g.targets x ↔ (x, y) ∈ g.moves := by
  simp only [targets, List.mem_filterMap, Option.ite_none_right_eq_some, Option.some.injEq]
  constructor
  · rintro ⟨⟨a, b⟩, hm, rfl, rfl⟩
    exact hm
  · intro h
    exact ⟨(x, y), h, rfl, rfl⟩

/-- There is one target for each transition. -/
theorem edgesAtMost_targets (g : ExplodedGraph) : EdgesAtMost g.targets g.moves.length := by
  intro xs hxs
  have hlength : ∀ x, (g.targets x).length = (g.moves.filter fun m => m.1 = x).length := by
    intro x
    unfold targets
    induction g.moves with
    | nil => rfl
    | cons m moves ih => by_cases hm : m.1 = x <;> simp [hm, ih]
  simp only [hlength]
  exact sum_length_filter_le Prod.fst g.moves hxs

/-- Whatever searches along the transitions, the exits among what it finds are those to which
its entry leads. -/
theorem mem_exitsAmong {g : ExplodedGraph} {e x : Fact} {order : List FactAt}
    (h : Searches g.targets ⟨g.source, e⟩ order) :
    x ∈ g.exitsAmong order ↔ g.Leads ⟨g.source, e⟩ ⟨g.sink, x⟩ := by
  have hleads : ∀ y, y ∈ order ↔ g.Leads ⟨g.source, e⟩ y := by
    intro y
    rw [h.mem_iff, Reaches, Leads]
    simp only [mem_targets]
  simp only [exitsAmong, SortedSet.mem_ofList, List.mem_filterMap, hleads,
    Option.ite_none_right_eq_some, Option.some.injEq]
  constructor
  · rintro ⟨⟨n, f⟩, hpath, rfl, rfl⟩
    exact hpath
  · intro hpath
    exact ⟨_, hpath, rfl, rfl⟩

/-- The exits of an entry are those to which it leads. -/
theorem mem_exitsOf {g : ExplodedGraph} {e x : Fact} :
    x ∈ g.exitsOf e ↔ g.Leads ⟨g.source, e⟩ ⟨g.sink, x⟩ :=
  mem_exitsAmong (searches_searchOrder g.edgesAtMost_targets _)

/-! ## Facts and transitions stay -/

/-- The facts and transitions of one graph are in the other. -/
structure Includes (g g' : ExplodedGraph) : Prop where
  source : g'.source = g.source
  sink : g'.sink = g.sink
  facts : ∀ n f, f ∈ g.factsAt n → f ∈ g'.factsAt n
  moves : ∀ m ∈ g.moves, m ∈ g'.moves

/-- A pair of a summary stays one. -/
theorem Summarizes.mono {g g' : ExplodedGraph} (h : Includes g g') {p : FactPair}
    (hp : g.Summarizes p) : g'.Summarizes p := by
  refine ⟨?_, ?_, ?_⟩
  · rw [h.source]
    exact h.facts _ _ hp.entry
  · rw [h.sink]
    exact h.facts _ _ hp.exit
  · rw [h.source, h.sink]
    exact Relation.ReflTransGen.mono (fun x y hxy => h.moves _ hxy) _ _ hp.path

/-- The graphs have the same facts and transitions. -/
structure SameFacts (g g' : ExplodedGraph) : Prop where
  source : g'.source = g.source
  sink : g'.sink = g.sink
  facts : ∀ n, g'.factsAt n = g.factsAt n
  moves : g'.moves = g.moves

theorem SameFacts.refl (g : ExplodedGraph) : SameFacts g g := ⟨rfl, rfl, fun _ => rfl, rfl⟩

theorem SameFacts.symm {g g' : ExplodedGraph} (h : SameFacts g g') : SameFacts g' g :=
  ⟨h.source.symm, h.sink.symm, fun n => (h.facts n).symm, h.moves.symm⟩

/-- Equal facts and transitions include each other. -/
theorem SameFacts.includes {g g' : ExplodedGraph} (h : SameFacts g g') : Includes g g' where
  source := h.source
  sink := h.sink
  facts n f hf := by rwa [h.facts n]
  moves m hm := by rwa [h.moves]

theorem SameFacts.summarizes_iff {g g' : ExplodedGraph} (h : SameFacts g g') {p : FactPair} :
    g'.Summarizes p ↔ g.Summarizes p :=
  ⟨fun hp => hp.mono h.symm.includes, fun hp => hp.mono h.includes⟩

theorem factsAt_addNode (g : ExplodedGraph) (n k : Site) :
    (g.addNode n).factsAt k = g.factsAt k := by
  unfold factsAt addNode
  rw [SortedMap.get?_alter]
  split
  · rename_i hk
    rw [hk]
    rfl
  · rfl

theorem hasFact_iff {g : ExplodedGraph} {n : Site} {f : Fact} :
    g.hasFact n f = true ↔ f ∈ g.factsAt n := by
  simp [hasFact]

theorem factsAt_addFact_of_mem {g : ExplodedGraph} {n : Site} {f : Fact} (h : f ∈ g.factsAt n)
    (k : Site) : (g.addFact n f).1.factsAt k = g.factsAt k := by
  rw [addFact, if_pos (hasFact_iff.2 h)]
  dsimp only
  split <;> rfl

/-- A new fact comes last at its site. -/
theorem factsAt_addFact_of_not_mem {g : ExplodedGraph} {n : Site} {f : Fact}
    (h : f ∉ g.factsAt n) (k : Site) :
    (g.addFact n f).1.factsAt k = if k = n then g.factsAt k ++ [f] else g.factsAt k := by
  rw [addFact, if_neg (mt hasFact_iff.1 h)]
  dsimp only [factsAt]
  rw [SortedMap.get?_alter]
  by_cases hk : k = n <;> simp [hk]

/-- A fact comes to one node and takes none away. -/
theorem mem_factsAt_addFact {g : ExplodedGraph} {n k : Site} {f f' : Fact} :
    f' ∈ (g.addFact n f).1.factsAt k ↔ f' ∈ g.factsAt k ∨ k = n ∧ f' = f := by
  by_cases h : f ∈ g.factsAt n
  · rw [factsAt_addFact_of_mem h]
    constructor
    · exact .inl
    · rintro (hf | ⟨rfl, rfl⟩)
      · exact hf
      · exact h
  · rw [factsAt_addFact_of_not_mem h]
    by_cases hk : k = n <;> simp [hk]

/-- A transition that is taken joins known facts. -/
theorem addTransition_cases {g g' : ExplodedGraph} {src dst : Site} {f f' : Fact} {new : Bool}
    (h : g.addTransition src f dst f' = .ok (g', new)) :
    f ∈ g.factsAt src ∧ f' ∈ g.factsAt dst ∧
      (g' = g ∨ g' = { g with moves := g.moves ++ [(⟨src, f⟩, ⟨dst, f'⟩)], stale := true }) := by
  unfold addTransition at h
  split at h
  · cases h
  · split at h
    · cases h
    · rename_i hfacts
      have hknown : f ∈ g.factsAt src ∧ f' ∈ g.factsAt dst := by
        simpa [hasFact] using hfacts
      refine ⟨hknown.1, hknown.2, ?_⟩
      dsimp only at h
      split at h
      · cases h
        exact .inl rfl
      · cases h
        exact .inr rfl

/-! ## What a call keeps -/

/-- Nothing is handed out, and new transitions join known facts.  Either the
summary is out of date, or no facts and transitions are new. -/
structure Keeps (g g' : ExplodedGraph) : Prop extends Includes g g' where
  linked : ∀ m ∈ g'.moves, m ∈ g.moves ∨
    m.1.fact ∈ g.factsAt m.1.site ∧ m.2.fact ∈ g.factsAt m.2.site
  summary : g'.summary = g.summary
  known : g'.known = g.known
  fresh : g'.stale = false → g.stale = false ∧ SameFacts g g'

/-- Where neither facts nor bookkeeping change, everything is kept. -/
theorem SameFacts.keeps {g g' : ExplodedGraph} (h : SameFacts g g')
    (hsummary : g'.summary = g.summary) (hknown : g'.known = g.known)
    (hstale : g'.stale = g.stale) : Keeps g g' where
  toIncludes := h.includes
  linked m hm := .inl (by rwa [h.moves] at hm)
  summary := hsummary
  known := hknown
  fresh hfresh := ⟨hstale ▸ hfresh, h⟩

theorem Keeps.refl (g : ExplodedGraph) : Keeps g g := (SameFacts.refl g).keeps rfl rfl rfl

theorem sameFacts_addNode (g : ExplodedGraph) (n : Site) : SameFacts g (g.addNode n) :=
  ⟨rfl, rfl, factsAt_addNode g n, rfl⟩

theorem keeps_addNode (g : ExplodedGraph) (n : Site) : Keeps g (g.addNode n) :=
  (sameFacts_addNode g n).keeps rfl rfl rfl

/-- An edge adds its two nodes and may change the skeleton, nothing else. -/
theorem addEdge_cases (g : ExplodedGraph) (src dst : Site) :
    ∃ edges, g.addEdge src dst = { (g.addNode src).addNode dst with skeleton := edges } := by
  unfold addEdge
  dsimp only
  split
  · exact ⟨_, rfl⟩
  · exact ⟨_, rfl⟩

theorem sameFacts_addEdge (g : ExplodedGraph) (src dst : Site) :
    SameFacts g (g.addEdge src dst) := by
  obtain ⟨edges, hedges⟩ := g.addEdge_cases src dst
  rw [hedges]
  refine ⟨rfl, rfl, fun n => ?_, rfl⟩
  exact (factsAt_addNode (g.addNode src) dst n).trans (factsAt_addNode g src n)

theorem keeps_addEdge (g : ExplodedGraph) (src dst : Site) : Keeps g (g.addEdge src dst) := by
  have hsame := g.sameFacts_addEdge src dst
  obtain ⟨edges, hedges⟩ := g.addEdge_cases src dst
  rw [hedges] at hsame ⊢
  exact hsame.keeps rfl rfl rfl

/-- A fact that is new makes the summary stale and leaves it as it is. -/
theorem keeps_addFact (g : ExplodedGraph) (n : Site) (f : Fact) : Keeps g (g.addFact n f).1 := by
  have hfacts : ∀ k f', f' ∈ g.factsAt k → f' ∈ (g.addFact n f).1.factsAt k :=
    fun k f' hf => mem_factsAt_addFact.2 (.inl hf)
  unfold addFact at hfacts ⊢
  split
  · dsimp only
    split
    · exact SameFacts.keeps ⟨rfl, rfl, fun _ => rfl, rfl⟩ rfl rfl rfl
    · exact .refl g
  · rename_i hnew
    rw [if_neg hnew] at hfacts
    exact ⟨⟨rfl, rfl, hfacts, fun m hm => hm⟩, fun m hm => .inl hm, rfl, rfl,
      fun hstale => by cases hstale⟩

/-- So does a transition, and it joins facts that are there. -/
theorem keeps_addTransition {g g' : ExplodedGraph} {src dst : Site} {f f' : Fact} {new : Bool}
    (h : g.addTransition src f dst f' = .ok (g', new)) : Keeps g g' := by
  obtain ⟨hf, hf', rfl | rfl⟩ := addTransition_cases h
  · exact .refl g'
  · refine ⟨⟨rfl, rfl, fun _ _ hk => hk, fun m hm => List.mem_append_left _ hm⟩, fun m hm => ?_,
      rfl, rfl, fun hstale => by cases hstale⟩
    rcases List.mem_append.1 hm with hm | hm
    · exact .inl hm
    · rw [List.mem_singleton.1 hm]
      exact .inr ⟨hf, hf'⟩

/-- Only to ask for changes computes a summary and hands pairs out. -/
theorem keeps_perform (g : ExplodedGraph) {call : Call} (h : call ≠ .delta) :
    Keeps g (g.perform call) := by
  cases call with
  | node n => exact keeps_addNode g n
  | edge src dst => exact keeps_addEdge g src dst
  | fact n f => exact keeps_addFact g n f
  | transition src f dst f' =>
    cases hadd : g.addTransition src f dst f' with
    | ok result =>
      simp only [perform, hadd]
      exact keeps_addTransition hadd
    | error e =>
      simp only [perform, hadd]
      exact .refl g
  | delta => exact absurd rfl h

/-! ## Valid graphs -/

/-- What every run keeps: transitions join known facts, a summary that is not out
of date is right, and what was handed out belongs to the summary. -/
structure Valid (g : ExplodedGraph) : Prop where
  linked : ∀ m ∈ g.moves, m.1.fact ∈ g.factsAt m.1.site ∧ m.2.fact ∈ g.factsAt m.2.site
  fresh : g.stale = false → ∀ p : FactPair, p.snd ∈ g.cachedExits p.fst ↔ g.Summarizes p
  known : ∀ p ∈ g.known, g.Summarizes p

/-- A graph stays valid where all of that is kept. -/
theorem Valid.keeps {g g' : ExplodedGraph} (hg : g.Valid) (h : Keeps g g') : g'.Valid := by
  refine ⟨fun m hm => ?_, fun hstale p => ?_, fun p hp => ?_⟩
  · obtain ⟨hsrc, hdst⟩ : m.1.fact ∈ g.factsAt m.1.site ∧ m.2.fact ∈ g.factsAt m.2.site := by
      rcases h.linked m hm with hm | hm
      · exact hg.linked m hm
      · exact hm
    exact ⟨h.facts _ _ hsrc, h.facts _ _ hdst⟩
  · obtain ⟨hfresh, hsame⟩ := h.fresh hstale
    have hcached : g'.cachedExits p.fst = g.cachedExits p.fst := by
      unfold cachedExits
      rw [h.summary]
    rw [hcached, hsame.summarizes_iff]
    exact hg.fresh hfresh p
  · rw [h.known] at hp
    exact (hg.known p hp).mono h.toIncludes

theorem factsAt_new (source sink n : Site) : (new source sink).factsAt n = [] := by
  rw [new, factsAt_addNode, factsAt_addNode]
  rfl

/-- A graph without facts has an empty summary, and that is right. -/
theorem valid_new (source sink : Site) : (new source sink).Valid := by
  refine ⟨fun m hm => ?_, fun _ p => ⟨fun hp => ?_, fun hp => ?_⟩, fun p hp => ?_⟩
  · cases hm
  · cases hp
  · have hentry := hp.entry
    rw [factsAt_new] at hentry
    cases hentry
  · cases hp

/-- What a fact at the source leads to is known where it is. -/
theorem Valid.summarizes_iff {g : ExplodedGraph} (hg : g.Valid) {p : FactPair} :
    g.Summarizes p ↔
      p.fst ∈ g.factsAt g.source ∧ g.Leads ⟨g.source, p.fst⟩ ⟨g.sink, p.snd⟩ := by
  refine ⟨fun h => ⟨h.entry, h.path⟩, fun ⟨hentry, hpath⟩ => ⟨hentry, ?_, hpath⟩⟩
  rcases Relation.ReflTransGen.cases_tail hpath with heq | ⟨y, -, hmove⟩
  · simp only [FactAt.mk.injEq] at heq
    rwa [heq.1, heq.2]
  · exact (hg.linked _ hmove).2

/-! ## Handing out changes -/

theorem sameFacts_refresh (g : ExplodedGraph) : SameFacts g g.refresh := by
  unfold refresh
  split
  · exact ⟨rfl, rfl, fun _ => rfl, rfl⟩
  · exact .refl g

theorem known_refresh (g : ExplodedGraph) : g.refresh.known = g.known := by
  unfold refresh
  split <;> rfl

/-- A stale summary is computed for the facts at the source, from the exits they lead to. -/
theorem mem_cachedExits_refresh {g : ExplodedGraph} (h : g.stale = true) {e x : Fact} :
    x ∈ g.refresh.cachedExits e ↔ e ∈ g.factsAt g.source ∧ x ∈ g.exitsOf e := by
  unfold cachedExits refresh
  rw [if_pos h]
  dsimp only
  by_cases he : e ∈ g.factsAt g.source
  · rw [SortedMap.get?_insertAll_of_mem (v := g.exitsOf e)]
    · simp [he]
    · intro d hd hde
      obtain ⟨f, -, rfl⟩ := List.mem_map.1 hd
      exact congrArg g.exitsOf hde
    · exact ⟨_, List.mem_map_of_mem he, rfl⟩
  · rw [SortedMap.get?_insertAll_of_forall_ne]
    · simp [he]
    · intro d hd hde
      obtain ⟨f, hf, rfl⟩ := List.mem_map.1 hd
      exact he (hde ▸ hf)

/-- After it was refreshed the summary is right. -/
theorem Valid.mem_cachedExits_refresh_iff {g : ExplodedGraph} (hg : g.Valid) (p : FactPair) :
    p.snd ∈ g.refresh.cachedExits p.fst ↔ g.Summarizes p := by
  cases hstale : g.stale with
  | true => rw [mem_cachedExits_refresh hstale, mem_exitsOf, hg.summarizes_iff]
  | false =>
    have hsame : g.refresh = g := by simp [refresh, hstale]
    rw [hsame]
    exact hg.fresh hstale p

/-- The pairs of a summary are those of an entry with one of its exits. -/
theorem mem_summaryPairs {g : ExplodedGraph} {p : FactPair} :
    p ∈ g.summaryPairs ↔ p.snd ∈ g.cachedExits p.fst := by
  simp only [summaryPairs, SortedSet.mem_ofList, List.mem_flatMap, List.mem_map, cachedExits,
    Prod.exists, SortedMap.mem_entries]
  constructor
  · rintro ⟨e, xs, hget, x, hx, rfl⟩
    rw [hget]
    exact hx
  · intro h
    cases hget : g.summary.get? p.fst with
    | none => simp [hget] at h
    | some xs => exact ⟨p.fst, xs, hget, p.snd, by simpa [hget] using h, rfl⟩

/-- A change hands out the pairs of the new summary that were not known. -/
theorem added_delta (g : ExplodedGraph) :
    g.added .delta = g.refresh.summaryPairs.toList.filter fun p => p ∉ g.known := by
  simp only [added, delta, SummaryDelta.pairs, known_refresh]
  split
  · rename_i hnone
    simp_all
  · rfl

theorem sameFacts_delta (g : ExplodedGraph) : SameFacts g g.delta.1 :=
  let h := g.sameFacts_refresh
  ⟨h.source, h.sink, h.facts, h.moves⟩

section Delta

variable {g : ExplodedGraph} (hg : g.Valid)
include hg

/-- After a change the known pairs are those of the summary. -/
theorem Valid.mem_known_delta {p : FactPair} : p ∈ g.delta.1.known ↔ g.Summarizes p :=
  mem_summaryPairs.trans (hg.mem_cachedExits_refresh_iff p)

theorem Valid.delta : g.delta.1.Valid := by
  have hsame := g.sameFacts_delta
  refine ⟨fun m hm => ?_, fun _ p => ?_, fun p hp => ?_⟩
  · rw [hsame.facts, hsame.facts]
    exact hg.linked m (hsame.moves ▸ hm)
  · rw [hsame.summarizes_iff]
    exact hg.mem_cachedExits_refresh_iff p
  · exact hsame.summarizes_iff.2 (hg.mem_known_delta.1 hp)

/-- A change hands out what the summary has and was not known. -/
theorem Valid.mem_added_delta {p : FactPair} :
    p ∈ g.added .delta ↔ g.Summarizes p ∧ p ∉ g.known := by
  rw [added_delta, List.mem_filter, decide_eq_true_eq, SortedSet.mem_toList, mem_summaryPairs,
    hg.mem_cachedExits_refresh_iff]

end Delta

/-- Every call keeps a graph valid. -/
theorem Valid.perform {g : ExplodedGraph} (hg : g.Valid) (call : Call) :
    (g.perform call).Valid := by
  by_cases h : call = .delta
  · subst h
    exact hg.delta
  · exact hg.keeps (keeps_perform g h)

/-- So does every run. -/
theorem Valid.run {g : ExplodedGraph} (hg : g.Valid) (calls : List Call) : (g.run calls).Valid := by
  induction calls generalizing g with
  | nil => exact hg
  | cons call calls ih => exact ih (hg.perform call)

/-! ## All that was handed out -/

/-- The list holds what a graph has handed out, each pair once. -/
structure HandedOut (g : ExplodedGraph) (l : List FactPair) : Prop where
  nodup : l.Nodup
  mem_iff : ∀ p, p ∈ l ↔ p ∈ g.known

theorem handedOut_new (source sink : Site) : HandedOut (new source sink) [] :=
  ⟨List.nodup_nil, fun _ => Iff.rfl⟩

/-- What a call hands out is put at the end, and none of it was handed out before. -/
theorem HandedOut.perform {g : ExplodedGraph} (hg : g.Valid) {l : List FactPair}
    (h : HandedOut g l) (call : Call) : HandedOut (g.perform call) (l ++ g.added call) := by
  by_cases hcall : call = .delta
  · subst hcall
    refine ⟨List.nodup_append.2 ⟨h.nodup, ?_, fun p hp q hq heq => ?_⟩, fun p => ?_⟩
    · rw [added_delta]
      exact (SortedSet.nodup _).filter _
    · subst heq
      exact (hg.mem_added_delta.1 hq).2 ((h.mem_iff p).1 hp)
    · rw [List.mem_append, hg.mem_added_delta, h.mem_iff, ExplodedGraph.perform,
        hg.mem_known_delta]
      constructor
      · rintro (hp | hp)
        · exact hg.known p hp
        · exact hp.1
      · intro hp
        by_cases hknown : p ∈ g.known
        · exact .inl hknown
        · exact .inr ⟨hp, hknown⟩
  · have hnone : g.added call = [] := by
      cases call with
      | delta => exact absurd rfl hcall
      | node => rfl
      | edge => rfl
      | fact => rfl
      | transition => rfl
    rw [hnone, List.append_nil]
    refine ⟨h.nodup, fun p => ?_⟩
    rw [(keeps_perform g hcall).known, h.mem_iff]

/-- So no pair comes twice in all that a run hands out. -/
theorem HandedOut.run {g : ExplodedGraph} (hg : g.Valid) {l : List FactPair} (h : HandedOut g l)
    (calls : List Call) : HandedOut (g.run calls) (l ++ g.allAdded calls) := by
  induction calls generalizing g l with
  | nil => simpa [allAdded, ExplodedGraph.run] using h
  | cons call calls ih =>
    have hrest := ih (hg.perform call) (h.perform hg call)
    rwa [List.append_assoc] at hrest

/-- Between changes the cached exits stay as they are, even where facts make them stale. -/
theorem cachedExits_run_of_no_delta (g : ExplodedGraph) {calls : List Call}
    (h : ∀ c ∈ calls, c ≠ .delta) (e : Fact) : (g.run calls).cachedExits e = g.cachedExits e := by
  induction calls generalizing g with
  | nil => rfl
  | cons call calls ih =>
    obtain ⟨hcall, hrest⟩ := List.forall_mem_cons.1 h
    have hsame : (g.perform call).cachedExits e = g.cachedExits e := by
      unfold cachedExits
      rw [(keeps_perform g hcall).summary]
    exact (ih (g.perform call) hrest).trans hsame

theorem nodup_cachedExits (g : ExplodedGraph) (e : Fact) : (g.cachedExits e).Nodup := by
  unfold cachedExits
  cases g.summary.get? e with
  | none => exact List.nodup_nil
  | some exits => exact exits.nodup

/-- Changes of a summary are exact and never repeat.  No pair is handed out as
added twice.  After each change that is handed out, the pairs handed out so far
are the pairs of a fact at the source and a fact at the sink to which it leads,
and these pairs are what can be read from the summary until the next change is
handed out. -/
theorem deltas_exact (source sink : Site) (calls : List Call) :
    ((new source sink).allAdded calls).Nodup ∧
      (∀ p, p ∈ (new source sink).allAdded (calls ++ [.delta]) ↔
        ((new source sink).run (calls ++ [.delta])).Summarizes p) ∧
      ∀ later : List Call, (∀ c ∈ later, c ≠ .delta) → ∀ e,
        (((new source sink).run (calls ++ .delta :: later)).cachedExits e).Nodup ∧
        ∀ x, x ∈ ((new source sink).run (calls ++ .delta :: later)).cachedExits e ↔
          ((new source sink).run (calls ++ [.delta])).Summarizes ⟨e, x⟩ := by
  have hnew := valid_new source sink
  have hg := hnew.run calls
  have hstart := handedOut_new source sink
  have hlast : (new source sink).run (calls ++ [.delta]) =
      ((new source sink).run calls).delta.1 := by
    rw [run, List.foldl_append]
    rfl
  rw [hlast]
  have hsummarizes : ∀ {p}, (((new source sink).run calls).delta.1).Summarizes p ↔
      ((new source sink).run calls).Summarizes p :=
    (sameFacts_delta _).summarizes_iff
  refine ⟨(hstart.run hnew calls).nodup, fun p => ?_, fun later hlater e => ⟨nodup_cachedExits _ e,
    fun x => ?_⟩⟩
  · have hout := (hstart.run hnew (calls ++ [.delta])).mem_iff p
    rw [List.nil_append, hlast] at hout
    rw [hout, hg.mem_known_delta, hsummarizes]
  · have hsplit : (new source sink).run (calls ++ .delta :: later) =
        (((new source sink).run calls).delta.1).run later := by
      rw [run, List.foldl_append]
      rfl
    rw [hsplit, cachedExits_run_of_no_delta _ hlater, hsummarizes]
    exact hg.mem_cachedExits_refresh_iff ⟨e, x⟩

/-- Facts that lead to each other in a loop, and out of it to the sink once a
first change was handed out.  The first transition has no edge to follow. -/
def loopCalls : List Call :=
  [.edge 0 2, .edge 2 2, .edge 2 1, .fact 0 ⟨0, 0, 1⟩, .fact 2 ⟨0, 2, 1⟩, .fact 2 ⟨0, 2, 2⟩,
    .fact 1 ⟨0, 1, 1⟩, .transition 0 ⟨0, 0, 1⟩ 1 ⟨0, 1, 1⟩, .transition 0 ⟨0, 0, 1⟩ 2 ⟨0, 2, 1⟩,
    .transition 2 ⟨0, 2, 1⟩ 2 ⟨0, 2, 2⟩, .transition 2 ⟨0, 2, 2⟩ 2 ⟨0, 2, 1⟩, .delta,
    .transition 2 ⟨0, 2, 2⟩ 1 ⟨0, 1, 1⟩]

theorem deltas_exact_loopCalls :
    (∀ c ∈ [Call.fact 1 ⟨0, 1, 2⟩, .transition 2 ⟨0, 2, 1⟩ 1 ⟨0, 1, 2⟩], c ≠ .delta) ∧
      (new 0 1).allAdded (loopCalls ++ [.delta]) = [⟨⟨0, 0, 1⟩, ⟨0, 1, 1⟩⟩] ∧
      ((new 0 1).run (loopCalls ++ [.delta])).Summarizes ⟨⟨0, 0, 1⟩, ⟨0, 1, 1⟩⟩ ∧
      ∀ x, x ∈ ((new 0 1).run (loopCalls ++ .delta ::
          [.fact 1 ⟨0, 1, 2⟩, .transition 2 ⟨0, 2, 1⟩ 1 ⟨0, 1, 2⟩])).cachedExits ⟨0, 0, 1⟩ ↔
        ((new 0 1).run (loopCalls ++ [.delta])).Summarizes ⟨⟨0, 0, 1⟩, x⟩ := by
  have hlater : ∀ c ∈ [Call.fact 1 ⟨0, 1, 2⟩, .transition 2 ⟨0, 2, 1⟩ 1 ⟨0, 1, 2⟩],
      c ≠ .delta := by decide
  have hadded : (new 0 1).allAdded (loopCalls ++ [.delta]) = [⟨⟨0, 0, 1⟩, ⟨0, 1, 1⟩⟩] := by decide
  obtain ⟨-, hall, hcached⟩ := deltas_exact 0 1 loopCalls
  refine ⟨hlater, hadded, (hall _).1 ?_, (hcached _ hlater _).2⟩
  rw [hadded]
  exact List.mem_singleton_self _

end ExplodedGraph

end ShapeAnalysis
