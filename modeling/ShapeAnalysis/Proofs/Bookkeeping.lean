import ShapeAnalysis.Proofs.News

/-!
# Bookkeeping

What the books of a method come to for those who use them.  In every run of a method its
three books agree, and so it is decided which transitions are accepted and which of them
are new.  In every run of a program a fact that an addition returned tells the method and
the node, since it carries the numbers of both.
-/

namespace ShapeAnalysis

namespace Program

variable {V : Vocabulary} {p : Program V}

/-- The additions of a list of calls, oldest first. -/
def allAdditions (p : Program V) : List (Call V) → List Addition
  | [] => []
  | call :: calls => call.additions p ++ (call.command.leaves p).allAdditions calls

/-- The fact of an addition carries the numbers of its method and of its node. -/
def Addition.Marked (a : Addition) : Prop := a.fact.store = a.method ∧ a.fact.state = a.site

theorem marked_of_mem_seeds (hp : p.Books) {i : MethodId} {site : Site}
    {ss : List (Structure V)} {a : Addition} (ha : a ∈ seeds i site ss p) : a.Marked := by
  induction ss generalizing p with
  | nil => cases ha
  | cons s ss ih =>
    cases h : p.addStructure i site s with
    | error e =>
      rw [seeds_cons_of_error h] at ha
      cases ha
    | ok r =>
      rw [seeds_cons_of_ok h] at ha
      rcases List.mem_cons.1 ha with rfl | ha
      · exact hp.fact_eq h
      · exact ih (hp.addStructure h) ha

/-- The fact that an addition returns carries the numbers of its method and node. -/
theorem marked_of_mem_additions (hp : p.Books) {call : Call V} {a : Addition}
    (ha : a ∈ call.additions p) : a.Marked := by
  cases call with
  | add i site s => exact marked_of_mem_seeds hp ha
  | start ss =>
    simp only [Call.additions] at ha
    split at ha
    · split at ha
      · exact marked_of_mem_seeds hp ha
      · cases ha
    · cases ha
  | _ => cases ha

/-- So it is for all additions of a run. -/
theorem marked_of_mem_allAdditions (hp : p.Orderly) {calls : List (Call V)} {a : Addition}
    (ha : a ∈ p.allAdditions calls) : a.Marked := by
  induction calls generalizing p with
  | nil => cases ha
  | cons call calls ih =>
    rcases List.mem_append.1 ha with ha | ha
    · exact marked_of_mem_additions hp.books ha
    · exact ih (hp.leaves call) ha

end Program

/-- The bookkeepings agree.  In every run of a method its control flow, its store and its
exploded graph agree, a transition is accepted just along an edge between facts of its
nodes, and it is new just if no call before was accepted with it.  In every run of a
program, additions that return the same fact are at the same node of the same method. -/
theorem bookkeepings_agree (V : Vocabulary) :
    (∀ (id : MethodId) (signature : String) (kind : MethodKind) (entry exit : String)
      (mode : JoinMode) (m : Method V), Method.new id signature kind entry exit mode = .ok m →
      ∀ calls : List (Method.Call V), (m.execAll calls).Agrees ∧
        ∀ (src : Site) (f : Fact) (dst : Site) (f' : Fact),
          let answer := (Method.InPlace.addTransition src f dst f').answer (m.execAll calls)
          ((∃ new, answer = .ok new) ↔
            (∃ e ∈ (m.execAll calls).cfg.edges, e.src = src ∧ e.dst = dst) ∧
              f ∈ (m.execAll calls).factsAt src ∧ f' ∈ (m.execAll calls).factsAt dst) ∧
          (answer = .ok true ↔ (∃ new, answer = .ok new) ∧ ¬ m.Recorded src f dst f' calls)) ∧
    ∀ (mode : JoinMode) (calls : List (Program.Call V)),
      ∀ a ∈ (Program.new mode).allAdditions calls, ∀ b ∈ (Program.new mode).allAdditions calls,
        a.fact = b.fact → a.method = b.method ∧ a.site = b.site := by
  constructor
  · intro id signature kind entry exit mode m hm calls
    have hagrees : (m.execAll calls).Agrees := by
      rw [Method.execAll_eq_run]
      exact ((Method.booked_new hm).run calls).agrees
    have hmoves : m.exploded.moves = [] := by
      obtain ⟨-, rfl⟩ := Method.new_eq_ok hm
      rfl
    refine ⟨hagrees, ?_⟩
    intro src f dst f' answer
    refine ⟨hagrees.accepts_iff, ?_⟩
    rw [Method.answer_eq_true_iff, Method.mem_moves_execAll, hmoves, or_iff_right List.not_mem_nil]
  · intro mode calls a ha b hb hfact
    obtain ⟨hmethod, hsite⟩ := Program.marked_of_mem_allAdditions (Program.orderly_new mode) ha
    obtain ⟨hmethod', hsite'⟩ := Program.marked_of_mem_allAdditions (Program.orderly_new mode) hb
    rw [← hmethod, ← hsite, ← hmethod', ← hsite', hfact]
    exact ⟨rfl, rfl⟩

/-- A structure is added twice at the exit of a method. -/
def repeatedCalls : List (Program.Call Structure.cellVocabulary) :=
  [.method .static "main" "in" "out", .add 0 1 (StateStore.linkedCell .tt .tt),
    .add 0 1 (StateStore.linkedCell .tt .tt)]

theorem bookkeepings_agree_cells :
    (∃ m : Method Structure.cellVocabulary,
      Method.new 0 "f" .static "in" "out" .pointwise = .ok m ∧
        (m.execAll Method.growingCalls).factsAt 1 = [⟨0, 1, 2⟩] ∧
        m.Recorded 0 ⟨0, 0, 1⟩ 1 ⟨0, 1, 2⟩ Method.growingCalls ∧
        (Method.InPlace.addTransition 0 ⟨0, 0, 1⟩ 1 ⟨0, 1, 2⟩).answer
          (m.execAll Method.growingCalls) ≠ .ok true) ∧
      ∃ a ∈ (Program.new .pointwise).allAdditions repeatedCalls,
        ∃ b ∈ (Program.new .pointwise).allAdditions repeatedCalls,
          a ≠ b ∧ a.fact = b.fact ∧ a.method = b.method ∧ a.site = b.site := by
  obtain ⟨hmethod, hprogram⟩ := bookkeepings_agree Structure.cellVocabulary
  constructor
  · obtain ⟨m, hm⟩ : ∃ m : Method Structure.cellVocabulary,
      Method.new 0 "f" .static "in" "out" .pointwise = .ok m := ⟨_, rfl⟩
    obtain ⟨hagrees, htransitions⟩ :=
      hmethod 0 "f" .static "in" "out" .pointwise m hm Method.growingCalls
    have hrecorded : m.Recorded 0 ⟨0, 0, 1⟩ 1 ⟨0, 1, 2⟩ Method.growingCalls := by
      cases hm
      exact ⟨Method.growingCalls.take 3, _, Method.growingCalls.drop 4, rfl, rfl, true, rfl⟩
    refine ⟨m, hm, ?_, hrecorded, fun htrue => ?_⟩
    · rw [← hagrees.facts]
      cases hm
      decide
    · exact ((htransitions 0 ⟨0, 0, 1⟩ 1 ⟨0, 1, 2⟩).2.1 htrue).2 hrecorded
  · have ha : ⟨0, 1, true, ⟨0, 1, 1⟩⟩ ∈ (Program.new .pointwise).allAdditions repeatedCalls := by
      decide
    have hb : ⟨0, 1, false, ⟨0, 1, 1⟩⟩ ∈ (Program.new .pointwise).allAdditions repeatedCalls := by
      decide
    exact ⟨_, ha, _, hb, by decide, rfl, hprogram .pointwise repeatedCalls _ ha _ hb rfl⟩

end ShapeAnalysis
