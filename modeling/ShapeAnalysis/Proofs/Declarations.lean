import Mathlib.Data.List.Induction
import Mathlib.Data.List.Nodup
import ShapeAnalysis.Proofs.Order
import ShapeAnalysis.Proofs.Structure
import ShapeAnalysis.Vocabulary.Builder

/-!
# Declared predicates

The names of a vocabulary are different, so a name and its position determine each other
(`Sound.lookup_eq_some_iff`).  A builder *holds* a list of predicates if its table has them
with their positions and its index finds every name where the list has it.  What is put in
under a new name comes to the end of both (`Holds.push`).

So a builder goes along with a vocabulary through every call (`Holds.perform`): no call
reads outside of the table, and the answers are the same.  What there is to say of the
builder is then said of the vocabulary (`vocabulary_stable`).
-/

namespace ShapeAnalysis

namespace Vocabulary

/-! ## Calls -/

/-- A call that declares a predicate. -/
inductive Call where
  | declare (name : String) (arity : Nat) (abstraction : Bool)
  | nullary (name : String)
  | unary (name : String)
  | binary (name : String)
deriving DecidableEq

namespace Call

/-- The name that is declared. -/
def name : Call → String
  | .declare name _ _ => name
  | .nullary name => name
  | .unary name => name
  | .binary name => name

/-- The number of arguments that is asked for. -/
def arity : Call → Nat
  | .declare _ arity _ => arity
  | .nullary _ => 0
  | .unary _ => 1
  | .binary _ => 2

/-- Whether it is asked that the predicate names nodes. -/
def abstraction : Call → Bool
  | .declare _ _ abstraction => abstraction
  | .nullary _ => false
  | .unary _ => true
  | .binary _ => false

/-- The predicate that a call declares under a new name. -/
def predicate (c : Call) : Predicate := ⟨c.name, c.arity, c.abstraction && c.arity = 1⟩

end Call

/-- The calls so far, each with its answer. -/
abbrev Log := List (Call × Except Error PredId)

/-- A vocabulary asked for a declaration. -/
def request (V : Vocabulary) : Call → Except Error (Vocabulary × PredId)
  | .declare name arity abstraction => V.declare name arity abstraction
  | .nullary name => V.nullary name
  | .unary name => V.unary name
  | .binary name => V.binary name

/-- The vocabulary after a call, with the answer. -/
def perform (V : Vocabulary) (c : Call) : Vocabulary × Except Error PredId :=
  match V.request c with
  | .ok (V', p) => (V', .ok p)
  | .error e => (V, .error e)

/-- One more call. -/
def next (s : Vocabulary × Log) (c : Call) : Vocabulary × Log :=
  ((s.1.perform c).1, s.2 ++ [(c, (s.1.perform c).2)])

/-- The vocabulary after a list of calls, with the calls and their answers. -/
def run (calls : List Call) : Vocabulary × Log := calls.foldl next (empty, [])

/-- The vocabulary with one more predicate. -/
def add (V : Vocabulary) (c : Call) : Vocabulary := ⟨V.declared ++ [c.predicate]⟩

theorem request_eq (V : Vocabulary) (c : Call) :
    V.request c = V.declare c.name c.arity c.abstraction := by
  cases c <;> rfl

/-- A name that is there is answered or refused, and nothing changes. -/
theorem perform_of_lookup {V : Vocabulary} {c : Call} {p : PredId}
    (h : V.lookup c.name = some p) : V.perform c =
      (V, if isReserved p then .error (.reservedPredicate c.name)
        else if V.arity p ≠ c.arity then .error (.arityClash c.name c.arity (V.arity p))
        else .ok p) := by
  rw [perform, request_eq, declare, h]
  by_cases hreserved : isReserved p
  · simp [hreserved]
  · by_cases harity : V.arity p = c.arity
    · simp [hreserved, harity]
    · simp [hreserved, harity]

/-- A new name is put in. -/
theorem perform_of_lookup_none {V : Vocabulary} {c : Call} (h : V.lookup c.name = none) :
    V.perform c = (V.add c, .ok V.size) := by
  rw [perform, request_eq, declare, h]
  rfl

/-- What a call can lead to. -/
theorem perform_cases (V : Vocabulary) (c : Call) :
    (∃ p, V.lookup c.name = some p ∧ isReserved p ∧
        V.perform c = (V, .error (.reservedPredicate c.name))) ∨
      (∃ p, V.lookup c.name = some p ∧ ¬ isReserved p ∧ V.arity p ≠ c.arity ∧
        V.perform c = (V, .error (.arityClash c.name c.arity (V.arity p)))) ∨
      (∃ p, V.lookup c.name = some p ∧ ¬ isReserved p ∧ V.arity p = c.arity ∧
        V.perform c = (V, .ok p)) ∨
      V.lookup c.name = none ∧ V.perform c = (V.add c, .ok V.size) := by
  cases hlookup : V.lookup c.name with
  | none => exact .inr (.inr (.inr ⟨rfl, perform_of_lookup_none hlookup⟩))
  | some p =>
    rw [perform_of_lookup hlookup]
    by_cases hreserved : isReserved p
    · exact .inl ⟨p, rfl, hreserved, by simp [hreserved]⟩
    · by_cases harity : V.arity p = c.arity
      · exact .inr (.inr (.inl ⟨p, rfl, hreserved, harity, by simp [hreserved, harity]⟩))
      · exact .inr (.inl ⟨p, rfl, hreserved, harity, by simp [hreserved, harity]⟩)

/-! ## Names and positions -/

/-- The names of the reserved predicates. -/
def reservedNames : List String := reserved.map (·.name)

/-- The invariant of vocabularies. -/
structure Sound (V : Vocabulary) : Prop where
  /-- No name is there twice. -/
  nodup_names : (V.predicates.map (·.name)).Nodup
  /-- Only unary predicates name nodes. -/
  unary_of_abstraction : ∀ q ∈ V.predicates, q.abstraction → q.arity = 1

section Lookup

variable {V : Vocabulary} {c : Call} {name : String} {p : PredId}

theorem lookup_eq_none_iff : V.lookup name = none ↔ ∀ q ∈ V.predicates, q.name ≠ name := by
  simp [lookup]

theorem lt_size_of_lookup (h : V.lookup name = some p) : p < V.size :=
  (List.findIdx?_eq_some_iff_getElem.1 h).1

theorem Sound.lookup_eq_some_iff (h : V.Sound) :
    V.lookup name = some p ↔ ∃ q, V.predicate? p = some q ∧ q.name = name := by
  rw [lookup, List.findIdx?_eq_some_iff_getElem]
  constructor
  · rintro ⟨hlt, hname, -⟩
    exact ⟨V.predicates[p], List.getElem?_eq_getElem hlt, by simpa using hname⟩
  · rintro ⟨q, hq, rfl⟩
    obtain ⟨hlt, rfl⟩ := List.getElem?_eq_some_iff.1 hq
    refine ⟨hlt, by simp, fun j hj hname => Nat.ne_of_lt hj ?_⟩
    have hjlt : j < (V.predicates.map (·.name)).length := by simpa using Nat.lt_trans hj hlt
    have hplt : p < (V.predicates.map (·.name)).length := by simpa using hlt
    have hsame : (V.predicates.map (·.name))[j] = (V.predicates.map (·.name))[p] := by
      simpa using hname
    exact h.nodup_names.getElem_inj_iff.1 hsame

theorem predicates_add (V : Vocabulary) (c : Call) :
    (V.add c).predicates = V.predicates ++ [c.predicate] := by
  simp [add, predicates]

theorem Sound.add (h : V.Sound) (hnew : V.lookup c.name = none) : (V.add c).Sound where
  nodup_names := by
    rw [predicates_add, List.map_append, List.nodup_append]
    refine ⟨h.nodup_names, by simp, ?_⟩
    simpa [Call.predicate] using lookup_eq_none_iff.1 hnew
  unary_of_abstraction q hq hq' := by
    rw [predicates_add, List.mem_append, List.mem_singleton] at hq
    rcases hq with hq | rfl
    · exact h.unary_of_abstraction q hq hq'
    · have hboth : c.abstraction = true ∧ c.arity = 1 := by simpa [Call.predicate] using hq'
      exact hboth.2

theorem sound_empty : empty.Sound := ⟨by decide, by decide⟩

theorem Sound.perform (h : V.Sound) (c : Call) : (V.perform c).1.Sound := by
  rcases V.perform_cases c with
    ⟨p, -, -, heq⟩ | ⟨p, -, -, -, heq⟩ | ⟨p, -, -, -, heq⟩ | ⟨hnew, heq⟩
  · rwa [heq]
  · rwa [heq]
  · rwa [heq]
  · rw [heq]
    exact h.add hnew

/-- A new predicate is found under its name, at the end. -/
theorem lookup_add (hnew : V.lookup c.name = none) (name : String) :
    (V.add c).lookup name = if name = c.name then some V.size else V.lookup name := by
  rw [lookup, predicates_add, List.findIdx?_append]
  by_cases hname : name = c.name
  · have hold : V.predicates.findIdx? (fun q => q.name == c.name) = none := hnew
    rw [if_pos hname, hname, hold]
    simp [Call.predicate, size]
  · rw [if_neg hname]
    simp [Call.predicate, Ne.symm hname, lookup]

theorem arity_add_of_lt (c : Call) (hp : p < V.size) : (V.add c).arity p = V.arity p := by
  rw [arity, arity, predicate?, predicate?, predicates_add, List.getElem?_append_left hp]

theorem arity_add_self (V : Vocabulary) (c : Call) : (V.add c).arity V.size = c.arity := by
  rw [arity, predicate?, predicates_add, size]
  simp [Call.predicate]

/-- A call that is accepted answers the position of its name. -/
theorem lookup_of_perform_eq_ok (h : (V.perform c).2 = .ok p) :
    (V.perform c).1.lookup c.name = some p := by
  rcases V.perform_cases c with
    ⟨q, -, -, heq⟩ | ⟨q, -, -, -, heq⟩ | ⟨q, hlookup, -, -, heq⟩ | ⟨hnew, heq⟩
  · rw [heq] at h
    cases h
  · rw [heq] at h
    cases h
  · rw [heq] at h ⊢
    cases h
    exact hlookup
  · rw [heq] at h ⊢
    cases h
    rw [lookup_add hnew, if_pos rfl]

theorem not_isReserved_size (V : Vocabulary) : ¬ isReserved V.size := fun h =>
  Nat.lt_irrefl _ (V.lt_size_of_isReserved h)

theorem Sound.mem_reservedNames_iff (h : V.Sound) :
    name ∈ reservedNames ↔ ∃ p, V.lookup name = some p ∧ isReserved p := by
  constructor
  · intro hname
    obtain ⟨q, hq, rfl⟩ := List.mem_map.1 hname
    obtain ⟨p, hlt, rfl⟩ := List.mem_iff_getElem.1 hq
    have hp : isReserved p := by simpa [isReserved] using hlt
    refine ⟨p, h.lookup_eq_some_iff.2 ⟨reserved[p], ?_, rfl⟩, hp⟩
    rw [V.predicate?_of_isReserved hp, List.getElem?_eq_getElem hlt]
  · rintro ⟨p, hlookup, hp⟩
    obtain ⟨q, hq, rfl⟩ := h.lookup_eq_some_iff.1 hlookup
    rw [V.predicate?_of_isReserved hp] at hq
    exact List.mem_map_of_mem (List.mem_of_getElem? hq)

/-- A reserved name stands for a unary predicate that does not name nodes. -/
theorem predicate?_of_reservedNames (V : Vocabulary) (h : reservedNames[p]? = some name) :
    isReserved p ∧ V.predicate? p = some ⟨name, 1, false⟩ := by
  have hall : ∀ q ∈ reserved, q = ⟨q.name, 1, false⟩ := by decide
  rw [reservedNames, List.getElem?_map] at h
  obtain ⟨q, hq, rfl⟩ := Option.map_eq_some_iff.1 h
  have hp : isReserved p := decide_eq_true (List.getElem?_eq_some_iff.1 hq).1
  rw [V.predicate?_of_isReserved hp, hq]
  exact ⟨hp, congrArg some (hall q (List.mem_of_getElem? hq))⟩

end Lookup

/-! ## Declarations and refusals -/

/-- An accepted call declared a name with a number of arguments. -/
def Log.Declares (log : Log) (name : String) (arity : Nat) : Prop :=
  ∃ c p, (c, .ok p) ∈ log ∧ c.name = name ∧ c.arity = arity

/-- A call is refused for a reason: its name is reserved, or it was declared with another
number of arguments. -/
def Refuses (log : Log) (c : Call) (e : Error) : Prop :=
  c.name ∈ reservedNames ∧ e = .reservedPredicate c.name ∨
    ∃ arity, log.Declares c.name arity ∧ arity ≠ c.arity ∧ e = .arityClash c.name c.arity arity

/-- The predicates of a vocabulary that are not reserved are those that were declared. -/
def Follows (V : Vocabulary) (log : Log) : Prop :=
  ∀ name arity, log.Declares name arity ↔
    ∃ p, V.lookup name = some p ∧ ¬ isReserved p ∧ V.arity p = arity

section Follows

variable {V : Vocabulary} {log : Log} {c : Call} {name : String} {arity : Nat}

theorem declares_concat_error {e : Error} :
    Log.Declares (log ++ [(c, .error e)]) name arity ↔ log.Declares name arity := by
  simp [Log.Declares]

theorem declares_concat_ok {p : PredId} : Log.Declares (log ++ [(c, .ok p)]) name arity ↔
    log.Declares name arity ∨ c.name = name ∧ c.arity = arity := by
  simp only [Log.Declares, List.mem_append, List.mem_singleton]
  constructor
  · rintro ⟨d, q, hd | heq, hname, harity⟩
    · exact .inl ⟨d, q, hd, hname, harity⟩
    · cases heq
      exact .inr ⟨hname, harity⟩
  · rintro (⟨d, q, hd, hname, harity⟩ | ⟨hname, harity⟩)
    · exact ⟨d, q, .inl hd, hname, harity⟩
    · exact ⟨c, p, .inr rfl, hname, harity⟩

theorem follows_empty : Follows empty [] := by
  intro name arity
  constructor
  · rintro ⟨c, p, hmem, -⟩
    cases hmem
  · rintro ⟨p, hlookup, hp, -⟩
    have hlt : p < reserved.length := lt_size_of_lookup hlookup
    exact absurd (decide_eq_true hlt) hp

theorem Follows.perform (h : Follows V log) (c : Call) :
    Follows (V.perform c).1 (log ++ [(c, (V.perform c).2)]) := by
  intro name arity
  rcases V.perform_cases c with
    ⟨p, -, -, heq⟩ | ⟨p, -, -, -, heq⟩ | ⟨p, hlookup, hp, harity, heq⟩ | ⟨hnew, heq⟩
  · rw [heq, declares_concat_error, h]
  · rw [heq, declares_concat_error, h]
  · rw [heq, declares_concat_ok, h, or_iff_left_iff_imp]
    rintro ⟨rfl, rfl⟩
    exact ⟨p, hlookup, hp, harity⟩
  · rw [heq, declares_concat_ok, h]
    simp only [lookup_add hnew]
    by_cases hname : name = c.name
    · subst hname
      simp [hnew, not_isReserved_size, arity_add_self]
    · simp only [hname, Ne.symm hname, if_false, false_and, or_false]
      refine exists_congr fun p => and_congr_right fun hlookup => ?_
      rw [arity_add_of_lt c (lt_size_of_lookup hlookup)]

/-- A call is refused exactly for one of the reasons. -/
theorem Follows.perform_eq_error_iff (h : Follows V log) (hV : V.Sound) {e : Error} :
    (V.perform c).2 = .error e ↔ Refuses log c e := by
  have hdeclares : ∀ arity, log.Declares c.name arity ↔ _ := h c.name
  rw [Refuses, hV.mem_reservedNames_iff]
  simp only [hdeclares]
  rcases V.perform_cases c with
    ⟨p, hlookup, hp, heq⟩ | ⟨p, hlookup, hp, harity, heq⟩ | ⟨p, hlookup, hp, harity, heq⟩ |
      ⟨hlookup, heq⟩
  · simpa [heq, hlookup, hp] using eq_comm
  · simpa [heq, hlookup, hp, harity] using eq_comm
  · simp [heq, hlookup, hp, harity]
  · simp [heq, hlookup]

end Follows

end Vocabulary

/-! ## What a builder holds -/

namespace VocabularyBuilder

open Vocabulary (isReserved)

/-- The entry of a table for a predicate at a position. -/
def entryAt (p : PredId) (q : Predicate) : TableEntry :=
  { q with id := p, reserved := isReserved p }

/-- The table and the index of a builder are about a list of predicates. -/
structure Holds (b : VocabularyBuilder) (qs : List Predicate) : Prop where
  /-- The table has the predicates with their positions. -/
  predicates_eq : b.predicates = qs.mapIdx entryAt
  /-- The index finds a name where the list has it. -/
  get?_byName : ∀ name, b.byName.get? name = qs.findIdx? fun q => q.name == name

section Holds

variable {b : VocabularyBuilder} {qs : List Predicate}

theorem Holds.length_eq (h : b.Holds qs) : b.predicates.length = qs.length := by
  rw [h.predicates_eq, List.length_mapIdx]

theorem holds_blank : blank.Holds [] := ⟨rfl, fun _ => rfl⟩

/-- A predicate with a new name comes to the end. -/
theorem Holds.push (h : b.Holds qs) {name : String} (hnew : ∀ q ∈ qs, q.name ≠ name)
    (arity : Nat) (abstraction : Bool) :
    Holds (b.push name arity abstraction (isReserved qs.length)).1
      (qs ++ [⟨name, arity, abstraction⟩]) where
  predicates_eq := by
    rw [List.mapIdx_concat, ← h.predicates_eq]
    simp only [VocabularyBuilder.push, h.length_eq]
    rfl
  get?_byName other := by
    simp only [VocabularyBuilder.push, SortedMap.get?_insert, h.get?_byName, h.length_eq]
    rw [List.findIdx?_append]
    have hold : qs.findIdx? (fun q => q.name == name) = none := by simpa using hnew
    by_cases hother : other = name
    · simp [hother, hold]
    · simp [hother, Ne.symm hother]

theorem Holds.reserve (h : b.Holds qs) (name : String) (hnew : ∀ q ∈ qs, q.name ≠ name)
    (hlt : isReserved qs.length = true) :
    Holds (b.reserve name).1 (qs ++ [⟨name, 1, false⟩]) := by
  have hpush := h.push hnew 1 false
  rwa [hlt] at hpush

theorem holds_new : new.Holds Vocabulary.empty.predicates := by
  have hsm := holds_blank.reserve "sm" (by decide) rfl
  have hkill := hsm.reserve "kill" (by decide) rfl
  have hinUc := hkill.reserve "inUc" (by decide) rfl
  have hinUx := hinUc.reserve "inUx" (by decide) rfl
  have hactive := hinUx.reserve "active" (by decide) rfl
  have hisNew := hactive.reserve "isNew" (by decide) rfl
  exact ⟨hisNew.predicates_eq, hisNew.get?_byName⟩

/-- A position that is found in the index is one of the table, where the predicate of the
vocabulary stands. -/
theorem Holds.getElem?_predicates {V : Vocabulary} (h : b.Holds V.predicates) (p : PredId) :
    b.predicates[p]? = (V.predicate? p).map (entryAt p) := by
  rw [h.predicates_eq, List.getElem?_mapIdx, Vocabulary.predicate?]

/-! ## Calls on a builder -/

/-- The builder after a call, with the answer, if it can go on. -/
def perform (b : VocabularyBuilder) :
    Vocabulary.Call → Option (VocabularyBuilder × Except Error PredId)
  | .declare name arity abstraction => b.declare name arity abstraction
  | .nullary name => b.nullary name
  | .unary name => b.unary name
  | .binary name => b.binary name

/-- One more call. -/
def next (s : VocabularyBuilder × Vocabulary.Log) (c : Vocabulary.Call) :
    Option (VocabularyBuilder × Vocabulary.Log) :=
  (s.1.perform c).map fun r => (r.1, s.2 ++ [(c, r.2)])

/-- A new builder after a list of calls, with the calls and their answers. -/
def run (calls : List Vocabulary.Call) : Option (VocabularyBuilder × Vocabulary.Log) :=
  calls.foldlM next (new, [])

/-- A name that is found leads to an entry of the table. -/
theorem Holds.exists_entry {V : Vocabulary} (h : b.Holds V.predicates) {name : String} {p : PredId}
    (hlookup : V.lookup name = some p) : ∃ entry, b.predicates[p]? = some entry ∧
      entry.reserved = isReserved p ∧ entry.arity = V.arity p := by
  have hlt := Vocabulary.lt_size_of_lookup hlookup
  have hpredicate : V.predicate? p = some (V.predicates.get ⟨p, hlt⟩) :=
    List.getElem?_eq_getElem hlt
  rw [h.getElem?_predicates, hpredicate]
  exact ⟨_, rfl, rfl, by rw [Vocabulary.arity, hpredicate]; rfl⟩

/-- A call on a builder has the answer that the vocabulary gives. -/
theorem Holds.perform {V : Vocabulary} (h : b.Holds V.predicates) (c : Vocabulary.Call) :
    ∃ b', b.perform c = some (b', (V.perform c).2) ∧ b'.Holds (V.perform c).1.predicates ∧
      b'.reserved = b.reserved ∧ b.predicates <+: b'.predicates ∧
      ∀ e, (V.perform c).2 = .error e → b' = b := by
  have hdeclare : b.perform c = b.declare c.name c.arity c.abstraction := by cases c <;> rfl
  have hindex : b.byName.get? c.name = V.lookup c.name := h.get?_byName c.name
  rw [hdeclare, declare, hindex]
  cases hlookup : V.lookup c.name with
  | some p =>
    obtain ⟨entry, hentry, hreserved, harity⟩ := h.exists_entry hlookup
    rw [Vocabulary.perform_of_lookup hlookup]
    refine ⟨b, ?_, h, rfl, List.prefix_refl _, fun _ _ => rfl⟩
    simp only [hentry, Option.map_some, hreserved, harity]
    split_ifs
    · rfl
    · rfl
    · rfl
  | none =>
    have hpush := h.push (Vocabulary.lookup_eq_none_iff.1 hlookup) c.arity
      (c.abstraction && c.arity = 1)
    have hnot : isReserved V.predicates.length = false :=
      Bool.eq_false_iff.2 V.not_isReserved_size
    rw [hnot] at hpush
    rw [Vocabulary.perform_of_lookup_none hlookup, Vocabulary.predicates_add]
    refine ⟨_, ?_, hpush, rfl, List.prefix_append _ _, fun e he => nomatch he⟩
    simp only [VocabularyBuilder.push, h.length_eq]
    rfl

end Holds

/-! ## Reading -/

/-- A frozen vocabulary is read as the vocabulary that the library works with. -/
structure Agrees (F : FrozenVocabulary) (V : Vocabulary) : Prop where
  /-- Names have the same positions. -/
  lookup_eq : ∀ name, F.lookup name = V.lookup name
  /-- The same names are missing. -/
  require_eq : ∀ name, F.require name = V.require name
  /-- The same predicates are at a position. -/
  predicate?_eq : ∀ p, (F.predicate? p).map (·.toPredicate) = V.predicate? p
  /-- The same positions have an arity. -/
  withArity_eq : ∀ n, F.withArity n = V.withArity n
  /-- The same positions name nodes. -/
  abstraction_eq : F.abstraction = V.abstraction

theorem map_id_filter_entries (test : Predicate → Bool) (qs : List Predicate) :
    ((qs.mapIdx entryAt).filter fun q => test q.toPredicate).map (·.id) =
      (List.range qs.length).filter fun p => qs[p]?.any test := by
  induction qs using List.reverseRecOn with
  | nil => rfl
  | append_singleton qs q ih =>
    have hold : (List.range qs.length).filter (fun p => (qs ++ [q])[p]?.any test) =
        (List.range qs.length).filter fun p => qs[p]?.any test := by
      refine List.filter_congr fun p hp => ?_
      rw [List.getElem?_append_left (List.mem_range.1 hp)]
    rw [List.mapIdx_concat, List.filter_append, List.map_append, ih, List.length_append,
      List.length_singleton, List.range_succ, List.filter_append, hold]
    congr 1
    by_cases hq : test q = true
    · simp [entryAt, hq]
    · simp [entryAt, hq]

theorem Holds.agrees {b : VocabularyBuilder} {V : Vocabulary} (h : b.Holds V.predicates) :
    Agrees b.freeze V where
  lookup_eq := h.get?_byName
  require_eq name := by
    have hlookup : b.freeze.lookup name = V.lookup name := h.get?_byName name
    cases hV : V.lookup name with
    | none => simp [FrozenVocabulary.require, Vocabulary.require, hlookup, hV]
    | some p => simp [FrozenVocabulary.require, Vocabulary.require, hlookup, hV]
  predicate?_eq p := by
    rw [FrozenVocabulary.predicate?, freeze, h.getElem?_predicates, Option.map_map]
    exact Option.map_id'
  withArity_eq n := by
    rw [FrozenVocabulary.withArity, freeze, h.predicates_eq,
      map_id_filter_entries (fun q => q.arity = n)]
    refine List.filter_congr fun p hp => ?_
    rw [Vocabulary.arity, Vocabulary.predicate?,
      List.getElem?_eq_getElem (List.mem_range.1 hp)]
    rfl
  abstraction_eq := by
    rw [FrozenVocabulary.abstraction, freeze, h.predicates_eq,
      map_id_filter_entries (fun q => q.abstraction && q.arity = 1)]
    refine List.filter_congr fun p hp => ?_
    rw [Vocabulary.predicate?, List.getElem?_eq_getElem (List.mem_range.1 hp)]
    rfl

/-! ## Runs -/

/-- The invariant of builders. -/
structure Consistent (b : VocabularyBuilder) : Prop where
  /-- A predicate has its index for a position. -/
  id_eq : ∀ (i : Nat) (q : TableEntry), b.predicates[i]? = some q → q.id = i
  /-- No name is there twice. -/
  nodup_names : (b.predicates.map (·.name)).Nodup
  /-- A name is found at the position of the predicate with that name. -/
  lookup_eq_some_iff : ∀ name p, b.freeze.lookup name = some p ↔
    ∃ q, b.freeze.predicate? p = some q ∧ q.name = name
  /-- The reserved predicates are told by the first six positions. -/
  reserved_eq :
    b.reserved = { sm := 0, kill := 1, inUc := 2, inUx := 3, active := 4, isNew := 5 }
  /-- They are unary and do not name nodes. -/
  getElem?_of_reserved : ∀ (p : PredId) (name : String),
    Vocabulary.reservedNames[p]? = some name → b.predicates[p]? =
      some { name := name, arity := 1, abstraction := false, id := p, reserved := true }
  /-- No other predicate counts as reserved. -/
  reserved_iff : ∀ q ∈ b.predicates, q.reserved ↔ q.id < 6
  /-- Only unary predicates name nodes. -/
  unary_of_abstraction : ∀ q ∈ b.predicates, q.abstraction → q.arity = 1

section Consistent

variable {b : VocabularyBuilder} {V : Vocabulary} (h : b.Holds V.predicates)
include h

theorem Holds.map_name : b.predicates.map (·.name) = V.predicates.map (·.name) := by
  apply List.ext_getElem?
  intro p
  rw [List.getElem?_map, List.getElem?_map, h.getElem?_predicates, Option.map_map]
  rfl

theorem Holds.exists_of_mem {q : TableEntry} (hq : q ∈ b.predicates) :
    ∃ p, ∃ r ∈ V.predicates, q = entryAt p r := by
  obtain ⟨p, hp⟩ := List.mem_iff_getElem?.1 hq
  rw [h.getElem?_predicates] at hp
  obtain ⟨r, hr, rfl⟩ := Option.map_eq_some_iff.1 hp
  exact ⟨p, r, List.mem_of_getElem? hr, rfl⟩

theorem Holds.consistent (hV : V.Sound) (hreserved : b.reserved = new.reserved) :
    b.Consistent where
  id_eq i q hq := by
    rw [h.getElem?_predicates] at hq
    obtain ⟨r, -, rfl⟩ := Option.map_eq_some_iff.1 hq
    rfl
  nodup_names := h.map_name ▸ hV.nodup_names
  lookup_eq_some_iff name p := by
    rw [h.agrees.lookup_eq, hV.lookup_eq_some_iff, ← h.agrees.predicate?_eq]
    simp
  reserved_eq := hreserved
  getElem?_of_reserved p name hp := by
    obtain ⟨hreserved, hpredicate⟩ := V.predicate?_of_reservedNames hp
    rw [h.getElem?_predicates, hpredicate, Option.map_some, entryAt, hreserved]
  reserved_iff q hq := by
    obtain ⟨p, r, -, rfl⟩ := h.exists_of_mem hq
    exact decide_eq_true_iff
  unary_of_abstraction q hq hq' := by
    obtain ⟨p, r, hr, rfl⟩ := h.exists_of_mem hq
    exact hV.unary_of_abstraction r hr hq'

end Consistent

/-- A builder goes along with a vocabulary through a list of calls. -/
theorem Holds.run {b : VocabularyBuilder} {V : Vocabulary} (h : b.Holds V.predicates)
    (log : Vocabulary.Log) (calls : List Vocabulary.Call) :
    ∃ b', calls.foldlM next (b, log) = some (b', (calls.foldl Vocabulary.next (V, log)).2) ∧
      b'.Holds (calls.foldl Vocabulary.next (V, log)).1.predicates ∧
      b'.reserved = b.reserved ∧ b.predicates <+: b'.predicates := by
  induction calls generalizing b V log with
  | nil => exact ⟨b, rfl, h, rfl, List.prefix_refl _⟩
  | cons c calls ih =>
    obtain ⟨b₁, hperform, hholds, hreserved, hkeeps, -⟩ := h.perform c
    obtain ⟨b₂, hrun, hholds', hreserved', hkeeps'⟩ := ih hholds (log ++ [(c, (V.perform c).2)])
    refine ⟨b₂, ?_, hholds', hreserved'.trans hreserved, hkeeps.trans hkeeps'⟩
    rw [List.foldlM_cons, next, hperform]
    exact hrun

/-- A vocabulary stays sound through a list of calls, and it follows them. -/
theorem sound_run (calls : List Vocabulary.Call) :
    (Vocabulary.run calls).1.Sound ∧
      Vocabulary.Follows (Vocabulary.run calls).1 (Vocabulary.run calls).2 := by
  induction calls using List.reverseRecOn with
  | nil => exact ⟨Vocabulary.sound_empty, Vocabulary.follows_empty⟩
  | append_singleton calls c ih =>
    rw [Vocabulary.run, List.foldl_append]
    exact ⟨ih.1.perform c, ih.2.perform c⟩

/-- No list of calls stops a builder.  It stays consistent, refuses a call for one of the
reasons only and is then as it was before, and what it once has stays where it is. -/
theorem vocabulary_stable (calls : List Vocabulary.Call) :
    ∃ b log, run calls = some (b, log) ∧ b.Consistent ∧
      log = (Vocabulary.run calls).2 ∧ Agrees b.freeze (Vocabulary.run calls).1 ∧
      (∀ c, ∃ b' r, b.perform c = some (b', r) ∧
        (∀ e, r = .error e ↔ Vocabulary.Refuses log c e) ∧
        (∀ e, r = .error e → b' = b) ∧
        ∀ p, r = .ok p → b'.freeze.lookup c.name = some p) ∧
      ∀ later, ∃ b' log', run (calls ++ later) = some (b', log') ∧
        b.predicates <+: b'.predicates := by
  obtain ⟨hsound, hfollows⟩ := sound_run calls
  obtain ⟨b, hrun, hholds, hreserved, -⟩ := holds_new.run [] calls
  refine ⟨b, _, hrun, hholds.consistent hsound hreserved, rfl, hholds.agrees, fun c => ?_,
    fun later => ?_⟩
  · obtain ⟨b', hperform, hholds', -, -, hkept⟩ := hholds.perform c
    refine ⟨b', _, hperform, fun e => hfollows.perform_eq_error_iff hsound, hkept, fun p hp => ?_⟩
    rw [hholds'.agrees.lookup_eq]
    exact Vocabulary.lookup_of_perform_eq_ok hp
  · obtain ⟨b', hrun', -, -, hkeeps⟩ := hholds.run (Vocabulary.run calls).2 later
    refine ⟨b', (later.foldl Vocabulary.next (Vocabulary.run calls)).2, ?_, hkeeps⟩
    rw [run, List.foldlM_append, hrun]
    exact hrun'

/-- Declarations, one of them repeated, one with another arity and one of a reserved
name. -/
def sampleCalls : List Vocabulary.Call :=
  [.unary "x", .binary "n", .unary "x", .binary "x", .declare "m" 2 true, .nullary "kill"]

theorem vocabulary_stable_sampleCalls : ∃ b log, run sampleCalls = some (b, log) ∧
    b.perform (.nullary "n") = some (b, .error (.arityClash "n" 0 2)) ∧
    b.perform (.unary "sm") = some (b, .error (.reservedPredicate "sm")) := by
  obtain ⟨b, log, hrun, -, hlog, -, hnext, -⟩ := vocabulary_stable sampleCalls
  have hanswers : log = [(.unary "x", .ok 6), (.binary "n", .ok 7), (.unary "x", .ok 6),
      (.binary "x", .error (.arityClash "x" 2 1)), (.declare "m" 2 true, .ok 8),
      (.nullary "kill", .error (.reservedPredicate "kill"))] := by
    rw [hlog]
    rfl
  have hdeclares : log.Declares "n" 2 := ⟨.binary "n", 7, by simp [hanswers], rfl, rfl⟩
  refine ⟨b, log, hrun, ?_, ?_⟩
  · obtain ⟨b', r, hperform, hrefuses, hkept, -⟩ := hnext (.nullary "n")
    have hr : r = .error (.arityClash "n" 0 2) :=
      (hrefuses _).2 (.inr ⟨2, hdeclares, by decide, rfl⟩)
    rw [hperform, hkept _ hr, hr]
  · obtain ⟨b', r, hperform, hrefuses, hkept, -⟩ := hnext (.unary "sm")
    have hr : r = .error (.reservedPredicate "sm") := (hrefuses _).2 (.inl ⟨by decide, rfl⟩)
    rw [hperform, hkept _ hr, hr]

end VocabularyBuilder

end ShapeAnalysis
