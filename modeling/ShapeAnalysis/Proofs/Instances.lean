import Mathlib.Data.Set.Function
import ShapeAnalysis.Action.Library
import ShapeAnalysis.Proofs.Order

/-!
# What the cache of instances shows

A request names a definition and its arguments.  The *answer* to it is read off
the definitions alone.  A library looks first into its cache, under the name of
the instance, so it answers a request right unless it holds an instance of
another request with the same name (`instantiate_answers`).

Of the cache only `LastPut` is used: a look-up shows what was last put in under its name,
or nothing.  `ActionCache.lastPut` is the cache here.

Names of instances are texts, and different requests may share one: the
arguments `a,b` and `c` are written like the arguments `a` and `b,c`.  For
requests from a given set, the cache is invisible in every history exactly if no
two of them share a name (`cache_invisible_iff`).  This is so where no bracket
occurs in names, no comma in arguments, and no argument is empty.
-/

namespace ShapeAnalysis

/-! ## Names that can be read back -/

/-- A definition and its arguments. -/
abbrev Request := String × List String

namespace Request

/-- The name of the instance that is asked for. -/
def id (r : Request) : String := ActionInstance.idOf r.1 r.2

/-- The name has no bracket, and the arguments are not empty and have no comma. -/
def Plain (r : Request) : Prop :=
  '(' ∉ r.1.toList ∧ ∀ a ∈ r.2, a ≠ "" ∧ ',' ∉ a.toList

theorem toList_id (r : Request) :
    r.id.toList = r.1.toList ++ '(' :: ([','].intercalate (r.2.map String.toList) ++ [')']) := by
  simp [id, ActionInstance.idOf]

/-- Texts without a comma are read back from their listing, unless the listing
is empty. -/
theorem intercalate_inj {ls ms : List (List Char)} (hls : ∀ l ∈ ls, l ≠ [] ∧ ',' ∉ l)
    (hms : ∀ m ∈ ms, m ≠ [] ∧ ',' ∉ m) (h : [','].intercalate ls = [','].intercalate ms) :
    ls = ms := by
  have hnil : ∀ ks : List (List Char), (∀ k ∈ ks, k ≠ [] ∧ ',' ∉ k) →
      [','].intercalate ks = [] → ks = [] := by
    intro ks hks hempty
    match ks with
    | [] => rfl
    | [k] =>
      rw [List.intercalate_singleton] at hempty
      exact absurd hempty (hks k List.mem_cons_self).1
    | k :: _ :: _ => simp at hempty
  by_cases hl : ls = []
  · rw [hl, List.intercalate_nil] at h
    rw [hl, hnil ms hms h.symm]
  · have hm : ms ≠ [] := by
      intro hm
      rw [hm, List.intercalate_nil] at h
      exact hl (hnil ls hls h)
    rw [← List.splitOn_intercalate ',' (fun l hl => (hls l hl).2) hl, h,
      List.splitOn_intercalate ',' (fun m hm => (hms m hm).2) hm]

/-- A text before the first bracket is read back. -/
theorem append_bracket_inj {l l' m m' : List Char} (hl : '(' ∉ l) (hl' : '(' ∉ l')
    (h : l ++ '(' :: m = l' ++ '(' :: m') : l = l' ∧ m = m' := by
  have hbefore : ∀ k n : List Char, '(' ∉ k → (k ++ '(' :: n).takeWhile (· ≠ '(') = k := by
    intro k n hk
    rw [List.takeWhile_append_of_pos fun c hc => by
      simpa using fun heq : c = '(' => hk (heq ▸ hc)]
    simp
  have heq : l = l' := by
    rw [← hbefore l m hl, h, hbefore l' m' hl']
  subst heq
  exact ⟨rfl, (List.cons.inj (List.append_cancel_left h)).2⟩

/-- Plain requests are read back from the names of their instances. -/
theorem Plain.eq_of_id {r r' : Request} (h : r.Plain) (h' : r'.Plain) (hid : r.id = r'.id) :
    r = r' := by
  have hchars := congrArg String.toList hid
  rw [toList_id, toList_id] at hchars
  obtain ⟨hname, hargs⟩ := append_bracket_inj h.1 h'.1 hchars
  have hplain : ∀ s : Request, s.Plain →
      ∀ l ∈ s.2.map String.toList, l ≠ [] ∧ ',' ∉ l := by
    intro s hs l hl
    obtain ⟨a, ha, rfl⟩ := List.mem_map.1 hl
    exact ⟨fun hnil => (hs.2 a ha).1 (String.toList_eq_nil_iff.1 hnil), (hs.2 a ha).2⟩
  have hmap := intercalate_inj (hplain r h) (hplain r' h') (List.append_cancel_right hargs)
  refine Prod.ext (String.toList_inj.1 hname) ?_
  exact List.map_injective_iff.2 (fun _ _ heq => String.toList_inj.1 heq) hmap

end Request

/-! ## What a cache owes -/

/-- What a library asks of a cache.  A look-up shows the instance that was last put in under
its name, or nothing.  What was used last is still there if there is room for an instance. -/
structure LastPut {C : Type} (get : C → String → C × Option ActionInstance)
    (insert : C → ActionInstance → C) (room : C → Prop) : Prop where
  /-- After a look-up there is nothing new to see. -/
  get_get : ∀ {c id id' i}, (get (get c id).1 id').2 = some i → (get c id').2 = some i
  /-- After an instance was put in, nothing else shows under its name, and others as before. -/
  get_insert : ∀ {c i id j}, (get (insert c i) id).2 = some j →
    if id = i.id then j = i else (get c id).2 = some j
  /-- A look-up leaves the room that there is. -/
  room_get : ∀ {c} id, room c → room (get c id).1
  /-- What was looked up is still there. -/
  get_again : ∀ {c id i}, room c → (get c id).2 = some i → (get (get c id).1 id).2 = some i
  /-- What was put in is there. -/
  insert_get : ∀ {c} i, room c → (get (insert c i) i.id).2 = some i

namespace ActionCache

/-- A look-up shows the first instance with its key. -/
theorem get_snd (c : ActionCache) (id : String) :
    (c.get id).2 = (c.entries.find? (·.1 == id)).map Prod.snd := by
  unfold get
  cases c.entries.find? (·.1 == id) <;> rfl

/-- Where a key is not asked for, entries of that key may go. -/
theorem find?_filter_ne {entries : List (String × ActionInstance)} {id id' : String}
    (h : id' ≠ id) : (entries.filter (·.1 != id)).find? (·.1 == id') =
      entries.find? (·.1 == id') := by
  rw [List.find?_filter]
  congr 1
  funext e
  by_cases he : e.1 = id'
  · simp [he, h]
  · simp [he]

/-- A look-up changes nothing that later ones show. -/
theorem get_get (c : ActionCache) (id id' : String) :
    ((c.get id).1.get id').2 = (c.get id').2 := by
  rw [get_snd, get_snd, get]
  cases hfind : c.entries.find? (·.1 == id) with
  | none => rfl
  | some e =>
    have hbeq := List.find?_some hfind
    have hkey : e.1 = id := eq_of_beq hbeq
    by_cases hid : id' = id
    · subst hid
      rw [List.find?_cons_of_pos (by simpa using hkey), hfind]
    · rw [List.find?_cons_of_neg (by simpa [hkey] using Ne.symm hid), find?_filter_ne hid]

/-- What shows after an instance was put in showed before, or is that one under its name. -/
theorem get_insert {c : ActionCache} {i j : ActionInstance} {id : String}
    (h : ((c.insert i).get id).2 = some j) :
    if id = i.id then j = i else (c.get id).2 = some j := by
  rw [get_snd, Option.map_eq_some_iff] at h
  obtain ⟨e, he, rfl⟩ := h
  have hfind := (List.take_prefix c.capacity _).find?_eq_some he
  by_cases hid : id = i.id
  · subst hid
    rw [List.find?_cons_of_pos (by simp)] at hfind
    cases hfind
    rw [if_pos rfl]
  · rw [List.find?_cons_of_neg (by simpa using Ne.symm hid), find?_filter_ne hid] at hfind
    rw [if_neg hid, get_snd, hfind]
    rfl

/-- The cache of instances does what a library asks of it. -/
theorem lastPut : LastPut get insert (0 < ·.capacity) where
  get_get := by
    intro c id id' i h
    rwa [get_get] at h
  get_insert := get_insert
  room_get := by
    intro c id h
    unfold get
    split
    · exact h
    · exact h
  get_again := by
    intro c id i _ h
    rwa [get_get]
  insert_get := by
    intro c i h
    obtain ⟨room, hroom⟩ := Nat.exists_eq_add_of_lt h
    rw [get_snd, insert, hroom, List.take_succ_cons, List.find?_cons_of_pos (by simp)]
    rfl

end ActionCache

namespace ActionLibrary

variable {V : Vocabulary}

/-! ## Histories and answers -/

/-- A call of a library. -/
inductive Call where
  /-- Add a definition. -/
  | define (d : ActionDefinition)
  /-- Ask for an instance. -/
  | request (r : Request)
deriving DecidableEq

/-- The library after a call.  A definition that is refused changes nothing. -/
def perform (l : ActionLibrary V) : Call → ActionLibrary V
  | .define d =>
    match l.define d with
    | .ok l' => l'
    | .error _ => l
  | .request r => (l.instantiate r.1 r.2).1

/-- The library after a list of calls. -/
def run (l : ActionLibrary V) (calls : List Call) : ActionLibrary V := calls.foldl perform l

/-- The definition that a call gives a name. -/
def Call.defines? (name : String) : Call → Option ActionDefinition
  | .define d => if d.name = name then some d else none
  | .request _ => none

/-- The definition of a name after a list of calls, the first that was given. -/
def definition? (calls : List Call) (name : String) : Option ActionDefinition :=
  calls.findSome? (Call.defines? name)

/-- The instance that a request gets from a definition. -/
def fulfil (V : Vocabulary) (r : Request) : Option ActionDefinition → Except Error ActionInstance
  | none => .error (.undefinedAction r.1)
  | some d => (d.instantiate V r.2).map (ActionInstance.mk r.1 r.2)

/-- The answer to a request after a list of calls. -/
def answer (V : Vocabulary) (calls : List Call) (r : Request) : Except Error ActionInstance :=
  fulfil V r (definition? calls r.1)

/-- An instance tells which request it was made for. -/
theorem fulfil_eq_ok {r : Request} {o : Option ActionDefinition} {i : ActionInstance}
    (h : fulfil V r o = .ok i) : o ≠ none ∧ (i.name, i.args) = r := by
  cases o with
  | none => cases h
  | some d =>
    rw [fulfil] at h
    cases hd : d.instantiate V r.2 with
    | error e => simp [hd, Except.map] at h
    | ok a =>
      rw [hd] at h
      cases h
      exact ⟨Option.some_ne_none d, rfl⟩

/-- So it has the name that the request asks for. -/
theorem id_of_fulfil {r : Request} {o : Option ActionDefinition} {i : ActionInstance}
    (h : fulfil V r o = .ok i) : i.id = r.id := by
  rw [Request.id, ← (fulfil_eq_ok h).2]
  rfl

/-- What was answered with an instance is answered so ever after. -/
theorem answer_append {calls : List Call} {r : Request} {i : ActionInstance}
    (h : answer V calls r = .ok i) (more : List Call) : answer V (calls ++ more) r = .ok i := by
  obtain ⟨d, hd⟩ := Option.ne_none_iff_exists'.1 (fulfil_eq_ok h).1
  rw [answer, hd] at h
  rw [answer, definition?, List.findSome?_append]
  rw [definition?] at hd
  rw [hd]
  exact h

/-! ## One call -/

/-- What the cache shows under the name of a request is the answer. -/
theorem instantiate_of_hit {l : ActionLibrary V} {r : Request} {i : ActionInstance}
    (h : (l.cache.get r.id).2 = some i) :
    l.instantiate r.1 r.2 = ({ l with cache := (l.cache.get r.id).1 }, .ok i) := by
  unfold instantiate
  rw [show l.cache.get (ActionInstance.idOf r.1 r.2) = ((l.cache.get r.id).1, some i) from
    Prod.ext rfl h]

/-- Otherwise the definition answers, and an instance that it makes is put into the cache. -/
theorem instantiate_of_miss {l : ActionLibrary V} {r : Request}
    (h : (l.cache.get r.id).2 = none) :
    l.instantiate r.1 r.2 =
      match fulfil V r (l.definitions.get? r.1) with
      | .ok i => ({ l with cache := (l.cache.get r.id).1.insert i }, .ok i)
      | .error e => ({ l with cache := (l.cache.get r.id).1 }, .error e) := by
  unfold instantiate
  rw [show l.cache.get (ActionInstance.idOf r.1 r.2) = ((l.cache.get r.id).1, none) from
    Prod.ext rfl h]
  cases l.definitions.get? r.1 with
  | none => rfl
  | some d =>
    dsimp only [fulfil]
    cases d.instantiate V r.2 <;> rfl

theorem instantiate_snd_of_miss {l : ActionLibrary V} {r : Request}
    (h : (l.cache.get r.id).2 = none) :
    (l.instantiate r.1 r.2).2 = fulfil V r (l.definitions.get? r.1) := by
  rw [instantiate_of_miss h]
  cases fulfil V r (l.definitions.get? r.1) <;> rfl

theorem definitions_instantiate (l : ActionLibrary V) (r : Request) :
    (l.instantiate r.1 r.2).1.definitions = l.definitions := by
  cases hget : (l.cache.get r.id).2 with
  | some i => rw [instantiate_of_hit hget]
  | none =>
    rw [instantiate_of_miss hget]
    cases fulfil V r (l.definitions.get? r.1) <;> rfl

/-- What shows after a request showed before, or the definition of the request made it. -/
theorem get_instantiate {l : ActionLibrary V} {r : Request} {id : String} {i : ActionInstance}
    (h : ((l.instantiate r.1 r.2).1.cache.get id).2 = some i) :
    (l.cache.get id).2 = some i ∨
      id = r.id ∧ fulfil V r (l.definitions.get? r.1) = .ok i := by
  cases hget : (l.cache.get r.id).2 with
  | some j =>
    rw [instantiate_of_hit hget] at h
    exact .inl (ActionCache.lastPut.get_get h)
  | none =>
    rw [instantiate_of_miss hget] at h
    cases hmake : fulfil V r (l.definitions.get? r.1) with
    | error e =>
      rw [hmake] at h
      exact .inl (ActionCache.lastPut.get_get h)
    | ok j =>
      rw [hmake] at h
      have hshown := ActionCache.lastPut.get_insert h
      split at hshown
      · rename_i hid
        subst hshown
        exact .inr ⟨hid.trans (id_of_fulfil hmake), rfl⟩
      · exact .inl (ActionCache.lastPut.get_get hshown)

/-- A definition is taken in if its name has none yet. -/
theorem perform_define (l : ActionLibrary V) (d : ActionDefinition) :
    l.perform (.define d) = if l.definitions.contains d.name then l
      else { l with definitions := l.definitions.insert d.name d } := by
  simp only [perform, define]
  cases l.definitions.contains d.name <;> rfl

theorem definitions_define (l : ActionLibrary V) (d : ActionDefinition) (name : String) :
    (l.perform (.define d)).definitions.get? name =
      (l.definitions.get? name).or (Call.defines? name (.define d)) := by
  rw [perform_define, SortedMap.contains, Call.defines?]
  by_cases hname : d.name = name
  · subst hname
    cases hget : l.definitions.get? d.name <;> simp [hget]
  · have hne : name ≠ d.name := Ne.symm hname
    cases l.definitions.get? d.name <;> simp [hname, hne]

theorem cache_define (l : ActionLibrary V) (d : ActionDefinition) :
    (l.perform (.define d)).cache = l.cache := by
  rw [perform_define]
  split <;> rfl

/-! ## Every history -/

/-- The library has the definitions of a history, and holds instances that answer
requests of it. -/
structure Faithful (calls : List Call) (l : ActionLibrary V) : Prop where
  /-- The definitions are those that were given first. -/
  definitions : ∀ name, l.definitions.get? name = definition? calls name
  /-- What the cache shows answers a request of the history, under the name it has. -/
  held : ∀ {id i}, (l.cache.get id).2 = some i → id = i.id ∧
    Call.request (i.name, i.args) ∈ calls ∧ answer V calls (i.name, i.args) = .ok i

/-- A call keeps a library faithful. -/
theorem Faithful.perform {calls : List Call} {l : ActionLibrary V} (h : Faithful calls l)
    (c : Call) : Faithful (calls ++ [c]) (l.perform c) := by
  have hkept : ∀ {id i}, (l.cache.get id).2 = some i → id = i.id ∧
      Call.request (i.name, i.args) ∈ calls ++ [c] ∧
      answer V (calls ++ [c]) (i.name, i.args) = .ok i := by
    intro id i hget
    obtain ⟨hid, hmem, hanswer⟩ := h.held hget
    exact ⟨hid, List.mem_append_left _ hmem, answer_append hanswer [c]⟩
  have hlast : ∀ name, definition? (calls ++ [c]) name =
      (l.definitions.get? name).or (c.defines? name) := by
    intro name
    rw [definition?, List.findSome?_append, h.definitions name]
    simp [definition?]
  cases c with
  | define d =>
    refine ⟨fun name => ?_, fun hget => ?_⟩
    · rw [hlast, definitions_define]
    · rw [cache_define] at hget
      exact hkept hget
  | request r =>
    refine ⟨fun name => ?_, fun hget => ?_⟩
    · rw [hlast]
      simp [ActionLibrary.perform, definitions_instantiate, Call.defines?]
    · rcases get_instantiate hget with hold | ⟨hid, hmade⟩
      · exact hkept hold
      · have hr := (fulfil_eq_ok hmade).2
        rw [h.definitions] at hmade
        refine ⟨hid.trans (id_of_fulfil hmade).symm, ?_, answer_append ?_ _⟩
        · simp [hr]
        · rw [hr]
          exact hmade

/-- So does a list of calls. -/
theorem Faithful.run {before : List Call} {l : ActionLibrary V} (h : Faithful before l)
    (calls : List Call) : Faithful (before ++ calls) (l.run calls) := by
  induction calls generalizing before l with
  | nil => simpa [ActionLibrary.run] using h
  | cons c calls ih => simpa [ActionLibrary.run] using ih (h.perform c)

/-- A library answers a request right, or with the answer to an earlier one that
shares its name. -/
theorem Faithful.instantiate {calls : List Call} {l : ActionLibrary V} (h : Faithful calls l)
    (r : Request) :
    (l.instantiate r.1 r.2).2 = answer V calls r ∨
      ∃ r' ≠ r, Call.request r' ∈ calls ∧ r'.id = r.id ∧
        (l.instantiate r.1 r.2).2 = answer V calls r' := by
  cases hget : (l.cache.get r.id).2 with
  | some i =>
    obtain ⟨hname, hmem, hanswer⟩ := h.held hget
    rw [instantiate_of_hit hget]
    by_cases hr : (i.name, i.args) = r
    · left
      rw [← hanswer, hr]
    · exact .inr ⟨(i.name, i.args), hr, hmem, hname.symm, hanswer.symm⟩
  | none =>
    left
    rw [instantiate_snd_of_miss hget, h.definitions, answer]

/-! ## When the cache is invisible -/

/-- The library with nothing in its cache. -/
def emptied (l : ActionLibrary V) : ActionLibrary V :=
  { l with cache := { l.cache with entries := [] } }

/-- Requests from a set are answered right in every history of requests from it. -/
def Invisible (l : ActionLibrary V) (asked : Set Request) : Prop :=
  ∀ calls : List Call, (∀ r, Call.request r ∈ calls → r ∈ asked) → ∀ r ∈ asked,
    ((l.run calls).instantiate r.1 r.2).2 = answer V calls r

/-- What a request was just answered with is the answer to every request of its
name. -/
theorem instantiate_again {l : ActionLibrary V} (hroom : 0 < l.cache.capacity) {r r' : Request}
    {i : ActionInstance} (h : (l.instantiate r.1 r.2).2 = .ok i) (hid : r'.id = r.id) :
    ((l.instantiate r.1 r.2).1.instantiate r'.1 r'.2).2 = .ok i := by
  -- In both cases the instance is the one that was used last.
  have hshown : ((l.instantiate r.1 r.2).1.cache.get r.id).2 = some i := by
    cases hget : (l.cache.get r.id).2 with
    | some j =>
      rw [instantiate_of_hit hget] at h ⊢
      cases h
      exact ActionCache.lastPut.get_again hroom hget
    | none =>
      rw [instantiate_of_miss hget] at h ⊢
      cases hmake : fulfil V r (l.definitions.get? r.1) with
      | error e => simp [hmake] at h
      | ok j =>
        rw [hmake] at h
        cases h
        rw [← id_of_fulfil hmake]
        exact ActionCache.lastPut.insert_get i (ActionCache.lastPut.room_get _ hroom)
  rw [← hid] at hshown
  rw [instantiate_of_hit hshown]

/-- A definition without formulas, which has an instance for all arguments of
their number. -/
def blank (r : Request) : ActionDefinition := ⟨r.1, r.2, { title := "" }⟩

theorem exists_instantiate_blank (V : Vocabulary) (r : Request) :
    ∃ action, (blank r).instantiate V r.2 = .ok action := by
  simp [blank, ActionDefinition.instantiate, Action.mapM, pure, Except.pure, bind, Except.bind]

theorem new_eq_ok {capacity : Nat} (h : 0 < capacity) :
    new V capacity = .ok { cache := { capacity } } := by
  simp [new, ActionCache.new, Nat.ne_of_gt h, pure, Except.pure, bind, Except.bind]

theorem faithful_new (capacity : Nat) :
    Faithful [] ({ cache := { capacity } } : ActionLibrary V) :=
  ⟨fun _ => rfl, fun hget => by cases hget⟩

/-- The cache is invisible for requests whose instances have different names, and
for no others. -/
theorem invisible_iff {capacity : Nat} (h : 0 < capacity) (asked : Set Request) :
    Invisible ({ cache := { capacity } } : ActionLibrary V) asked ↔
      Set.InjOn Request.id asked := by
  constructor
  · intro hinv r hr r' hr' hid
    by_contra hne
    -- Define the first request so that it has an instance, make it, and ask for the second.
    obtain ⟨action, haction⟩ := exists_instantiate_blank V r
    have hanswer : ∀ calls, answer V (.define (blank r) :: calls) r = .ok ⟨r.1, r.2, action⟩ := by
      intro calls
      have hdef : definition? (.define (blank r) :: calls) r.1 = some (blank r) := by
        simp [definition?, Call.defines?, blank]
      simp [answer, hdef, fulfil, haction, Except.map]
    have hfirst := hinv [.define (blank r)] (by simp) r hr
    have hsecond := hinv [.define (blank r), .request r] (by simpa using hr) r' hr'
    rw [hanswer] at hfirst
    have hroom : 0 < (run ({ cache := { capacity } } : ActionLibrary V)
        [.define (blank r)]).cache.capacity := by
      rw [run, List.foldl_cons, List.foldl_nil, cache_define]
      exact h
    have hagain := instantiate_again hroom hfirst hid.symm
    have hmade := (fulfil_eq_ok (hsecond.symm.trans hagain)).2
    exact hne hmade
  · intro hinj calls hcalls r hr
    rcases ((faithful_new capacity).run calls).instantiate r with hright | ⟨r', hne, hmem, hid, -⟩
    · exact hright
    · exact absurd (hinj (hcalls r' hmem) hr hid) hne

/-- With an empty cache a library gives every request its answer.  Otherwise it
gives that answer, or the one to an earlier request whose instance has the same
name.  So the cache is invisible for a set of requests exactly if their instances
have different names, as those of plain requests have. -/
theorem cache_invisible_iff (V : Vocabulary) {capacity : Nat} (h : 0 < capacity) :
    ∃ start : ActionLibrary V, new V capacity = .ok start ∧
      (∀ calls r, ((start.run calls).emptied.instantiate r.1 r.2).2 = answer V calls r) ∧
      (∀ calls r, ((start.run calls).instantiate r.1 r.2).2 = answer V calls r ∨
        ∃ r' ≠ r, Call.request r' ∈ calls ∧ r'.id = r.id ∧
          ((start.run calls).instantiate r.1 r.2).2 = answer V calls r') ∧
      (∀ asked : Set Request, start.Invisible asked ↔ Set.InjOn Request.id asked) ∧
      start.Invisible {r | r.Plain} := by
  have hrun : ∀ calls : List Call,
      Faithful calls (run ({ cache := { capacity } } : ActionLibrary V) calls) :=
    (faithful_new capacity).run
  refine ⟨{ cache := { capacity } }, new_eq_ok h, fun calls r => ?_,
    fun calls r => (hrun calls).instantiate r, invisible_iff h, ?_⟩
  · rw [instantiate_snd_of_miss rfl, answer, ← (hrun calls).definitions r.1]
    rfl
  · rw [invisible_iff h]
    intro r hr r' hr' hid
    exact hr.eq_of_id hr' hid

/-! ### Two copies with one name -/

/-- Variables whose names have commas. -/
def listedVariables : Vocabulary :=
  ⟨["a", "b,c", "a,b", "c"].map fun name => ⟨name, 1, true⟩⟩

/-- Copy one variable to another. -/
def copyVariable : ActionDefinition where
  name := "copy"
  params := ["to", "from"]
  body :=
    { title := "\x7bto\x7d = \x7bfrom\x7d"
      updates := [⟨.param 0, [0], .atom (.param 1) [0]⟩] }

/-- Define a copy and a statement without arguments, and make one of each. -/
def copyCalls : List Call :=
  [.define copyVariable, .request ("copy", ["a", "b,c"]),
   .define (blank ("nop", [])), .request ("nop", [])]

theorem cache_invisible_listedVariables :
    0 < 1 ∧ ∃ start : ActionLibrary listedVariables, new listedVariables 1 = .ok start ∧
      start.Invisible {("copy", ["a", "c"]), ("copy", ["c", "a"])} ∧
      ¬ start.Invisible {("copy", ["a", "b,c"]), ("copy", ["a,b", "c"])} := by
  obtain ⟨start, hnew, -, -, hiff, -⟩ := cache_invisible_iff listedVariables (by decide : 0 < 1)
  refine ⟨by decide, start, hnew, (hiff _).2 ?_, fun hinv => ?_⟩
  · have hne : Request.id ("copy", ["a", "c"]) ≠ Request.id ("copy", ["c", "a"]) := by decide
    intro r hr r' hr' hid
    rcases hr with rfl | rfl <;> rcases hr' with rfl | rfl
    · rfl
    · exact absurd hid hne
    · exact absurd hid.symm hne
    · rfl
  · have hid : Request.id ("copy", ["a", "b,c"]) = Request.id ("copy", ["a,b", "c"]) := by decide
    have heq := (hiff _).1 hinv (Set.mem_insert _ _) (Set.mem_insert_of_mem _ rfl) hid
    exact absurd heq (by decide)

/-- After a copy from `b,c` to `a` was made, a copy from `c` to `a,b` comes out as
that one.  And an argument too many, if it is empty, goes unnoticed. -/
theorem copy_answers_other :
    ∃ start : ActionLibrary listedVariables, new listedVariables 500 = .ok start ∧
      ((start.run copyCalls).instantiate "copy" ["a,b", "c"]).2 =
        .ok ⟨"copy", ["a", "b,c"], { title := "a = b,c", updates := [⟨6, [0], .atom 7 [0]⟩] }⟩ ∧
      answer listedVariables copyCalls ("copy", ["a,b", "c"]) =
        .ok ⟨"copy", ["a,b", "c"], { title := "a,b = c", updates := [⟨8, [0], .atom 9 [0]⟩] }⟩ ∧
      ((start.run copyCalls).instantiate "nop" [""]).2 = .ok ⟨"nop", [], { title := "" }⟩ ∧
      answer listedVariables copyCalls ("nop", [""]) = .error (.argumentCount "nop" 0 1) := by
  exact ⟨_, rfl, rfl, rfl, rfl, rfl⟩

end ActionLibrary

end ShapeAnalysis
