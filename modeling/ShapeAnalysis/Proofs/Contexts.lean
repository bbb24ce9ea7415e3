import Mathlib.Data.List.Nodup
import ShapeAnalysis.Flow.Context
import ShapeAnalysis.Proofs.Order

/-!
# Recorded calls

A calling context is read through `refined?`, and recording a call changes what is read
for that call only (`refined?_update`).  What is stored for a call begins with the first
list of facts that came with it, taken as it is.  From later lists only the facts that are
missing are appended.  So a repeat in the first list stays, and it is the only way for a
repeat to come in (`refined_nodup_iff`).

A table of calling contexts holds *records*: that a call led to an entry fact of a callee,
or also that it was refined to some fact there.  A report brings records, one or more for
each of its entry facts, and the table holds a record exactly if some report brought it.
The flag that a report is answered with says whether one of its records was missing
before (`records_exact`).
-/

namespace ShapeAnalysis

namespace CallingContext

/-! ## Facts are appended -/

section Facts

variable {old new : List Fact}

theorem addFacts_cons (old : List Fact) (f : Fact) (new : List Fact) :
    addFacts old (f :: new) = addFacts (if f ∈ old then old else old ++ [f]) new := rfl

theorem mem_addFacts {f : Fact} : f ∈ addFacts old new ↔ f ∈ old ∨ f ∈ new := by
  induction new generalizing old with
  | nil => simp [addFacts]
  | cons g new ih =>
    have hstep : f ∈ (if g ∈ old then old else old ++ [g]) ↔ f ∈ old ∨ f = g := by
      split
      · rename_i hg
        exact ⟨.inl, fun h => h.elim id fun hfg => hfg ▸ hg⟩
      · simp
    rw [addFacts_cons, ih, hstep, List.mem_cons, or_assoc]

theorem prefix_addFacts (old new : List Fact) : old <+: addFacts old new := by
  induction new generalizing old with
  | nil => exact List.prefix_refl old
  | cons f new ih =>
    have hstep : old <+: (if f ∈ old then old else old ++ [f]) := by
      split
      · exact List.prefix_refl old
      · exact List.prefix_append old [f]
    exact hstep.trans (ih _)

/-- No repeat comes in. -/
theorem nodup_addFacts_iff : (addFacts old new).Nodup ↔ old.Nodup := by
  induction new generalizing old with
  | nil => rfl
  | cons f new ih =>
    rw [addFacts_cons, ih]
    split
    · rfl
    · rename_i hf
      rw [List.nodup_append_comm]
      simp [hf]

theorem addFacts_eq_self_iff : addFacts old new = old ↔ ∀ f ∈ new, f ∈ old := by
  constructor
  · intro h f hf
    rw [← h, mem_addFacts]
    exact .inr hf
  · intro h
    induction new with
    | nil => rfl
    | cons f new ih =>
      obtain ⟨hf, hnew⟩ := List.forall_mem_cons.1 h
      rw [addFacts_cons, if_pos hf]
      exact ih hnew

end Facts

/-! ## One call is recorded -/

/-- What is stored for a call after a list of facts comes with it. -/
def stored (old : Option (List Fact)) (new : List Fact) : List Fact :=
  match old with
  | none => new
  | some fs => addFacts fs new

theorem refined?_cons (c d : CallFact) (fs : List Fact) (calls : List (CallFact × List Fact)) :
    refined? ⟨(d, fs) :: calls⟩ c = if d = c then some fs else refined? ⟨calls⟩ c := by
  by_cases h : d = c
  · simp [refined?, h]
  · simp [refined?, h]

theorem refined?_record (c d : CallFact) (new : List Fact) (calls : List (CallFact × List Fact)) :
    refined? ⟨(record c new calls).1⟩ d =
      if d = c then some (stored (refined? ⟨calls⟩ c) new) else refined? ⟨calls⟩ d := by
  induction calls with
  | nil =>
    show refined? ⟨[(c, new)]⟩ d = _
    rw [refined?_cons]
    simp only [eq_comm (a := c)]
    rfl
  | cons e rest ih =>
    obtain ⟨e, fs⟩ := e
    by_cases he : e = c
    · subst he
      have hrecord : (record e new ((e, fs) :: rest)).1 = (e, addFacts fs new) :: rest := by
        simp [record]
      rw [hrecord, refined?_cons, refined?_cons, refined?_cons, if_pos rfl]
      by_cases hd : e = d
      · rw [if_pos hd, if_pos hd.symm]
        rfl
      · rw [if_neg hd, if_neg (Ne.symm hd), if_neg hd]
    · have hrecord : (record c new ((e, fs) :: rest)).1 = (e, fs) :: (record c new rest).1 := by
        simp [record, he]
      rw [hrecord, refined?_cons, ih, refined?_cons, refined?_cons, if_neg he]
      by_cases hd : e = d
      · rw [if_pos hd, if_pos hd, if_neg (hd ▸ he)]
      · rw [if_neg hd, if_neg hd]

/-- The answer says whether what is stored for the call has changed. -/
theorem record_snd_iff (c : CallFact) (new : List Fact) (calls : List (CallFact × List Fact)) :
    (record c new calls).2 = true ↔
      some (stored (refined? ⟨calls⟩ c) new) ≠ refined? ⟨calls⟩ c := by
  induction calls with
  | nil => simp [record, refined?]
  | cons e rest ih =>
    obtain ⟨e, fs⟩ := e
    rw [refined?_cons]
    by_cases he : e = c
    · simp [record, he, stored]
    · rw [if_neg he, ← ih]
      simp [record, he]

variable {ctx : CallingContext} {c : CallFact} {new : List Fact}

theorem refined?_update (ctx : CallingContext) (c : CallFact) (new : List Fact) (d : CallFact) :
    (ctx.update c new).1.refined? d =
      if d = c then some (stored (ctx.refined? c) new) else ctx.refined? d :=
  refined?_record c d new ctx.calls

theorem mem_calls_iff : c ∈ ctx.calls.map Prod.fst ↔ ∃ fs, ctx.refined? c = some fs := by
  rw [← Option.isSome_iff_exists, refined?, Option.isSome_map, List.find?_isSome, List.mem_map]
  simp

/-- The calls of a context, oldest first, with the new one if it is new. -/
theorem calls_update (ctx : CallingContext) (c : CallFact) (new : List Fact) :
    (ctx.update c new).1.calls.map Prod.fst =
      if c ∈ ctx.calls.map Prod.fst then ctx.calls.map Prod.fst
      else ctx.calls.map Prod.fst ++ [c] := by
  show (record c new ctx.calls).1.map Prod.fst = _
  induction ctx.calls with
  | nil => rfl
  | cons e rest ih =>
    obtain ⟨e, fs⟩ := e
    by_cases he : e = c
    · simp [record, he]
    · have hmem : c ∈ ((e, fs) :: rest).map Prod.fst ↔ c ∈ rest.map Prod.fst := by
        simp [Ne.symm he]
      have hrecord : (record c new ((e, fs) :: rest)).1 = (e, fs) :: (record c new rest).1 := by
        simp [record, he]
      rw [hrecord, List.map_cons, ih]
      simp only [hmem]
      split
      · rfl
      · rfl

/-! ## Several calls are recorded -/

/-- The context after a list of calls, each with the facts that came with it. -/
def updateAll (ctx : CallingContext) (updates : List (CallFact × List Fact)) : CallingContext :=
  updates.foldl (fun ctx u => (ctx.update u.1 u.2).1) ctx

/-- The list of facts that came with the first update of a call. -/
def firstList? (updates : List (CallFact × List Fact)) (c : CallFact) : Option (List Fact) :=
  (updates.find? (·.1 = c)).map Prod.snd

theorem firstList?_cons (u : CallFact × List Fact) (updates : List (CallFact × List Fact))
    (c : CallFact) :
    firstList? (u :: updates) c = if u.1 = c then some u.2 else firstList? updates c :=
  refined?_cons c u.1 u.2 updates

/-- A call that is there gets no second entry. -/
theorem nodup_calls_updateAll {ctx : CallingContext} (h : (ctx.calls.map Prod.fst).Nodup)
    (updates : List (CallFact × List Fact)) :
    ((ctx.updateAll updates).calls.map Prod.fst).Nodup := by
  induction updates generalizing ctx with
  | nil => exact h
  | cons u updates ih =>
    have hstep : ((ctx.update u.1 u.2).1.calls.map Prod.fst).Nodup := by
      rw [calls_update]
      split
      · exact h
      · rename_i hnew
        rw [List.nodup_append_comm]
        simpa using ⟨by simpa using hnew, h⟩
    exact ih hstep

/-- What is stored for a call begins with its first list, and has a repeat only if that
list has one. -/
theorem firstList_of_refined {ctx : CallingContext} {updates : List (CallFact × List Fact)}
    {c : CallFact} {fs : List Fact} (h : (ctx.updateAll updates).refined? c = some fs) :
    ∃ first, (ctx.refined? c).or (firstList? updates c) = some first ∧ first <+: fs ∧
      (fs.Nodup ↔ first.Nodup) := by
  induction updates generalizing ctx with
  | nil =>
    have hfs : ctx.refined? c = some fs := h
    exact ⟨fs, by rw [hfs, Option.some_or], List.prefix_refl fs, Iff.rfl⟩
  | cons u updates ih =>
    obtain ⟨first, hfirst, hprefix, hnodup⟩ := ih h
    rw [refined?_update] at hfirst
    rw [firstList?_cons]
    by_cases hu : c = u.1
    · -- The update is for the call, so there is a list for it now.
      rw [if_pos hu, ← hu, Option.some_or] at hfirst
      rw [if_pos hu.symm]
      cases hold : ctx.refined? c with
      | none =>
        rw [hold] at hfirst
        exact ⟨first, hfirst, hprefix, hnodup⟩
      | some old =>
        rw [hold] at hfirst
        cases hfirst
        exact ⟨old, rfl, (prefix_addFacts old u.2).trans hprefix,
          hnodup.trans nodup_addFacts_iff⟩
    · rw [if_neg hu] at hfirst
      rw [if_neg (Ne.symm hu)]
      exact ⟨first, hfirst, hprefix, hnodup⟩

/-- A recorded call is there once, and its refined facts begin with the first list that
came with it.  No fact is there twice exactly if that list has no fact twice. -/
theorem refined_nodup_iff (updates : List (CallFact × List Fact)) :
    ((({} : CallingContext).updateAll updates).calls.map Prod.fst).Nodup ∧
      ∀ c fs, (({} : CallingContext).updateAll updates).refined? c = some fs →
        ∃ first, firstList? updates c = some first ∧ first <+: fs ∧
          (fs.Nodup ↔ first.Nodup) := by
  have hempty : (({} : CallingContext).calls.map Prod.fst).Nodup := List.nodup_nil
  constructor
  · exact nodup_calls_updateAll hempty updates
  · intro c fs h
    exact firstList_of_refined h

/-- A call from the first node of method 1. -/
def sampleCall : CallFact := ⟨⟨1, 0⟩, ⟨1, 0, 1⟩⟩

theorem refined_nodup_twoUpdates :
    (({} : CallingContext).updateAll [(sampleCall, [⟨1, 0, 2⟩]),
        (sampleCall, [⟨1, 0, 2⟩, ⟨1, 0, 3⟩, ⟨1, 0, 3⟩])]).refined? sampleCall =
      some [⟨1, 0, 2⟩, ⟨1, 0, 3⟩] ∧
    ([⟨1, 0, 2⟩, ⟨1, 0, 3⟩] : List Fact).Nodup := by
  have hrefined : (({} : CallingContext).updateAll [(sampleCall, [⟨1, 0, 2⟩]),
      (sampleCall, [⟨1, 0, 2⟩, ⟨1, 0, 3⟩, ⟨1, 0, 3⟩])]).refined? sampleCall =
      some [⟨1, 0, 2⟩, ⟨1, 0, 3⟩] := by decide
  obtain ⟨first, hfirst, -, hnodup⟩ := (refined_nodup_iff _).2 _ _ hrefined
  cases hfirst
  exact ⟨hrefined, hnodup.2 (List.nodup_singleton _)⟩

/-- A fact that the first list of a call has twice is stored twice. -/
theorem refined_repeats_firstList :
    (({} : CallingContext).updateAll [(sampleCall, [⟨1, 0, 2⟩, ⟨1, 0, 2⟩])]).refined? sampleCall =
      some [⟨1, 0, 2⟩, ⟨1, 0, 2⟩] ∧
    ¬ ([⟨1, 0, 2⟩, ⟨1, 0, 2⟩] : List Fact).Nodup := by
  decide

/-! ## Records of a context -/

/-- A call is recorded in a context, and so is a fact that it was refined to if one is
given. -/
def Lists (ctx : CallingContext) (c : CallFact) (o : Option Fact) : Prop :=
  ∃ fs, ctx.refined? c = some fs ∧ ∀ f ∈ o, f ∈ fs

theorem not_lists_empty (c : CallFact) (o : Option Fact) : ¬ ({} : CallingContext).Lists c o := by
  rintro ⟨fs, hfs, -⟩
  cases hfs

theorem lists_update {d : CallFact} {o : Option Fact} :
    (ctx.update c new).1.Lists d o ↔ ctx.Lists d o ∨ d = c ∧ ∀ f ∈ o, f ∈ new := by
  unfold Lists
  rw [refined?_update]
  by_cases hd : d = c
  · subst hd
    rw [if_pos rfl]
    cases ctx.refined? d with
    | none => simp [stored]
    | some old =>
      cases o with
      | none => simp
      | some f => simp [stored, mem_addFacts]
  · simp [hd]

/-- The answer says whether something that the update brings was missing. -/
theorem update_snd_iff :
    (ctx.update c new).2 = true ↔ ∃ o, (∀ f ∈ o, f ∈ new) ∧ ¬ ctx.Lists c o := by
  have hchanged : (ctx.update c new).2 = true ↔
      some (stored (ctx.refined? c) new) ≠ ctx.refined? c := record_snd_iff c new ctx.calls
  rw [hchanged]
  unfold Lists
  cases ctx.refined? c with
  | none => exact ⟨fun _ => ⟨none, by simp, by simp⟩, fun _ => Option.some_ne_none _⟩
  | some old =>
    rw [Ne, Option.some.injEq, stored, addFacts_eq_self_iff]
    push Not
    constructor
    · rintro ⟨f, hf, hold⟩
      exact ⟨some f, by simpa using hf, by simpa using hold⟩
    · rintro ⟨o, hnew, hmissing⟩
      obtain ⟨f, hf, hold⟩ := hmissing old rfl
      exact ⟨f, hnew f hf, hold⟩

end CallingContext

namespace ContextTable

open CallingContext (Lists)

/-! ## The contexts of one callee -/

section Entries

variable {m : SortedMap Fact CallingContext} {c d : CallFact} {refined : List Fact}
  {acc : SortedMap Fact CallingContext × Bool} {entry e : Fact} {o : Option Fact}

/-- A call is recorded for an entry fact. -/
def ListsAt (m : SortedMap Fact CallingContext) (entry : Fact) (c : CallFact)
    (o : Option Fact) : Prop :=
  ∃ ctx, m.get? entry = some ctx ∧ ctx.Lists c o

/-- An entry fact without a context counts as one with the empty context. -/
theorem listsAt_iff_getD : ListsAt m entry c o ↔ ((m.get? entry).getD {}).Lists c o := by
  unfold ListsAt
  cases m.get? entry with
  | none => simp [CallingContext.not_lists_empty]
  | some ctx => simp

theorem fst_addEntry : (addEntry c refined acc entry).1 =
    acc.1.insert entry (((acc.1.get? entry).getD {}).update c refined).1 := rfl

theorem snd_addEntry : (addEntry c refined acc entry).2 =
    (acc.2 || (((acc.1.get? entry).getD {}).update c refined).2) := rfl

theorem listsAt_addEntry :
    ListsAt (addEntry c refined acc entry).1 e d o ↔
      ListsAt acc.1 e d o ∨ e = entry ∧ d = c ∧ ∀ f ∈ o, f ∈ refined := by
  rw [listsAt_iff_getD, listsAt_iff_getD, fst_addEntry, SortedMap.get?_insert]
  by_cases he : e = entry
  · subst he
    rw [if_pos rfl, Option.getD_some, CallingContext.lists_update]
    simp
  · simp [he]

theorem snd_addEntry_iff :
    (addEntry c refined acc entry).2 = true ↔
      acc.2 = true ∨ ∃ o, (∀ f ∈ o, f ∈ refined) ∧ ¬ ListsAt acc.1 entry c o := by
  simp only [listsAt_iff_getD]
  rw [snd_addEntry, Bool.or_eq_true, CallingContext.update_snd_iff]

variable (entries : List Fact)

theorem listsAt_addEntries :
    ListsAt (entries.foldl (addEntry c refined) acc).1 e d o ↔
      ListsAt acc.1 e d o ∨ e ∈ entries ∧ d = c ∧ ∀ f ∈ o, f ∈ refined := by
  induction entries generalizing acc with
  | nil => simp
  | cons entry entries ih =>
    rw [List.foldl_cons, ih, listsAt_addEntry, List.mem_cons, or_assoc, or_and_right]

/-- The flag is raised if something was missing for an entry fact at the start. -/
theorem snd_addEntries_iff :
    (entries.foldl (addEntry c refined) acc).2 = true ↔
      acc.2 = true ∨ ∃ e ∈ entries, ∃ o, (∀ f ∈ o, f ∈ refined) ∧ ¬ ListsAt acc.1 e c o := by
  induction entries generalizing acc with
  | nil => simp
  | cons entry entries ih =>
    rw [List.foldl_cons, ih, snd_addEntry_iff, or_assoc, List.exists_mem_cons_iff]
    constructor
    · rintro (hflag | hfirst | ⟨e, he, o, ho, hmissing⟩)
      · exact .inl hflag
      · exact .inr (.inl hfirst)
      · exact .inr (.inr ⟨e, he, o, ho, fun hold => hmissing (listsAt_addEntry.2 (.inl hold))⟩)
    · rintro (hflag | hfirst | ⟨e, he, o, ho, hmissing⟩)
      · exact .inl hflag
      · exact .inr (.inl hfirst)
      · -- A further occurrence of the first entry fact finds nothing missing.
        by_cases hee : e = entry
        · subst hee
          exact .inr (.inl ⟨o, ho, hmissing⟩)
        · refine .inr (.inr ⟨e, he, o, ho, fun hnow => ?_⟩)
          exact (listsAt_addEntry.1 hnow).elim hmissing fun h => hee h.1

end Entries

/-! ## Records and reports -/

/-- What a table may hold: that a call led to an entry fact of a callee, or also that it
was refined to a fact there. -/
structure Record where
  /-- The method called. -/
  callee : MethodId
  /-- The entry fact. -/
  entry : Fact
  /-- The call with the fact at its call site. -/
  call : CallFact
  /-- The refined fact, if the record is about one. -/
  fact : Option Fact

/-- A table holds a record. -/
def Holds (t : ContextTable) (x : Record) : Prop :=
  ∃ ctx, t.get? x.callee x.entry = some ctx ∧ ctx.Lists x.call x.fact

/-- The other table holds the records of a table, and more. -/
def GrowsTo (t t' : ContextTable) : Prop :=
  (∀ x, t.Holds x → t'.Holds x) ∧ ∃ x, t'.Holds x ∧ ¬ t.Holds x

/-- What a table is told about a call. -/
structure Report where
  /-- The method called. -/
  callee : MethodId
  /-- The entry facts that the call led to. -/
  entries : List Fact
  /-- The call with the fact at its call site. -/
  call : CallFact
  /-- The facts that it was refined to. -/
  refined : List Fact

/-- A report brings a record. -/
def Report.Brings (r : Report) (x : Record) : Prop :=
  x.callee = r.callee ∧ x.entry ∈ r.entries ∧ x.call = r.call ∧ ∀ f ∈ x.fact, f ∈ r.refined

/-- The table after a report, and whether any context grew. -/
def addReport (t : ContextTable) (r : Report) : ContextTable × Bool :=
  t.add r.callee r.entries r.call r.refined

section Report

variable {t : ContextTable} {r : Report} {x : Record}

theorem holds_iff_listsAt :
    t.Holds x ↔ ListsAt ((t.table.get? x.callee).getD ∅) x.entry x.call x.fact := by
  unfold Holds ListsAt get?
  cases t.table.get? x.callee with
  | none => simp
  | some m => rfl

theorem holds_addTarget {callee : MethodId} : (t.addTarget callee).Holds x ↔ t.Holds x := by
  rw [holds_iff_listsAt, holds_iff_listsAt, addTarget, SortedMap.get?_alter]
  by_cases h : x.callee = callee
  · rw [if_pos h, h]
    rfl
  · rw [if_neg h]

theorem holds_addReport : (t.addReport r).1.Holds x ↔ t.Holds x ∨ r.Brings x := by
  have htable : (t.addReport r).1.table = t.table.insert r.callee
      (r.entries.foldl (addEntry r.call r.refined) ((t.table.get? r.callee).getD ∅, false)).1 := rfl
  rw [holds_iff_listsAt, holds_iff_listsAt, htable, SortedMap.get?_insert]
  unfold Report.Brings
  by_cases h : x.callee = r.callee
  · rw [if_pos h, Option.getD_some, listsAt_addEntries, h]
    simp
  · simp [h]

/-- The answer says whether one of the records was missing. -/
theorem snd_addReport_iff : (t.addReport r).2 = true ↔ ∃ x, r.Brings x ∧ ¬ t.Holds x := by
  have hflag : (t.addReport r).2 =
      (r.entries.foldl (addEntry r.call r.refined) ((t.table.get? r.callee).getD ∅, false)).2 := rfl
  simp only [holds_iff_listsAt]
  rw [hflag, snd_addEntries_iff]
  constructor
  · rintro (hfalse | ⟨e, he, o, ho, hmissing⟩)
    · cases hfalse
    · exact ⟨⟨r.callee, e, r.call, o⟩, ⟨rfl, he, rfl, ho⟩, hmissing⟩
  · rintro ⟨⟨callee, e, c, o⟩, ⟨hcallee, he, hc, ho⟩, hmissing⟩
    dsimp only at hcallee hc
    subst hcallee hc
    exact .inr ⟨e, he, o, ho, hmissing⟩

/-- A report grows the table exactly if it is answered with `true`. -/
theorem snd_addReport_iff_growsTo : (t.addReport r).2 = true ↔ t.GrowsTo (t.addReport r).1 := by
  rw [snd_addReport_iff]
  constructor
  · rintro ⟨x, hx, hmissing⟩
    exact ⟨fun y hy => holds_addReport.2 (.inl hy), x, holds_addReport.2 (.inr hx), hmissing⟩
  · rintro ⟨-, x, hx, hmissing⟩
    exact ⟨x, (holds_addReport.1 hx).resolve_left hmissing, hmissing⟩

theorem mem_contextsOf {callee : MethodId} {entry : Fact} {ctx : CallingContext} :
    (entry, ctx) ∈ t.contextsOf callee ↔ t.get? callee entry = some ctx := by
  unfold contextsOf get?
  cases t.table.get? callee with
  | none => simp
  | some m => exact SortedMap.mem_entries

theorem mem_callers {callee caller : MethodId} : caller ∈ t.callers callee ↔
    ∃ x, t.Holds x ∧ x.callee = callee ∧ x.call.point.caller = caller := by
  unfold callers
  rw [SortedSet.mem_toList, SortedSet.mem_ofList, List.mem_flatMap]
  constructor
  · rintro ⟨⟨entry, ctx⟩, hctx, hcaller⟩
    obtain ⟨e, he, rfl⟩ := List.mem_map.1 hcaller
    obtain ⟨fs, hfs⟩ := CallingContext.mem_calls_iff.1 (List.mem_map_of_mem he)
    exact ⟨⟨callee, entry, e.1, none⟩, ⟨ctx, mem_contextsOf.1 hctx, fs, hfs, by simp⟩, rfl, rfl⟩
  · rintro ⟨x, ⟨ctx, hctx, fs, hfs, -⟩, rfl, rfl⟩
    obtain ⟨e, he, hcall⟩ := List.mem_map.1 (CallingContext.mem_calls_iff.2 ⟨fs, hfs⟩)
    exact ⟨(x.entry, ctx), mem_contextsOf.2 hctx,
      List.mem_map.2 ⟨e, he, congrArg (·.point.caller) hcall⟩⟩

end Report

/-! ## Runs -/

/-- A call that may change a table. -/
inductive Call where
  | target (callee : MethodId)
  | report (r : Report)

/-- The table after a call. -/
def perform (t : ContextTable) : Call → ContextTable
  | .target callee => t.addTarget callee
  | .report r => (t.addReport r).1

/-- The table after a list of calls. -/
def run (t : ContextTable) (calls : List Call) : ContextTable := calls.foldl perform t

/-- The reports among a list of calls. -/
def reports (calls : List Call) : List Report :=
  calls.filterMap fun
    | .target _ => none
    | .report r => some r

theorem holds_run {t : ContextTable} (calls : List Call) {x : Record} :
    (t.run calls).Holds x ↔ t.Holds x ∨ ∃ r ∈ reports calls, r.Brings x := by
  induction calls generalizing t with
  | nil => simp [run, reports]
  | cons call calls ih =>
    show ((t.perform call).run calls).Holds x ↔ _
    rw [ih]
    cases call with
    | target callee => exact or_congr_left holds_addTarget
    | report r =>
      have hreports : reports (.report r :: calls) = r :: reports calls := rfl
      rw [perform, holds_addReport, hreports, List.exists_mem_cons_iff, or_assoc]

theorem not_holds_empty (x : Record) : ¬ ({} : ContextTable).Holds x := by
  rintro ⟨ctx, hctx, -⟩
  cases hctx

/-- A table holds the records that were reported and no others.  The callers of a method
are those of its records, the answer to a report says whether the records have become
more, and the order of the reports does not matter. -/
theorem records_exact (calls : List Call) :
    (∀ x, (({} : ContextTable).run calls).Holds x ↔ ∃ r ∈ reports calls, r.Brings x) ∧
      (∀ callee, ((({} : ContextTable).run calls).callers callee).Nodup ∧
        ∀ caller, caller ∈ (({} : ContextTable).run calls).callers callee ↔
          ∃ x, (({} : ContextTable).run calls).Holds x ∧ x.callee = callee ∧
            x.call.point.caller = caller) ∧
      (∀ r, ((({} : ContextTable).run calls).addReport r).2 = true ↔
        (({} : ContextTable).run calls).GrowsTo
          ((({} : ContextTable).run calls).addReport r).1) ∧
      ∀ calls', (reports calls').Perm (reports calls) → ∀ x,
        (({} : ContextTable).run calls').Holds x ↔ (({} : ContextTable).run calls).Holds x := by
  have hholds : ∀ calls x,
      (({} : ContextTable).run calls).Holds x ↔ ∃ r ∈ reports calls, r.Brings x := by
    intro calls x
    rw [holds_run, or_iff_right (not_holds_empty x)]
  refine ⟨hholds calls, fun callee => ⟨SortedSet.nodup _, fun caller => mem_callers⟩,
    fun r => snd_addReport_iff_growsTo, fun calls' hperm x => ?_⟩
  rw [hholds, hholds]
  simp only [hperm.mem_iff]

/-- Two calls of method 2 that lead to the same entry fact. -/
def sampleReports : List Report :=
  [⟨2, [⟨2, 0, 1⟩, ⟨2, 0, 2⟩], ⟨⟨1, 0⟩, ⟨1, 0, 1⟩⟩, [⟨1, 0, 2⟩]⟩,
    ⟨2, [⟨2, 0, 1⟩], ⟨⟨3, 4⟩, ⟨3, 4, 1⟩⟩, [⟨3, 4, 1⟩, ⟨3, 4, 2⟩]⟩]

theorem records_exact_sampleReports :
    (reports (sampleReports.reverse.map .report)).Perm (reports (sampleReports.map .report)) ∧
      (({} : ContextTable).run (sampleReports.reverse.map .report)).Holds
        ⟨2, ⟨2, 0, 2⟩, ⟨⟨1, 0⟩, ⟨1, 0, 1⟩⟩, some ⟨1, 0, 2⟩⟩ := by
  have hperm : (reports (sampleReports.reverse.map .report)).Perm
      (reports (sampleReports.map .report)) := List.reverse_perm sampleReports
  obtain ⟨hholds, -, -, horder⟩ := records_exact (sampleReports.map .report)
  refine ⟨hperm, (horder _ hperm _).2 ((hholds _).2 ?_)⟩
  exact ⟨sampleReports[0], List.getElem_mem _, rfl, by decide, rfl, by decide⟩

end ContextTable

end ShapeAnalysis
