import ShapeAnalysis.Proofs.YamlLayout
import ShapeAnalysis.Yaml.Document

/-!
# Documents of settings and groups

A document of *rows* has, at its margin, settings and groups of settings.  A setting is a
key with a word.  A group is a key with settings indented below it.  Reading such a
document gives a mapping with one entry per row in the order of the rows (`parse?_rows`).
-/

namespace ShapeAnalysis.Yaml

/-- A row of a document. -/
inductive Row where
  /-- A key with a word. -/
  | setting (key word : List Char)
  /-- A key with settings below it. -/
  | group (key : List Char) (settings : List (List Char × List Char))

/-- The line of a setting inside a group. -/
def innerLine (s : List Char × List Char) : Line := ⟨2, s.1, some s.2⟩

/-- The tokens of a setting. -/
def settingTokens (s : List Char × List Char) : List Token :=
  [.key, .scalar .plain s.1, .value, .scalar .plain s.2]

/-- The entry of a setting. -/
def settingEntry (s : List Char × List Char) : Node × Node :=
  (.scalar {} .plain s.1, .scalar {} .plain s.2)

namespace Row

/-- The lines of a row. -/
def lines : Row → List Line
  | setting key word => [⟨0, key, some word⟩]
  | group key settings => ⟨0, key, none⟩ :: settings.map innerLine

/-- The key of a row. -/
def key : Row → List Char
  | setting key _ => key
  | group key _ => key

/-- The tokens behind the colon of a row. -/
def valueTokens : Row → List Token
  | setting _ word => [.scalar .plain word]
  | group _ settings => .blockMapping :: (settings.flatMap settingTokens ++ [.blockEnd])

/-- The tokens of a row. -/
def tokens (r : Row) : List Token := .key :: .scalar .plain r.key :: .value :: r.valueTokens

/-- The node of a row. -/
def node : Row → Node
  | setting _ word => .scalar {} .plain word
  | group _ settings => .mapping {} (settings.map settingEntry)

/-- The entry of a row. -/
def entry (r : Row) : Node × Node := (.scalar {} .plain r.key, r.node)

/-- A row that can be read.  A group has a setting. -/
def Readable : Row → Prop
  | setting key word => IsKey key ∧ IsWord word
  | group key settings =>
    IsKey key ∧ settings ≠ [] ∧ ∀ s ∈ settings, IsKey s.1 ∧ IsWord s.2

end Row

/-! ## Lines -/

theorem Fits.append {ns ms : List Line} (hns : Fits ns) (hms : Fits ms)
    (hmargin : ∀ m ∈ ms.head?, m.indent = 0) : Fits (ns ++ ms) := by
  induction ns with
  | nil => exact hms
  | cons n ns ih =>
    refine ⟨hns.1, fun hword m hm => ?_, ih hns.2.2⟩
    cases ns with
    | nil => exact hmargin m hm ▸ Nat.zero_le _
    | cons n' ns => exact hns.2.1 hword m hm

theorem fits_innerLines {ss : List (List Char × List Char)}
    (hss : ∀ s ∈ ss, IsKey s.1 ∧ IsWord s.2) : Fits (ss.map innerLine) := by
  induction ss with
  | nil => trivial
  | cons s ss ih =>
    obtain ⟨hkey, hword⟩ := hss s List.mem_cons_self
    refine ⟨⟨hkey, by rintro w ⟨⟩; exact hword⟩, fun _ m hm => ?_,
      ih fun s hs => hss s (List.mem_cons_of_mem _ hs)⟩
    rw [List.head?_map] at hm
    obtain ⟨s', -, rfl⟩ := Option.map_eq_some_iff.mp hm
    exact Nat.le_refl 2

theorem fits_lines {r : Row} (hr : r.Readable) : Fits r.lines := by
  cases r with
  | setting key word =>
    exact ⟨⟨hr.1, by rintro w ⟨⟩; exact hr.2⟩, fun _ m hm => (nomatch hm), trivial⟩
  | group key settings =>
    exact ⟨⟨hr.1, fun w hw => (nomatch hw)⟩, fun h => (nomatch h), fits_innerLines hr.2.2⟩

theorem indent_of_mem_head?_lines (rows : List Row) :
    ∀ m ∈ (rows.flatMap Row.lines).head?, m.indent = 0 := by
  intro m hm
  cases rows with
  | nil => cases hm
  | cons r rows => cases r <;> cases hm <;> rfl

theorem fits_rows {rows : List Row} (hrows : ∀ r ∈ rows, r.Readable) :
    Fits (rows.flatMap Row.lines) := by
  induction rows with
  | nil => trivial
  | cons r rows ih =>
    rw [List.flatMap_cons]
    exact (fits_lines (hrows r List.mem_cons_self)).append
      (ih fun r hr => hrows r (List.mem_cons_of_mem _ hr)) (indent_of_mem_head?_lines rows)

/-! ## Tokens -/

theorem lineTokens_inner (ss : List (List Char × List Char)) (ns : List Line) :
    lineTokens [2, 0] (ss.map innerLine ++ ns) =
      ss.flatMap settingTokens ++ lineTokens [2, 0] ns := by
  induction ss with
  | nil => rfl
  | cons s ss ih =>
    rw [List.map_cons, List.cons_append, lineTokens, List.flatMap_cons, List.append_assoc, ← ih]
    rfl

/-- At the margin a group ends. -/
theorem lineTokens_margin {ns : List Line} (hns : ∀ m ∈ ns.head?, m.indent = 0) :
    lineTokens [2, 0] ns = .blockEnd :: lineTokens [0] ns := by
  cases ns with
  | nil => rfl
  | cons n ns =>
    obtain ⟨indent, key, word⟩ := n
    obtain rfl : indent = 0 := hns _ rfl
    rfl

theorem lineTokens_rows {rows : List Row} (hrows : ∀ r ∈ rows, r.Readable) :
    lineTokens [0] (rows.flatMap Row.lines) = rows.flatMap Row.tokens ++ [.blockEnd] := by
  induction rows with
  | nil => rfl
  | cons r rows ih =>
    have ih := ih fun r hr => hrows r (List.mem_cons_of_mem _ hr)
    rw [List.flatMap_cons, List.flatMap_cons, List.append_assoc, ← ih]
    cases r with
    | setting key word => rfl
    | group key settings =>
      obtain ⟨-, hne, -⟩ := hrows _ List.mem_cons_self
      obtain ⟨s, ss, rfl⟩ := List.exists_cons_of_ne_nil hne
      have hinner := lineTokens_inner ss (rows.flatMap Row.lines)
      rw [lineTokens_margin (indent_of_mem_head?_lines rows)] at hinner
      calc lineTokens [0] (Row.lines (.group key (s :: ss)) ++ rows.flatMap Row.lines)
        _ = .key :: .scalar .plain key :: .value :: .blockMapping ::
            (settingTokens s ++ lineTokens [2, 0]
              (ss.map innerLine ++ rows.flatMap Row.lines)) := rfl
        _ = Row.tokens (.group key (s :: ss)) ++ lineTokens [0] (rows.flatMap Row.lines) := by
          rw [hinner]
          simp [Row.tokens, Row.key, Row.valueTokens]

/-- The tokens of a document of rows. -/
theorem lineTokens_document {rows : List Row} (hne : rows ≠ [])
    (hrows : ∀ r ∈ rows, r.Readable) :
    lineTokens [] (rows.flatMap Row.lines) =
      .blockMapping :: (rows.flatMap Row.tokens ++ [.blockEnd]) := by
  rw [← lineTokens_rows hrows]
  obtain ⟨r, rows, rfl⟩ := List.exists_cons_of_ne_nil hne
  cases r <;> rfl

/-! ## Nodes -/

open Yaml.Node

theorem read?_scalar (hs : Handles) (fuel : Nat) (position : Position) (text : List Char)
    (ts : List Token) :
    read? hs (fuel + 1) position { tokens := .scalar .plain text :: ts } =
      some (.scalar {} .plain text, { tokens := ts }) := by
  cases position <;> rfl

theorem read?_mapping (hs : Handles) (fuel : Nat) (position : Position)
    (hp : position ≠ .flow) (ts : List Token) :
    read? hs (fuel + 1) position { tokens := .blockMapping :: ts } =
      (blockEntries? hs fuel { tokens := ts }).map fun (es, s) => (.mapping {} es, s) := by
  cases position with
  | flow => exact absurd rfl hp
  | item | field =>
    change (blockEntries? hs fuel { tokens := ts }).bind _ = _
    cases blockEntries? hs fuel { tokens := ts } <;> rfl

theorem blockEntries?_cons {hs : Handles} {fuel : Nat} (key : List Char) (vs : List Token)
    {ts : List Token} (hempty : emptyField (vs ++ ts) = false) {v : Node}
    (hv : read? hs (fuel + 1) .field { tokens := vs ++ ts } = some (v, { tokens := ts }))
    {es : List (Node × Node)} {s : Source}
    (hes : blockEntries? hs (fuel + 1) { tokens := ts } = some (es, s)) :
    blockEntries? hs (fuel + 2)
        { tokens := .key :: .scalar .plain key :: .value :: (vs ++ ts) } =
      some ((.scalar {} .plain key, v) :: es, s) := by
  have hkey : ∀ ts, emptyField (.scalar .plain key :: ts) = false := fun _ => rfl
  rw [blockEntries?]
  simp [hkey, read?_scalar, Source.withTokens, hempty, hv, hes]

theorem blockEntries?_settings (hs : Handles) (ss : List (List Char × List Char))
    (ts : List Token) : ∀ fuel, ss.length < fuel →
      blockEntries? hs fuel { tokens := ss.flatMap settingTokens ++ .blockEnd :: ts } =
        some (ss.map settingEntry, { tokens := ts }) := by
  induction ss with
  | nil =>
    intro fuel hfuel
    obtain ⟨fuel, rfl⟩ := Nat.exists_eq_succ_of_ne_zero (Nat.ne_of_gt hfuel)
    rfl
  | cons s ss ih =>
    intro fuel hfuel
    rw [List.length_cons] at hfuel
    obtain ⟨fuel, rfl⟩ := Nat.exists_eq_add_of_le' (show 2 ≤ fuel by omega)
    exact blockEntries?_cons s.1 [.scalar .plain s.2] rfl (read?_scalar ..)
      (ih (fuel + 1) (by omega))

theorem length_le_flatMap_settingTokens (ss : List (List Char × List Char)) :
    ss.length ≤ (ss.flatMap settingTokens).length := by
  induction ss with
  | nil => exact Nat.le_refl 0
  | cons s ss ih =>
    rw [List.flatMap_cons, List.length_append, List.length_cons, Nat.add_comm]
    exact Nat.add_le_add (show 1 ≤ 4 by decide) ih

/-- The tokens behind the colon of a row are read as its node. -/
theorem read?_node (hs : Handles) (r : Row) (ts : List Token) {fuel : Nat}
    (hfuel : r.valueTokens.length ≤ fuel) :
    read? hs (fuel + 1) .field { tokens := r.valueTokens ++ ts } =
      some (r.node, { tokens := ts }) := by
  cases r with
  | setting key word => exact read?_scalar ..
  | group key settings =>
    have hlength := length_le_flatMap_settingTokens settings
    simp only [Row.valueTokens, List.length_cons, List.length_append, List.length_nil] at hfuel
    rw [Row.valueTokens, List.cons_append, List.append_assoc, read?_mapping hs fuel _ (by decide)]
    change Option.map _ (blockEntries? hs fuel
      { tokens := settings.flatMap settingTokens ++ .blockEnd :: ts }) = _
    rw [blockEntries?_settings hs settings ts fuel (by omega)]
    rfl

/-- The tokens of rows are read as their entries. -/
theorem blockEntries?_rows (hs : Handles) (rows : List Row) (ts : List Token) : ∀ fuel,
    (rows.flatMap Row.tokens).length < fuel →
      blockEntries? hs fuel { tokens := rows.flatMap Row.tokens ++ .blockEnd :: ts } =
        some (rows.map Row.entry, { tokens := ts }) := by
  induction rows with
  | nil =>
    intro fuel hfuel
    obtain ⟨fuel, rfl⟩ := Nat.exists_eq_succ_of_ne_zero (Nat.ne_of_gt hfuel)
    rfl
  | cons r rows ih =>
    intro fuel hfuel
    simp only [List.flatMap_cons, List.length_append, Row.tokens, List.length_cons] at hfuel
    obtain ⟨fuel, rfl⟩ := Nat.exists_eq_add_of_le' (show 2 ≤ fuel by omega)
    rw [List.flatMap_cons, List.append_assoc]
    exact blockEntries?_cons r.key r.valueTokens (by cases r <;> rfl)
      (read?_node hs r _ (by omega)) (ih (fuel + 1) (by omega))

/-! ## Documents -/

theorem isAllowed_of_isLineChar {c : Char} (hc : isLineChar c = true ∨ c = '\n') :
    isAllowed c = true := by
  rcases hc with hc | rfl
  · obtain ⟨hlow, hhigh⟩ := toNat_of_isLineChar hc
    have : c.toNat ≤ 0x7e := by omega
    simp [isAllowed, hlow, this]
  · decide

theorem root?_rows (hs : Handles) (rows : List Row) :
    Document.root? hs (.blockMapping :: (rows.flatMap Row.tokens ++ [.blockEnd])) =
      some (.mapping {} (rows.map Row.entry), []) := by
  rw [Document.root?, read?_mapping _ _ _ (by decide), blockEntries?_rows hs rows []]
  · rfl
  · simp only [List.length_cons, List.length_append, List.length_nil]
    omega

/-- A document of rows is read as the mapping of their entries. -/
theorem parse?_rows {rows : List Row} (hne : rows ≠ []) (hrows : ∀ r ∈ rows, r.Readable)
    {text : String} (htext : text.toList = (rows.flatMap Row.lines).flatMap Line.text) :
    Document.parse? text = some ⟨.mapping {} (rows.map Row.entry)⟩ := by
  have hns := fits_rows hrows
  have hallowed : text.toList.all isAllowed = true := by
    rw [htext, List.all_eq_true]
    exact fun c hc => isAllowed_of_isLineChar (hns.mem_text hc)
  simp only [Document.parse?, hallowed, if_true]
  rw [htext, ofGlyphs?_lines hns, lineTokens_document hne hrows, Option.bind_some]
  simp [Document.ofTokens?, root?_rows]

end ShapeAnalysis.Yaml
