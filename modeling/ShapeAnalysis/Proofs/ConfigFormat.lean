import ShapeAnalysis.Config.Document
import ShapeAnalysis.Proofs.YamlRows

/-!
# The format of configuration documents

The format obeys both laws that are asked of one.  It writes fields line by line by definition.
Such a text is a document of rows, so it is read as the mapping of its rows (`parse?_toYaml`),
and every entry stands for its field.
-/

namespace ShapeAnalysis

open Yaml (IsKey IsWord Line Row)

/-! ## Numbers -/

theorem bounds_of_isDigit {c : Char} (hc : c.isDigit = true) : '0' ≤ c ∧ c ≤ '9' := by
  simpa [Char.isDigit, Char.le_def] using hc

theorem digitsFrom?_eq_ofDigitChars {cs : List Char} (hcs : ∀ c ∈ cs, c.isDigit = true) :
    ∀ acc, Yaml.digitsFrom? 10 acc cs = some (Nat.ofDigitChars 10 cs acc) := by
  induction cs with
  | nil => intro acc; rfl
  | cons c cs ih =>
    intro acc
    have hc := bounds_of_isDigit (hcs c List.mem_cons_self)
    have hlt : c.toNat - '0'.toNat < 10 := by
      have : c.toNat ≤ 57 := hc.2
      change c.toNat - 48 < 10
      omega
    rw [Yaml.digitsFrom?, Yaml.digit?, if_pos hc, Nat.ofDigitChars_cons,
      ← ih fun c hc => hcs c (List.mem_cons_of_mem _ hc)]
    simp only [hlt, if_true, Nat.mul_comm acc]

/-- A number is not written with a zero in front. -/
theorem head?_toDigits_ne {n : Nat} (hn : 0 < n) : (Nat.toDigits 10 n).head? ≠ some '0' := by
  induction n using Nat.strongRecOn with
  | ind n ih =>
    by_cases hlt : n < 10
    · have hdigit : ∀ d < 10, 0 < d → Nat.digitChar d ≠ '0' := by decide
      rw [Nat.toDigits_of_lt_base hlt]
      exact fun h => hdigit n hlt hn (Option.some.inj h)
    · have hle : 10 ≤ n := Nat.le_of_not_lt hlt
      rw [Nat.toDigits_of_base_le (by decide) hle, List.head?_append]
      obtain ⟨c, cs, hcs⟩ := List.exists_cons_of_ne_nil
        (Nat.toDigits_ne_nil (b := 10) (n := n / 10))
      have hne := ih (n / 10) (Nat.div_lt_self hn (by decide)) (Nat.div_pos hle (by decide))
      rw [hcs] at hne ⊢
      exact hne

theorem number?_of_ne {c : Char} (hplus : c ≠ '+') (hzero : c ≠ '0') (cs : List Char) :
    Yaml.number? (c :: cs) = Yaml.digits? 10 (c :: cs) := by
  simp [Yaml.number?, hplus, hzero]

/-- The number that the digits of a number spell is that number. -/
theorem number?_toDigits (n : Nat) : Yaml.number? (Nat.toDigits 10 n) = some n := by
  rcases Nat.eq_zero_or_pos n with rfl | hn
  · decide
  · have hdigit : ∀ c ∈ Nat.toDigits 10 n, c.isDigit = true := fun c hc =>
      Nat.isDigit_of_mem_toDigits (by decide) (by decide) hc
    have hread := digitsFrom?_eq_ofDigitChars hdigit 0
    have hhead := head?_toDigits_ne hn
    rw [Nat.ofDigitChars_toDigits (by decide) (by decide)] at hread
    obtain ⟨c, cs, hcs⟩ := List.exists_cons_of_ne_nil (Nat.toDigits_ne_nil (b := 10) (n := n))
    rw [hcs] at hdigit hread hhead ⊢
    have hplus : c ≠ '+' := by
      rintro rfl
      exact absurd (hdigit _ List.mem_cons_self) (by decide)
    rw [number?_of_ne hplus (fun h => hhead (congrArg some h))]
    exact hread

theorem isWord_toDigits (n : Nat) : IsWord (Nat.toDigits 10 n) := by
  refine ⟨Nat.toDigits_ne_nil, List.all_eq_true.mpr fun c hc => ?_⟩
  have hc := bounds_of_isDigit (Nat.isDigit_of_mem_toDigits (by decide) (by decide) hc)
  have hne : c ≠ '-' := by rintro rfl; exact absurd hc.1 (by decide)
  simp [Yaml.isWordChar, Yaml.isNameChar, hc, hne]

/-! ## Rows -/

/-- The word for a flag that is on or off. -/
def flagWord (on : Bool) : List Char := (if on then "true" else "false").toList

/-- The settings of a record of flags. -/
def flagSettings (fs : List (String × Bool)) : List (List Char × List Char) :=
  fs.map fun f => (f.1.toList, flagWord f.2)

/-- The row of a field. -/
def Field.row (key : String) : Field → Row
  | choice name => .setting key.toList name.toList
  | number n => .setting key.toList (Nat.toDigits 10 n)
  | flags fs => .group key.toList (flagSettings fs)

/-- The rows of a configuration. -/
def Config.rows (c : Config) : List Row := c.fields.map fun f => f.2.row f.1

theorem toList_unlines (ls : List String) :
    (Text.unlines ls).toList = ls.flatMap fun l => l.toList ++ ['\n'] := by
  rw [Text.unlines, String.toList_join, List.flatMap_map]
  simp

/-- The lines of a field are those of its row. -/
theorem Field.flatMap_toLines (key : String) (x : Field) :
    ((x.toLines key).flatMap fun l => l.toList ++ ['\n']) =
      (x.row key).lines.flatMap Line.text := by
  cases x with
  | choice name => simp [toLines, row, Row.lines, Line.text, Line.behind]
  | number n => simp [toLines, row, Row.lines, Line.text, Line.behind]
  | flags fs =>
    simp only [toLines, row, Row.lines, flagSettings, List.flatMap_cons, List.flatMap_map,
      List.map_map]
    simp [Line.text, Line.behind, Yaml.innerLine, flagWord]

theorem Config.toList_toYaml (c : Config) :
    c.toYaml.toList = (c.rows.flatMap Row.lines).flatMap Line.text := by
  rw [toYaml, toList_unlines, rows, List.flatMap_assoc, List.flatMap_assoc, List.flatMap_map]
  simp only [Field.flatMap_toLines]

theorem readable_flags {key : List Char} (hkey : IsKey key) (p : Policy) :
    (Row.group key (flagSettings p.flags)).Readable := by
  refine ⟨hkey, List.cons_ne_nil _ _, fun s hs => ?_⟩
  have hnames : ∀ name ∈ (({} : Policy).flags.map Prod.fst), IsKey name.toList := by decide
  obtain ⟨⟨flag, on⟩, hflag, rfl⟩ := List.mem_map.mp hs
  refine ⟨hnames flag (List.mem_map_of_mem (f := Prod.fst) hflag), ?_⟩
  change IsWord (flagWord on)
  cases on <;> decide

theorem Config.readable_rows (c : Config) : ∀ r ∈ c.rows, r.Readable := by
  simp only [Config.rows, Config.fields, List.map_cons, List.map_nil, List.forall_mem_cons,
    List.not_mem_nil, false_implies, implies_true, and_true, Field.row]
  refine ⟨⟨by decide, ?_⟩, ⟨by decide, ?_⟩, ⟨by decide, isWord_toDigits _⟩,
    readable_flags (by decide) c.intra, readable_flags (by decide) c.guard,
    readable_flags (by decide) c.call, readable_flags (by decide) c.ret⟩
  · cases c.preset <;> decide
  · cases c.join <;> decide

/-- A written configuration is read as the mapping of its rows. -/
theorem Config.parse?_toYaml (c : Config) :
    Yaml.Document.parse? c.toYaml = some ⟨.mapping {} (c.rows.map Row.entry)⟩ :=
  Yaml.parse?_rows (List.cons_ne_nil _ _) c.readable_rows c.toList_toYaml

/-! ## Nodes -/

namespace Yaml

/-- Entries under plain keys are named by the keys. -/
theorem named?_map {α : Type} (d : Document) (key : α → String) (node : α → Node)
    (hnode : ∀ x, d.resolve (node x) = node x) (xs : List α) :
    d.named? (.mapping {} (xs.map fun x => (.scalar {} .plain (key x).toList, node x))) =
      some (xs.map fun x => (key x, node x)) := by
  rw [Document.named?, Node.entries?, Option.bind_some]
  induction xs with
  | nil => rfl
  | cons x xs ih =>
    simp only [List.map_cons, List.mapM_cons, ih, hnode]
    simp [Document.resolve, Node.text?]

theorem bool?_flagWord (on : Bool) :
    Node.bool? (.scalar {} .plain (flagWord on)) = some on := by
  cases on <;> decide

theorem nat?_toDigits {n : Nat} (hn : n < UInt64.size) :
    Node.nat? (.scalar {} .plain (Nat.toDigits 10 n)) = some n := by
  simp [Node.nat?, Node.core?, number?_toDigits, hn]

theorem isGiven?_toDigits (n : Nat) :
    Node.isGiven? (.scalar {} .plain (Nat.toDigits 10 n)) = some true := by
  have hspelled : ["~".toList, "null".toList, "Null".toList, "NULL".toList].all
      (fun w => !w.all Char.isDigit) = true := by decide
  have hdigits : (Nat.toDigits 10 n).all Char.isDigit = true :=
    List.all_eq_true.mpr fun c hc => Nat.isDigit_of_mem_toDigits (by decide) (by decide) hc
  have hne : isNull (Nat.toDigits 10 n) = false := by
    rw [isNull, decide_eq_false_iff_not]
    intro h
    have hnot := List.all_eq_true.mp hspelled _ h
    rw [hdigits] at hnot
    cases hnot
  simp [Node.isGiven?, hne, Nat.toDigits_ne_nil]

/-- The node of a word that is not null stands for the choice of that name. -/
theorem presents_choice (d : Document) (key : List Char) {name : String}
    (h : Node.isGiven? (.scalar {} .plain name.toList) = some true) :
    format.Presents (d, (Row.setting key name.toList).node) (.choice name) :=
  ⟨h, by simp [format, Row.node, Node.choice?]⟩

/-- The node of a record of flags stands for it. -/
theorem presents_flags (d : Document) (key : List Char) (fs : List (String × Bool)) :
    format.Presents (d, (Row.group key (flagSettings fs)).node) (.flags fs) := by
  have hnamed := named?_map d Prod.fst (fun f : String × Bool => .scalar {} .plain (flagWord f.2))
    (fun _ => rfl) fs
  refine ⟨rfl, fun f => (d, .scalar {} .plain (flagWord f.2)), ?_, fun f _ => bool?_flagWord f.2⟩
  have hnode : (Row.group key (flagSettings fs)).node = .mapping {} (fs.map fun f =>
      (.scalar {} .plain f.1.toList, .scalar {} .plain (flagWord f.2))) := by
    simp [Row.node, flagSettings, settingEntry]
  simp [format, hnode, hnamed]

/-! ## The laws -/

theorem writesFields_format : format.WritesFields := fun _ => rfl

theorem presents_fields (d : Document) {c : Config} (hc : c.cacheCapacity < UInt64.size) :
    ∀ f ∈ c.fields, format.Presents (d, (f.2.row f.1).node) f.2 := by
  simp only [Config.fields, List.forall_mem_cons, List.not_mem_nil, false_implies, implies_true,
    and_true, Field.row]
  refine ⟨presents_choice d _ ?_, presents_choice d _ ?_,
    ⟨isGiven?_toDigits _, nat?_toDigits hc⟩, presents_flags d _ _, presents_flags d _ _,
    presents_flags d _ _, presents_flags d _ _⟩
  · cases c.preset <;> decide
  · cases c.join <;> decide

theorem readsFields_format : format.ReadsFields := by
  intro c hc
  have hnamed := named?_map ⟨.mapping {} (c.rows.map Row.entry)⟩ Prod.fst
    (fun f : String × Field => (f.2.row f.1).node) (fun f => by cases f.2 <;> rfl) c.fields
  have hentries : c.rows.map Row.entry = c.fields.map fun f =>
      (.scalar {} .plain f.1.toList, (f.2.row f.1).node) := by
    rw [Config.rows, List.map_map]
    refine List.map_congr_left fun f _ => ?_
    obtain ⟨key, x⟩ := f
    cases x <;> rfl
  rw [← hentries] at hnamed
  refine ⟨(⟨.mapping {} (c.rows.map Row.entry)⟩, .mapping {} (c.rows.map Row.entry)), ?_,
    fun f => (⟨.mapping {} (c.rows.map Row.entry)⟩, (f.2.row f.1).node), ?_,
    presents_fields _ hc⟩
  · simp [format, c.parse?_toYaml]
  · simp [format, hnamed]

end Yaml

end ShapeAnalysis
