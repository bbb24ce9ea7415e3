import Mathlib.Data.List.TakeWhile
import ShapeAnalysis.Yaml.Lexer

/-!
# Lines of keys and words

A document of the simplest kind consists of lines, each with a key and a colon behind it
and perhaps a word behind the colon.  Words are made of letters, digits and underscores.
The lexer reads such a document line by line.  A line closes the blocks that are indented
further than it, opens one where it is the first of its indentation, and adds its key and
its word (`run_lines`).
-/

namespace ShapeAnalysis.Yaml

/-! ## Words -/

/-- The characters of words: letters, digits and the underscore. -/
def isWordChar (c : Char) : Bool := isNameChar c && c ≠ '-'

/-- A word has a character, and letters, digits and underscores only. -/
def IsWord (w : List Char) : Prop := w ≠ [] ∧ w.all isWordChar = true

instance (w : List Char) : Decidable (IsWord w) := inferInstanceAs (Decidable (_ ∧ _))

/-- A key is a word of at most 1024 characters. -/
def IsKey (w : List Char) : Prop := IsWord w ∧ w.length ≤ 1024

instance (w : List Char) : Decidable (IsKey w) := inferInstanceAs (Decidable (_ ∧ _))

theorem ne_of_isWordChar {c x : Char} (hc : isWordChar c = true) (hx : isWordChar x = false) :
    c ≠ x := by
  rintro rfl
  rw [hc] at hx
  cases hx

theorem IsWord.exists_cons {w : List Char} (hw : IsWord w) :
    ∃ c cs, w = c :: cs ∧ isWordChar c = true := by
  obtain ⟨c, cs, rfl⟩ := List.exists_cons_of_ne_nil hw.1
  exact ⟨c, cs, rfl, ((Bool.and_eq_true _ _).mp hw.2).1⟩

theorem toNat_of_isWordChar {c : Char} (hc : isWordChar c = true) :
    48 ≤ c.toNat ∧ c.toNat ≤ 122 := by
  simp only [isWordChar, isNameChar, Bool.and_eq_true, Bool.or_eq_true, decide_eq_true_eq,
    Char.le_def, UInt32.le_iff_toNat_le] at hc
  unfold Char.toNat
  rcases hc with ⟨(((h | h) | h) | rfl) | rfl, hne⟩
  · change 48 ≤ c.val.toNat ∧ c.val.toNat ≤ 57 at h
    omega
  · change 65 ≤ c.val.toNat ∧ c.val.toNat ≤ 90 at h
    omega
  · change 97 ≤ c.val.toNat ∧ c.val.toNat ≤ 122 at h
    omega
  · decide
  · exact absurd rfl hne

/-- The characters of lines: those of words, the blank and the colon. -/
def isLineChar (c : Char) : Bool := isWordChar c || c = ' ' || c = ':'

theorem isLineChar_of_isWordChar {c : Char} (hc : isWordChar c = true) : isLineChar c = true := by
  simp [isLineChar, hc]

theorem toNat_of_isLineChar {c : Char} (hc : isLineChar c = true) :
    32 ≤ c.toNat ∧ c.toNat ≤ 122 := by
  simp only [isLineChar, Bool.or_eq_true, decide_eq_true_eq] at hc
  rcases hc with (hc | rfl) | rfl
  · obtain ⟨h, h'⟩ := toNat_of_isWordChar hc
    exact ⟨by omega, h'⟩
  · decide
  · decide

theorem ne_of_isLineChar {c x : Char} (hc : isLineChar c = true) (hx : isLineChar x = false) :
    c ≠ x := by
  rintro rfl
  rw [hc] at hx
  cases hx

theorem isBreak_of_isLineChar {c : Char} (hc : isLineChar c = true) : isBreak c = false := by
  have h₁ : c ≠ '\n' := ne_of_isLineChar hc (by decide)
  have h₂ : c ≠ '\u2028' := ne_of_isLineChar hc (by decide)
  have h₃ : c ≠ '\u2029' := ne_of_isLineChar hc (by decide)
  simp [isBreak, h₁, h₂, h₃]

theorem isBlank_of_isWordChar {c : Char} (hc : isWordChar c = true) : isBlank c = false := by
  have h₁ : c ≠ ' ' := ne_of_isWordChar hc (by decide)
  have h₂ : c ≠ '\t' := ne_of_isWordChar hc (by decide)
  simp [isBlank, h₁, h₂]

/-! ## Places on a line -/

/-- A character of a line takes one place and one byte. -/
theorem ofText_cons {c : Char} (hc : isLineChar c = true) (ℓ k : Nat) (rest : List Char) :
    Glyph.ofText ℓ k k (c :: rest) = ⟨c, ℓ, k, k⟩ :: Glyph.ofText ℓ (k + 1) (k + 1) rest := by
  have hr : c ≠ '\r' := ne_of_isLineChar hc (by decide)
  have hn : c ≠ '\x85' := ne_of_isLineChar hc (by decide)
  have hsize : c.utf8Size = 1 := by
    have := (toNat_of_isLineChar hc).2
    rw [Char.utf8Size_eq_one_iff]
    rw [UInt32.le_iff_toNat_le]
    change c.val.toNat ≤ 127
    unfold Char.toNat at this
    omega
  rw [Glyph.ofText]
  · simp [hr, hn, isBreak_of_isLineChar hc, hsize]
  · intro r h
    exact absurd h hr

theorem ofText_newline (ℓ k : Nat) (rest : List Char) :
    Glyph.ofText ℓ k k ('\n' :: rest) = ⟨'\n', ℓ, k, k⟩ :: Glyph.ofText (ℓ + 1) 0 0 rest := by
  rw [Glyph.ofText]
  · rfl
  · intro r h
    cases h

theorem startsBlank_ofText {c : Char} (hc : c = ' ' ∨ c = '\n') (ℓ k : Nat) (rest : List Char) :
    startsBlank (Glyph.ofText ℓ k k (c :: rest)) = true := by
  rcases hc with rfl | rfl
  · rw [ofText_cons (by decide)]
    rfl
  · rw [ofText_newline]
    rfl

theorem length_ofText {cs : List Char} (hcs : ∀ c ∈ cs, isLineChar c = true ∨ c = '\n') :
    ∀ ℓ k, (Glyph.ofText ℓ k k cs).length = cs.length := by
  induction cs with
  | nil => intro ℓ k; rfl
  | cons c cs ih =>
    intro ℓ k
    have ih := ih fun c hc => hcs c (List.mem_cons_of_mem _ hc)
    rcases hcs c List.mem_cons_self with hc | rfl
    · rw [ofText_cons hc, List.length_cons, ih, List.length_cons]
    · rw [ofText_newline, List.length_cons, ih, List.length_cons]

/-! ## Passing over blanks -/

open Lexer

theorem skipSpace_blanks (allowed : Bool) (ℓ n : Nat) (rest : List Char) :
    ∀ k, skipSpace false allowed false (Glyph.ofText ℓ k k (List.replicate n ' ' ++ rest)) =
      skipSpace false allowed false (Glyph.ofText ℓ (k + n) (k + n) rest) := by
  induction n with
  | zero => intro k; rfl
  | succ n ih =>
    intro k
    rw [List.replicate_succ, List.cons_append, ofText_cons (by decide), skipSpace, ih,
      Nat.add_right_comm k 1 n]
    rfl

theorem skipSpace_newline (allowed : Bool) (ℓ k : Nat) (rest : List Char) :
    skipSpace false allowed false (Glyph.ofText ℓ k k ('\n' :: rest)) =
      skipSpace false true false (Glyph.ofText (ℓ + 1) 0 0 rest) := by
  rw [ofText_newline, skipSpace, Bool.not_false, Bool.or_true]
  rfl

/-- A colon or a character of a word is not passed over. -/
theorem skipSpace_stop {c : Char} (hc : isLineChar c = true) (hb : c ≠ ' ') (allowed : Bool)
    (ℓ k : Nat) (rest : List Char) :
    skipSpace false allowed false (Glyph.ofText ℓ k k (c :: rest)) =
      (allowed, Glyph.ofText ℓ k k (c :: rest)) := by
  have ht : c ≠ '\t' := ne_of_isLineChar hc (by decide)
  have hh : c ≠ '#' := ne_of_isLineChar hc (by decide)
  have hm : c ≠ byteOrderMark := ne_of_isLineChar hc (by decide)
  rw [ofText_cons hc, skipSpace]
  simp [isBreak_of_isLineChar hc, hb, ht, hh, hm]

theorem skipSpace_word {w : List Char} (hw : IsWord w) (allowed : Bool) (ℓ k : Nat)
    (rest : List Char) :
    skipSpace false allowed false (Glyph.ofText ℓ k k (w ++ rest)) =
      (allowed, Glyph.ofText ℓ k k (w ++ rest)) := by
  obtain ⟨c, cs, rfl, hc⟩ := hw.exists_cons
  exact skipSpace_stop (isLineChar_of_isWordChar hc) (ne_of_isWordChar hc (by decide)) _ _ _ _

/-! ## Plain scalars -/

theorem startsMark_of_ne {g : Glyph} (hh : g.char ≠ '-') (hp : g.char ≠ '.')
    (rest : List Glyph) : startsMark (g :: rest) = false := by
  match rest with
  | [] | [_] => rfl
  | b :: c :: rest => simp [startsMark, hh, hp]

/-- A plain scalar takes in a character of a word. -/
theorem plain?_cons {c : Char} (hc : isWordChar c = true) (margin ℓ k : Nat) (rest : List Char) :
    plain? false margin .empty (Glyph.ofText ℓ k k (c :: rest)) =
      (plain? false margin .empty (Glyph.ofText ℓ (k + 1) (k + 1) rest)).map
        fun (text, broken, after) => (c :: text, broken, after) := by
  have hl := isLineChar_of_isWordChar hc
  have hcolon : c ≠ ':' := ne_of_isWordChar hc (by decide)
  have hmark : ∀ after, startsMark (⟨c, ℓ, k, k⟩ :: after) = false :=
    startsMark_of_ne (ne_of_isWordChar hc (by decide)) (ne_of_isWordChar hc (by decide))
  rw [ofText_cons hl, plain?]
  simp [Glyph.isSpace, isBlank_of_isWordChar hc, isBreak_of_isLineChar hl, stopsPlain, hmark,
    hcolon, Gap.empty, Gap.isBroken, Gap.isSome, Gap.text]

theorem plain?_word {w : List Char} (hw : w.all isWordChar = true) (margin ℓ : Nat)
    (rest : List Char) : ∀ k,
    plain? false margin .empty (Glyph.ofText ℓ k k (w ++ rest)) =
      (plain? false margin .empty (Glyph.ofText ℓ (k + w.length) (k + w.length) rest)).map
        fun (text, broken, after) => (w ++ text, broken, after) := by
  induction w with
  | nil => intro k; simp
  | cons c w ih =>
    intro k
    obtain ⟨hc, hw⟩ := (Bool.and_eq_true _ _).mp hw
    rw [List.cons_append, plain?_cons hc, ih hw, Option.map_map, List.length_cons,
      Nat.add_right_comm k 1, Nat.add_assoc]
    rfl

/-- A plain scalar ends before a colon that a blank follows. -/
theorem plain?_colon {c : Char} (hc : c = ' ' ∨ c = '\n') (margin ℓ k : Nat) (rest : List Char) :
    plain? false margin .empty (Glyph.ofText ℓ k k (':' :: c :: rest)) =
      some ([], false, Glyph.ofText ℓ k k (':' :: c :: rest)) := by
  rw [ofText_cons (by decide), plain?]
  simp [Glyph.isSpace, isBlank, isBreak, stopsPlain, startsBlank_ofText hc, Gap.empty,
    Gap.isBroken]

theorem plain?_newline (margin ℓ k : Nat) (rest : List Char) :
    plain? false margin .empty (Glyph.ofText ℓ k k ('\n' :: rest)) =
      plain? false margin (.breaks ['\n'] []) (Glyph.ofText (ℓ + 1) 0 0 rest) := by
  rw [ofText_newline, plain?]
  rfl

theorem plain?_blanks (margin ℓ n : Nat) (first more rest : List Char) : ∀ k,
    plain? false margin (.breaks first more)
        (Glyph.ofText ℓ k k (List.replicate n ' ' ++ rest)) =
      plain? false margin (.breaks first more) (Glyph.ofText ℓ (k + n) (k + n) rest) := by
  induction n with
  | zero => intro k; rfl
  | succ n ih =>
    intro k
    rw [List.replicate_succ, List.cons_append, ofText_cons (by decide), plain?,
      ← Nat.add_assoc, Nat.add_right_comm k n 1, ← ih]
    simp [Glyph.isSpace, isBlank, Gap.add, isBreak]

/-- After a line end a plain scalar stops at a character before its margin. -/
theorem plain?_stop {c : Char} (hc : isWordChar c = true) {margin k : Nat} (hk : k < margin)
    (ℓ : Nat) (first more rest : List Char) :
    plain? false margin (.breaks first more) (Glyph.ofText ℓ k k (c :: rest)) =
      some ([], true, Glyph.ofText ℓ k k (c :: rest)) := by
  have hl := isLineChar_of_isWordChar hc
  rw [ofText_cons hl, plain?]
  simp [Glyph.isSpace, isBlank_of_isWordChar hc, isBreak_of_isLineChar hl, stopsPlain,
    Gap.isBroken, hk]

/-! ## Tokens at a glyph -/

/-- Outside brackets a character of a word starts a plain scalar. -/
theorem token?_word {g : Glyph} (hc : isWordChar g.char = true) (rest : List Glyph) (l : Lexer) :
    l.token? g rest = l.plainScalar? g rest := by
  have hne : ∀ x, isWordChar x = false → g.char ≠ x := fun x => ne_of_isWordChar hc
  have hmark := startsMark_of_ne (hne '-' (by decide)) (hne '.' (by decide)) rest
  have hstart : startsPlain l.inFlow g.char rest = true := by
    have hind : g.char ∉ indicators := by
      intro h
      have : indicators.all (fun x => !isWordChar x) = true := by decide
      simpa [hc] using List.all_eq_true.mp this _ h
    simp [startsPlain, isBlank_of_isWordChar hc, hne '-' (by decide), hne '?' (by decide),
      hne ':' (by decide), hind]
  simp [token?, hmark, hstart, hne '%' (by decide), hne '[' (by decide), hne '\x7b' (by decide),
    hne ']' (by decide), hne '\x7d' (by decide), hne ',' (by decide), hne '-' (by decide),
    hne '?' (by decide), hne ':' (by decide), hne '*' (by decide), hne '&' (by decide),
    hne '!' (by decide), hne '|' (by decide), hne '>' (by decide), hne '\'' (by decide),
    hne '"' (by decide)]

/-- A colon that a blank follows marks a value. -/
theorem token?_colon {g : Glyph} (hc : g.char = ':') {rest : List Glyph}
    (hrest : startsBlank rest = true) (l : Lexer) : l.token? g rest = l.value? g rest := by
  have hmark := startsMark_of_ne (g := g) (by rw [hc]; decide) (by rw [hc]; decide) rest
  simp [token?, hmark, hc, hrest]

/-! ## Blocks at a column -/

/-- The tokens that end the blocks further in than a column. -/
def blockEnds (k : Nat) (bs : List Nat) : List Token :=
  (bs.takeWhile (k < ·)).map fun _ => .blockEnd

/-- The other blocks, the innermost first. -/
def blocksLeft (k : Nat) (bs : List Nat) : List Nat := bs.dropWhile (k < ·)

/-- Whether a key at a column opens a block. -/
def opensBlock (k : Nat) (bs : List Nat) : Bool := (blocksLeft k bs).head?.all (· < k)

/-- The open blocks behind a key at a column. -/
def blocksAt (k : Nat) (bs : List Nat) : List Nat :=
  if opensBlock k bs then k :: blocksLeft k bs else blocksLeft k bs

theorem le_of_mem_head?_blocksLeft {k b : Nat} {bs : List Nat}
    (hb : b ∈ (blocksLeft k bs).head?) : b ≤ k := by
  have h := List.head?_dropWhile_not (fun b => decide (k < b)) bs
  rw [show (bs.dropWhile fun b => decide (k < b)).head? = some b from hb] at h
  simpa using h

/-- The innermost block behind a key is the one the key stands in. -/
theorem head?_blocksAt (k : Nat) (bs : List Nat) : (blocksAt k bs).head? = some k := by
  cases h : blocksLeft k bs with
  | nil => simp [blocksAt, opensBlock, h]
  | cons b rest =>
    have hb : b ≤ k := le_of_mem_head?_blocksLeft (by rw [h]; rfl)
    by_cases hlt : b < k
    · simp [blocksAt, opensBlock, h, hlt]
    · have hb : b = k := by omega
      simp [blocksAt, opensBlock, h, hb]

/-- A glyph further right than the innermost block closes none. -/
theorem blocks_of_head?_le (k : Nat) (bs : List Nat) (hbs : ∀ b ∈ bs.head?, b ≤ k) :
    blockEnds k bs = [] ∧ blocksLeft k bs = bs := by
  cases bs with
  | nil => exact ⟨rfl, rfl⟩
  | cons b bs =>
    have hb : ¬ k < b := Nat.not_lt.mpr (hbs b rfl)
    simp [blockEnds, blocksLeft, hb]

/-! ## Lines -/

/-- A line with a key, and perhaps a word behind the colon. -/
structure Line where
  /-- The number of blanks before the key. -/
  indent : Nat
  /-- The key. -/
  key : List Char
  /-- The word behind the colon. -/
  word : Option (List Char)

namespace Line

/-- What stands behind the colon, the line end included. -/
def behind (n : Line) : List Char :=
  match n.word with
  | none => ['\n']
  | some w => ' ' :: (w ++ ['\n'])

theorem exists_behind (n : Line) :
    ∃ c cs, n.behind = c :: cs ∧ (c = ' ' ∨ c = '\n') := by
  unfold behind
  split
  · exact ⟨_, _, rfl, .inr rfl⟩
  · exact ⟨_, _, rfl, .inl rfl⟩

/-- The text of a line. -/
def text (n : Line) : List Char := List.replicate n.indent ' ' ++ (n.key ++ ':' :: n.behind)

/-- A line that can be read has a key before the colon and no more than a word behind it. -/
structure Readable (n : Line) : Prop where
  key : IsKey n.key
  word : ∀ w ∈ n.word, IsWord w

/-- The tokens of a line. -/
def tokens (n : Line) (bs : List Nat) : List Token :=
  blockEnds n.indent bs ++ (if opensBlock n.indent bs then [.blockMapping] else []) ++
    .key :: .scalar .plain n.key :: .value :: (n.word.map (.scalar .plain)).toList

end Line

/-- A document in lines: every line can be read, and behind a line with a word stands no
line that is indented further. -/
def Fits : List Line → Prop
  | [] => True
  | n :: ns =>
    n.Readable ∧ (n.word.isSome = true → ∀ m ∈ ns.head?, m.indent ≤ n.indent) ∧ Fits ns

/-- The glyphs of lines from the first key on. -/
def visible (ℓ : Nat) : List Line → List Glyph
  | [] => []
  | n :: ns =>
    Glyph.ofText ℓ n.indent n.indent (n.key ++ ':' :: n.behind ++ ns.flatMap Line.text)

/-- The tokens of lines, when the blocks `bs` are open before them. -/
def lineTokens (bs : List Nat) : List Line → List Token
  | [] => bs.map fun _ => .blockEnd
  | n :: ns => n.tokens bs ++ lineTokens (blocksAt n.indent bs) ns

theorem skipSpace_visible (ℓ : Nat) {ns : List Line} (hns : Fits ns) :
    skipSpace false true false (visible ℓ ns) = (true, visible ℓ ns) := by
  cases ns with
  | nil => rfl
  | cons n ns =>
    rw [visible, List.append_assoc]
    exact skipSpace_word hns.1.key.1 _ _ _ _

theorem skipSpace_lines (ℓ : Nat) {ns : List Line} (hns : Fits ns) :
    skipSpace false true false (Glyph.ofText ℓ 0 0 (ns.flatMap Line.text)) =
      (true, visible ℓ ns) := by
  rw [← skipSpace_visible ℓ hns]
  cases ns with
  | nil => rfl
  | cons n ns =>
    rw [List.flatMap_cons, Line.text, List.append_assoc, skipSpace_blanks, Nat.zero_add]
    rfl

/-- A plain scalar ends with its line if the next line does not reach its margin. -/
theorem plain?_lines (ℓ margin : Nat) {ns : List Line} (hns : Fits ns)
    (hmargin : ∀ n ∈ ns.head?, n.indent < margin) :
    plain? false margin (.breaks ['\n'] []) (Glyph.ofText ℓ 0 0 (ns.flatMap Line.text)) =
      some ([], true, visible ℓ ns) := by
  cases ns with
  | nil => rfl
  | cons n ns =>
    obtain ⟨c, cs, hk, hc⟩ := hns.1.key.1.exists_cons
    rw [List.flatMap_cons, Line.text, List.append_assoc, plain?_blanks, Nat.zero_add]
    simp only [visible, hk, List.cons_append]
    exact plain?_stop hc (hmargin n rfl) _ _ _ _

/-! ## Runs over lines -/

theorem run_token {l m : Lexer} {g : Glyph} {after : List Glyph} {allowed : Bool} (fuel : Nat)
    (hskip : skipSpace l.inFlow l.keyAllowed false l.rest = (allowed, g :: after))
    (hstep : (expireKeys? g { l with keyAllowed := allowed, rest := g :: after }).bind
      (fun l => (l.closeBlocks (g.column < ·)).token? g after) = some m) :
    run (fuel + 1) l = run fuel m := by
  obtain ⟨m₀, hexpire, htoken⟩ := Option.bind_eq_some_iff.mp hstep
  simp [run, hskip, hexpire, htoken]

/-- Only what is behind the blanks matters to a run. -/
theorem run_congr {l m : Lexer} (fuel : Nat)
    (hskip : skipSpace l.inFlow l.keyAllowed false l.rest =
      skipSpace m.inFlow m.keyAllowed false m.rest)
    (hlm : { l with rest := m.rest, keyAllowed := m.keyAllowed } = m) :
    run fuel l = run fuel m := by
  cases fuel with
  | zero => rfl
  | succ fuel =>
    rw [← hlm] at hskip ⊢
    simp only [run, hskip]

theorem closeBlocks_eq {l : Lexer} (hflow : l.outerKeys = []) (k : Nat) :
    l.closeBlocks (k < ·) =
      { l with tokens := blockEnds k l.blocks ++ l.tokens, blocks := blocksLeft k l.blocks } := by
  simp [closeBlocks, inFlow, hflow, blockEnds, blocksLeft]

theorem expireKeys?_eq_some {l : Lexer} (hflow : l.outerKeys = []) {g : Glyph}
    (hkeep : keepKey? g l.key = some l.key) : l.expireKeys? g = some l := by
  obtain ⟨rest, tokens, blocks, key, outerKeys, keyAllowed⟩ := l
  subst hflow
  simp [expireKeys?, show keepKey? g key = some key from hkeep]

theorem margin_eq (l : Lexer) : l.margin = l.blocks.head?.elim 0 (· + 1) := by
  unfold margin
  cases l.blocks <;> rfl

/-- A plain scalar outside brackets.  Where a key may start, its place is kept. -/
theorem plainScalar?_eq_some {r after rest : List Glyph} {ts : List Token} {bs : List Nat}
    {allowed broken : Bool} {g : Glyph} {text : List Char}
    (hplain : plain? false (bs.head?.elim 0 (· + 1)) .empty (g :: rest) =
      some (text, broken, after)) :
    plainScalar? g rest { rest := r, tokens := ts, blocks := bs, keyAllowed := allowed } =
      some {
        rest := after
        tokens := .scalar .plain text :: ts
        blocks := bs
        key := if allowed then
          some ⟨ts.length, g.line, g.column, g.offset, bs.head? = some g.column⟩ else none
        keyAllowed := broken } := by
  cases allowed <;>
    simp [plainScalar?, inFlow, margin_eq, hplain, keyed?, saveKey?, dropKey?, emit]

/-- Outside brackets, a word closes the blocks further in. -/
theorem run_word (ts : List Token) (bs : List Nat) {r after : List Glyph}
    {starts allowed broken : Bool} {w rest : List Char} {ℓ k : Nat} (hw : IsWord w)
    (hskip : skipSpace false starts false r = (allowed, Glyph.ofText ℓ k k (w ++ rest)))
    (hplain : plain? false ((blocksLeft k bs).head?.elim 0 (· + 1)) .empty
      (Glyph.ofText ℓ (k + w.length) (k + w.length) rest) = some ([], broken, after))
    (fuel : Nat) :
    run (fuel + 1) { rest := r, tokens := ts, blocks := bs, keyAllowed := starts } =
      run fuel {
        rest := after
        tokens := .scalar .plain w :: (blockEnds k bs ++ ts)
        blocks := blocksLeft k bs
        key := if allowed then
          some ⟨(blockEnds k bs ++ ts).length, ℓ, k, k, (blocksLeft k bs).head? = some k⟩ else none
        keyAllowed := broken } := by
  obtain ⟨c, cs, rfl, hc⟩ := hw.exists_cons
  have hword := plain?_word hw.2 ((blocksLeft k bs).head?.elim 0 (· + 1)) ℓ rest k
  simp only [hplain, Option.map_some, List.append_nil] at hword
  rw [List.cons_append, ofText_cons (isLineChar_of_isWordChar hc)] at hskip hword
  refine run_token fuel (by exact hskip) ?_
  rw [expireKeys?_eq_some rfl rfl, Option.bind_some, closeBlocks_eq rfl, token?_word (by exact hc)]
  exact plainScalar?_eq_some hword

/-- The colon after a key puts the key in front of it, and opens a block if the key stands
further in than the block around it. -/
theorem run_colon {c : Char} (hc : c = ' ' ∨ c = '\n') (w rest : List Char)
    (hw : w.length ≤ 1024) (ℓ k : Nat) (ts : List Token) (bs : List Nat) (required : Bool)
    (fuel : Nat) :
    run (fuel + 1) {
        rest := Glyph.ofText ℓ (k + w.length) (k + w.length) (':' :: c :: rest)
        tokens := .scalar .plain w :: ts
        blocks := blocksLeft k bs
        key := some ⟨ts.length, ℓ, k, k, required⟩
        keyAllowed := false } =
      run fuel {
        rest := Glyph.ofText ℓ (k + w.length + 1) (k + w.length + 1) (c :: rest)
        tokens := .value :: .scalar .plain w :: .key ::
          ((if opensBlock k bs then [.blockMapping] else []) ++ ts)
        blocks := blocksAt k bs
        keyAllowed := false } := by
  have hskip := skipSpace_stop (c := ':') (by decide) (by decide) false ℓ (k + w.length) (c :: rest)
  rw [ofText_cons (by decide)] at hskip ⊢
  obtain ⟨hends, hleft⟩ := blocks_of_head?_le (k + w.length) (blocksLeft k bs)
    fun b hb => Nat.le_trans (le_of_mem_head?_blocksLeft hb) (Nat.le_add_right k _)
  refine run_token fuel (by exact hskip) ?_
  have hkeep : keepKey? ⟨':', ℓ, k + w.length, k + w.length⟩
      (some ⟨ts.length, ℓ, k, k, required⟩) = some (some ⟨ts.length, ℓ, k, k, required⟩) := by
    have : k + w.length ≤ k + 1024 := by omega
    simp [keepKey?, this]
  rw [expireKeys?_eq_some rfl hkeep, Option.bind_some, closeBlocks_eq rfl,
    token?_colon rfl (startsBlank_ofText hc _ _ _)]
  simp only [hends, hleft, List.nil_append]
  -- The key goes in front of its scalar, and in front of the key the block, if one opens.
  cases hopen : opensBlock k bs <;> rw [opensBlock] at hopen <;>
    simp [value?, Lexer.insert, openBlock, inFlow, emit, blocksAt, opensBlock, hopen,
      Nat.add_assoc]

/-- The key of a line takes two steps, up to the colon. -/
theorem run_key {n : Line} {ns : List Line} (hns : Fits (n :: ns)) (ℓ : Nat) (ts : List Token)
    (bs : List Nat) (fuel : Nat) :
    run (fuel + 2) { rest := visible ℓ (n :: ns), tokens := ts, blocks := bs } =
      run fuel {
        rest := Glyph.ofText ℓ (n.indent + n.key.length + 1) (n.indent + n.key.length + 1)
          (n.behind ++ ns.flatMap Line.text)
        tokens := .value :: .scalar .plain n.key :: .key ::
          ((if opensBlock n.indent bs then [.blockMapping] else []) ++
            (blockEnds n.indent bs ++ ts))
        blocks := blocksAt n.indent bs
        keyAllowed := false } := by
  have hn := hns.1
  have hskip := skipSpace_visible ℓ hns
  obtain ⟨c, cs, hbehind, hc⟩ := n.exists_behind
  simp only [visible, List.append_assoc, List.cons_append, hbehind] at hskip ⊢
  rw [run_word ts bs hn.key.1 hskip (plain?_colon hc _ _ _ _), if_pos rfl,
    run_colon hc n.key _ hn.key.2]

/-- A word behind the colon takes a step, up to the next key. -/
theorem run_value {k : Nat} {w : List Char} (hw : IsWord w) {ns : List Line} (hns : Fits ns)
    (hindent : ∀ m ∈ ns.head?, m.indent ≤ k) (ℓ d : Nat) (ts : List Token) {bs : List Nat}
    (hbs : bs.head? = some k) (fuel : Nat) :
    run (fuel + 1) {
        rest := Glyph.ofText ℓ (k + d) (k + d) (' ' :: (w ++ '\n' :: ns.flatMap Line.text))
        tokens := ts
        blocks := bs
        keyAllowed := false } =
      run fuel { rest := visible (ℓ + 1) ns, tokens := .scalar .plain w :: ts, blocks := bs } := by
  obtain ⟨hends, hleft⟩ := blocks_of_head?_le (k + d + 1) bs
    (by rintro b hb; rw [hbs] at hb; cases hb; omega)
  have hskip : skipSpace false false false
      (Glyph.ofText ℓ (k + d) (k + d) (' ' :: (w ++ '\n' :: ns.flatMap Line.text))) =
      (false, Glyph.ofText ℓ (k + d + 1) (k + d + 1) (w ++ '\n' :: ns.flatMap Line.text)) :=
    (skipSpace_blanks false ℓ 1 _ _).trans (skipSpace_word hw _ _ _ _)
  have hplain : plain? false ((blocksLeft (k + d + 1) bs).head?.elim 0 (· + 1)) .empty
      (Glyph.ofText ℓ (k + d + 1 + w.length) (k + d + 1 + w.length)
        ('\n' :: ns.flatMap Line.text)) = some ([], true, visible (ℓ + 1) ns) := by
    rw [hleft, hbs, plain?_newline]
    exact plain?_lines _ _ hns fun m hm => Nat.lt_succ_of_le (hindent m hm)
  rw [run_word ts bs hw hskip hplain, hends, hleft]
  rfl

theorem reverse_tokens (n : Line) (bs : List Nat) :
    (n.tokens bs).reverse = (n.word.map (.scalar .plain)).toList ++
      .value :: .scalar .plain n.key :: .key ::
        ((if opensBlock n.indent bs then [.blockMapping] else []) ++ blockEnds n.indent bs) := by
  unfold Line.tokens blockEnds
  cases n.word <;> split <;> simp [List.map_const']

/-- A run reads a line in at most three steps. -/
theorem run_line {n : Line} {ns : List Line} (hns : Fits (n :: ns)) (ℓ : Nat) (ts : List Token)
    (bs : List Nat) (fuel : Nat) : ∃ left, fuel ≤ left ∧
      run (fuel + 3) { rest := visible ℓ (n :: ns), tokens := ts, blocks := bs } =
        run left {
          rest := visible (ℓ + 1) ns
          tokens := (n.tokens bs).reverse ++ ts
          blocks := blocksAt n.indent bs } := by
  have hrest : Fits ns := hns.2.2
  rw [run_key hns ℓ ts bs (fuel + 1), reverse_tokens, Line.behind]
  cases hword : n.word with
  | none =>
    -- The line end is still to be passed over, which the next step does.
    refine ⟨fuel + 1, Nat.le_succ fuel, run_congr _ ?_ ?_⟩
    · exact (skipSpace_newline _ _ _ _).trans
        ((skipSpace_lines _ hrest).trans (skipSpace_visible _ hrest).symm)
    · simp
  | some w =>
    refine ⟨fuel, Nat.le_refl fuel, ?_⟩
    have hindent := hns.2.1 (by rw [hword]; rfl)
    have hvalue := run_value (hns.1.word w hword) hrest hindent ℓ (n.key.length + 1)
      (.value :: .scalar .plain n.key :: .key ::
          ((if opensBlock n.indent bs then [.blockMapping] else []) ++
            (blockEnds n.indent bs ++ ts))) (head?_blocksAt n.indent bs) fuel
    simpa [Nat.add_assoc] using hvalue

/-- The run over a document in lines, from a state between two of them. -/
theorem run_lines {ns : List Line} (hns : Fits ns) : ∀ (ℓ : Nat) (ts : List Token)
    (bs : List Nat) (fuel : Nat), 3 * ns.length < fuel →
      run fuel { rest := visible ℓ ns, tokens := ts, blocks := bs } =
        some (ts.reverse ++ lineTokens bs ns) := by
  induction ns with
  | nil =>
    intro ℓ ts bs fuel hfuel
    obtain ⟨fuel, rfl⟩ := Nat.exists_eq_succ_of_ne_zero (Nat.ne_of_gt hfuel)
    have hall : bs.takeWhile (fun _ => true) = bs := List.takeWhile_eq_self_iff.mpr (by simp)
    simp [run, visible, skipSpace, closeBlocks, inFlow, dropKey?, lineTokens, hall,
      List.map_const']
  | cons n ns ih =>
    intro ℓ ts bs fuel hfuel
    rw [List.length_cons] at hfuel
    obtain ⟨fuel, rfl⟩ := Nat.exists_eq_add_of_le' (show 3 ≤ fuel by omega)
    obtain ⟨left, hleft, hrun⟩ := run_line hns ℓ ts bs fuel
    rw [hrun, ih hns.2.2 _ _ _ _ (by omega), List.reverse_append, List.reverse_reverse,
      List.append_assoc, lineTokens]

/-! ## Documents in lines -/

theorem isLineChar_of_isWord {w : List Char} (hw : IsWord w) {c : Char} (hc : c ∈ w) :
    isLineChar c = true :=
  isLineChar_of_isWordChar (List.all_eq_true.mp hw.2 c hc)

theorem Line.Readable.mem_text {n : Line} (hn : n.Readable) {c : Char} (hc : c ∈ n.text) :
    isLineChar c = true ∨ c = '\n' := by
  simp only [Line.text, List.mem_append, List.mem_cons] at hc
  rcases hc with hc | hc | rfl | hc
  · rw [List.eq_of_mem_replicate hc]
    exact .inl (by decide)
  · exact .inl (isLineChar_of_isWord hn.key.1 hc)
  · exact .inl (by decide)
  · unfold Line.behind at hc
    split at hc
    · exact .inr (List.mem_singleton.mp hc)
    · rename_i w hw
      simp only [List.mem_cons, List.mem_append, List.not_mem_nil, or_false] at hc
      rcases hc with rfl | hc | rfl
      · exact .inl (by decide)
      · exact .inl (isLineChar_of_isWord (hn.word w hw) hc)
      · exact .inr rfl

theorem Fits.mem_text {ns : List Line} (hns : Fits ns) {c : Char} (hc : c ∈ ns.flatMap Line.text) :
    isLineChar c = true ∨ c = '\n' := by
  induction ns with
  | nil => cases hc
  | cons n ns ih =>
    rw [List.flatMap_cons, List.mem_append] at hc
    exact hc.elim hns.1.mem_text (ih hns.2.2)

theorem Fits.three_mul_length_le {ns : List Line} (hns : Fits ns) :
    3 * ns.length ≤ (ns.flatMap Line.text).length := by
  induction ns with
  | nil => exact Nat.le_refl 0
  | cons n ns ih =>
    have hkey : 0 < n.key.length := List.length_pos_iff.mpr hns.1.key.1.1
    have hbehind : 0 < n.behind.length := by
      obtain ⟨c, cs, h, -⟩ := n.exists_behind
      simp [h]
    have := ih hns.2.2
    simp only [List.flatMap_cons, List.length_append, List.length_cons, Line.text] at this ⊢
    omega

/-- The tokens of a document in lines. -/
theorem ofGlyphs?_lines {ns : List Line} (hns : Fits ns) :
    Token.ofGlyphs? (Glyph.ofText 0 0 0 (ns.flatMap Line.text)) = some (lineTokens [] ns) := by
  rw [Token.ofGlyphs?, length_ofText fun c => hns.mem_text]
  have hskip := (skipSpace_lines 0 hns).trans (skipSpace_visible 0 hns).symm
  have hrun := run_lines hns 0 [] [] _ (Nat.lt_succ_of_le hns.three_mul_length_le)
  exact (run_congr _ (by exact hskip) rfl).trans hrun

end ShapeAnalysis.Yaml
