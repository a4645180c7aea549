import Mathlib.Data.List.Chain
import TypedNotation.Proofs.Assembly

/-!
# Written values read back

`Value.parse_source` says that the source text of a value that can be written is read as that value,
that nothing is found on the way, and that its layout is right for every width of indents.

Three things are put together. The text is one line, and the scanner cuts it into the lexemes it was
written from (`tokensOf_source`). The builder makes one chunk of these, whose data has the value
(`Value.exists_reads`). And the layout is looked at rule by rule: the line starts and ends with
something visible, the tokens around a separator are where they should be (`Layout.LexemesFit`), and
no block has more than one line.
-/

namespace TypedNotation

open List Document Lexeme

/-! ### One line -/

namespace Text

/-- A tight text is one line. -/
theorem Tight.lines_eq {cs : List Char} (h : Tight cs) : lines cs = [cs] := by
  obtain ⟨start, c, rfl, hc⟩ := h.last
  have hreturn : c ≠ '\r' := by
    rintro rfl
    exact absurd hc (by decide)
  rw [lines, pieces_of_not_mem h.feed]
  simp [dropReturn, hreturn]

theorem Tight.indent_eq {cs : List Char} (h : Tight cs) : indent cs = [] := by
  obtain ⟨c, rest, rfl, hc⟩ := h.head
  simp [indent, hc]

theorem Tight.trimEnd_eq {cs : List Char} (h : Tight cs) : trimEnd cs = cs := by
  obtain ⟨start, c, rfl, hc⟩ := h.last
  simp [trimEnd, hc]

end Text

namespace Value

theorem tight_source {v : Value} (h : v.isEncodable = true) : Text.Tight v.sourceChars := by
  rw [← chars_lexemes [] v]
  exact (isPiece_lexemes [] h).tight

theorem linesOf_source {v : Value} (h : v.isEncodable = true) :
    linesOf v.source = [v.sourceChars] := by
  rw [linesOf, source, String.toList_ofList, (tight_source h).lines_eq]

/-- The tokens of a source text are those it was written from. -/
theorem tokensOf_source {v : Value} (h : v.isEncodable = true) :
    tokensOf v.source =
      tokensFrom 0 0 (v.lexemes []) ++ [Token.newline 0 (Text.units16 v.sourceChars)] := by
  have hscan : Scanner.scan ⟨⟨[], .plain⟩, false⟩ v.sourceChars =
      (v.lexemes [], ⟨⟨[], .plain⟩, false⟩) := by
    rw [← chars_lexemes [] v]
    exact Scanner.scan_eq_of_cuts ((isPiece_lexemes [] h).cuts [] Scan.delimits_nil)
  rw [tokensOf_eq, linesOf_source h]
  simp [LineState.tokensOfLines, LineState.tokens, LineState.scan, hscan]

end Value

/-! ### Layout -/

namespace Layout

/-- Whether two visible tokens in a row keep the rule on separators. -/
def Spaced (a b : Token) : Prop :=
  (isSeparator b = true → a.range.stop = b.range.start) ∧
    (isSeparator a = true → b.range.start.character = a.range.stop.character + 1)

/-- Where every two visible tokens in a row keep the rule, nothing is found. -/
theorem padding_eq_nil {lines : List (List Char)} {ts : List Token} (h : ts.IsChain Spaced) :
    padding lines ts = [] := by
  fun_induction padding lines ts with
  | case1 before current after rest ih =>
    obtain ⟨hbefore, hrest⟩ := isChain_cons_cons.1 h
    obtain ⟨hafter, -⟩ := isChain_cons_cons.1 hrest
    rw [ih hrest, append_nil]
    split
    next hsep => simp [gapsAround, hbefore.1 hsep, hafter.2 hsep]
    next => rfl
  | case2 => rfl

/-- Visible tokens from one column of a line to another, spaced as they should be, with no separator
at either end. -/
structure Fits (line start stop : Nat) (ts : List Token) : Prop where
  ne_nil : ts ≠ []
  spaced : ts.IsChain Spaced
  head : ∀ t ∈ ts.head?, isSeparator t = false ∧ t.range.start = ⟨line, start⟩
  last : ∀ t ∈ ts.getLast?, isSeparator t = false ∧ t.range.stop = ⟨line, stop⟩

theorem Fits.append {line a b c : Nat} {ts us : List Token} (hts : Fits line a b ts)
    (hus : Fits line b c us) : Fits line a c (ts ++ us) := by
  refine ⟨by simp [hts.ne_nil], hts.spaced.append hus.spaced ?_, ?_, ?_⟩
  · intro t ht u hu
    have hsep := (hts.last t ht).1
    have hsep' := (hus.head u hu).1
    exact ⟨by simp [hsep'], by simp [hsep]⟩
  · rw [head?_append_of_ne_nil _ hts.ne_nil]
    exact hts.head
  · rw [getLast?_append_of_ne_nil _ hus.ne_nil]
    exact hus.last

/-- A separator belongs directly behind what it follows, one column before what comes next. -/
theorem Fits.separator {line a b c : Nat} {ts us : List Token} {t : Token} (hts : Fits line a b ts)
    (ht : t.range = .onLine line b (b + 1)) (hus : Fits line (b + 2) c us) :
    Fits line a c (ts ++ t :: us) := by
  obtain ⟨u, us, rfl⟩ := exists_cons_of_ne_nil hus.ne_nil
  refine ⟨by simp, hts.spaced.append (isChain_cons_cons.2 ⟨?_, hus.spaced⟩) ?_, ?_, ?_⟩
  · obtain ⟨hsep, hstart⟩ := hus.head u rfl
    exact ⟨by simp [hsep], fun _ => by rw [hstart, ht]; rfl⟩
  · intro s hs t' ht'
    obtain rfl : t = t' := Option.some.inj ht'
    obtain ⟨hsep, hstop⟩ := hts.last s hs
    exact ⟨fun _ => by rw [hstop, ht]; rfl, by simp [hsep]⟩
  · rw [head?_append_of_ne_nil _ hts.ne_nil]
    exact hts.head
  · simpa using hus.last

/-- The visible tokens of lexemes on a line. -/
def visible (line column : Nat) (xs : List Lexeme) : List Token :=
  (tokensFrom line column xs).filter isVisible

theorem visible_append (line column : Nat) (xs ys : List Lexeme) :
    visible line column (xs ++ ys) =
      visible line column xs ++ visible line (column + Text.units16 (chars xs)) ys := by
  simp [visible, tokensFrom_append]

/-- The lexemes fit, wherever they stand. -/
def LexemesFit (xs : List Lexeme) : Prop :=
  ∀ line column, Fits line column (column + Text.units16 (chars xs)) (visible line column xs)

theorem LexemesFit.append {xs ys : List Lexeme} (hxs : LexemesFit xs) (hys : LexemesFit ys) :
    LexemesFit (xs ++ ys) := by
  intro line column
  rw [visible_append, chars_append, Text.units16_append, ← Nat.add_assoc]
  exact (hxs line column).append (hys line _)

/-- A comma or a colon, with a space behind it, fits between lexemes that fit. -/
theorem LexemesFit.separator {xs ys : List Lexeme} (hxs : LexemesFit xs) (hys : LexemesFit ys)
    (blocks : List BlockKind) {c : Char} {k : Category}
    (hsep : (c, k) ∈ [(',', Category.comma), (':', .colon)]) :
    LexemesFit (xs ++ ⟨[c], k, blocks⟩ :: ⟨[' '], .blank, blocks⟩ :: ys) := by
  intro line column
  have hwidth : Text.unitWidth c = 1 := by
    simp only [mem_cons, Prod.mk.injEq, not_mem_nil, or_false] at hsep
    rcases hsep with ⟨rfl, -⟩ | ⟨rfl, -⟩ <;> decide
  have hvisible : isVisible (token line (column + Text.units16 (chars xs))
      ⟨[c], k, blocks⟩) = true := by
    simp only [mem_cons, Prod.mk.injEq, not_mem_nil, or_false] at hsep
    rcases hsep with ⟨rfl, rfl⟩ | ⟨rfl, rfl⟩ <;> rfl
  have hblank : ∀ column, isVisible (token line column ⟨[' '], .blank, blocks⟩) = false := by
    intro column
    simp [isVisible, Token.isBlank, Token.isIgnored, token, Category.tokenKind,
      Text.allBlank, Text.isBlank]
  have hspace : Text.unitWidth ' ' = 1 := by decide
  have hfits := (hxs line column).separator
    (t := token line (column + Text.units16 (chars xs)) ⟨[c], k, blocks⟩)
    (by simp [token, hwidth]) (hys line _)
  rw [visible_append]
  simp only [visible, tokensFrom_cons, filter_cons, hvisible, hblank, if_true,
    Bool.false_eq_true, if_false, Text.units16_cons, Text.units16_nil, hwidth, hspace,
    chars_append, chars_cons, Text.units16_append, Nat.add_zero] at hfits ⊢
  convert hfits using 1
  omega

/-- Whether a category is neither that of blanks and comments nor that of a separator. -/
def isSolid (k : Category) : Bool :=
  !k.tokenKind matches .ignored | .comma | .colon | .newline

theorem lexemesFit_singleton {x : Lexeme} (h : isSolid x.category = true) : LexemesFit [x] := by
  intro line column
  have hkind : x.category.tokenKind ≠ .ignored ∧ x.category.tokenKind ≠ .comma ∧
      x.category.tokenKind ≠ .colon ∧ x.category.tokenKind ≠ .newline := by
    refine ⟨?_, ?_, ?_, ?_⟩ <;>
      · intro heq
        simp [isSolid, heq] at h
  obtain ⟨hignored, hcomma, hcolon, hnewline⟩ := hkind
  have hvisible : isVisible (x.token line column) = true := by
    simp [isVisible, Token.isBlank, Token.isIgnored, token, hignored, hnewline]
  have hsep : isSeparator (x.token line column) = false := by
    simp [isSeparator, token, hcomma, hcolon]
  have heq : visible line column [x] = [x.token line column] := by simp [visible, hvisible]
  rw [heq]
  refine ⟨by simp, .singleton _, ?_, ?_⟩
  · intro t ht
    obtain rfl : x.token line column = t := Option.some.inj ht
    exact ⟨hsep, rfl⟩
  · intro t ht
    obtain rfl : x.token line column = t := Option.some.inj ht
    exact ⟨hsep, by simp [token, Range.onLine]⟩

theorem lexemesFit_of_solid {xs : List Lexeme} (hne : xs ≠ [])
    (h : ∀ x ∈ xs, isSolid x.category = true) : LexemesFit xs := by
  induction xs with
  | nil => exact absurd rfl hne
  | cons x xs ih =>
    have hx := lexemesFit_singleton (h x (by simp))
    by_cases hxs : xs = []
    · rw [hxs]
      exact hx
    · exact hx.append (ih hxs fun y hy => h y (mem_cons_of_mem x hy))

theorem isSolid_of_mem_stringLexemes (blocks : List BlockKind) (cs : List Char) :
    ∀ x ∈ Scalar.stringLexemes blocks cs, isSolid x.category = true := by
  refine Scalar.stringLexemes_induction
    (P := fun _ xs => ∀ x ∈ xs, isSolid x.category = true) (by simp) ?_ ?_ cs
  · intro c cs xs _ hxs x hx
    rcases mem_cons.1 hx with rfl | hx
    · rfl
    · exact hxs x hx
  · intro c own cs _ _ hcs x hx
    rcases mem_cons.1 hx with rfl | hx
    · rfl
    · exact hcs x hx

theorem lexemesFit_scalar (blocks : List BlockKind) (s : Scalar) :
    LexemesFit (s.lexemes blocks) := by
  cases s with
  | int v | float v | boolean v => exact lexemesFit_singleton rfl
  | string v =>
    refine lexemesFit_of_solid (by simp [Scalar.lexemes]) fun x hx => ?_
    simp only [Scalar.lexemes, mem_cons, mem_append, not_mem_nil, or_false] at hx
    rcases hx with rfl | hx | rfl
    · rfl
    · exact isSolid_of_mem_stringLexemes blocks v.toList x hx
    · rfl

theorem lexemesFit_separated (blocks : List BlockKind) {parts : List (List Lexeme)}
    (h : ∀ xs ∈ parts, LexemesFit xs) (hne : parts ≠ []) :
    LexemesFit (Value.separated blocks parts) := by
  fun_induction Value.separated blocks parts with
  | case1 => exact absurd rfl hne
  | case2 xs => exact h xs (by simp)
  | case3 xs more hmore ih =>
    have hrest := ih (fun ys hys => h ys (mem_cons_of_mem xs hys)) hmore
    exact (h xs (by simp)).separator hrest blocks (by simp)

theorem lexemesFit_bracketed (kind : BlockKind) (blocks : List BlockKind)
    {parts : List (List Lexeme)} (h : ∀ xs ∈ parts, LexemesFit xs) :
    LexemesFit (Value.bracketed kind blocks parts) := by
  have hopening : LexemesFit [⟨[kind.openChar], .bracket kind .opening, kind :: blocks⟩] :=
    lexemesFit_singleton rfl
  have hclosing : LexemesFit [⟨[kind.closeChar], .bracket kind .closing, kind :: blocks⟩] :=
    lexemesFit_singleton rfl
  by_cases hne : parts = []
  · rw [hne]
    exact hopening.append hclosing
  · exact hopening.append ((lexemesFit_separated (kind :: blocks) h hne).append hclosing)

/-- The lexemes of a value that can be written are spaced as they should be. -/
theorem lexemesFit_lexemes (blocks : List BlockKind) {v : Value} (h : v.isEncodable = true) :
    LexemesFit (v.lexemes blocks) := by
  refine Value.lexemes_induction (P := fun _ xs => LexemesFit xs) ?_ ?_ ?_ ?_ ?_ blocks v h
  · exact fun blocks s _ => lexemesFit_scalar blocks s
  · exact fun blocks kind parts hparts => lexemesFit_bracketed kind blocks hparts
  · intro blocks key xs _ hxs
    have hkey : LexemesFit [⟨key.toList, .key, blocks⟩] := lexemesFit_singleton rfl
    exact hkey.separator hxs blocks (by simp)
  · exact fun blocks tag _ => lexemesFit_singleton rfl
  · intro blocks tag kind parts _ hparts
    have htag : LexemesFit [⟨'#' :: tag.toList, .tag, blocks⟩] := lexemesFit_singleton rfl
    exact htag.append hparts

/-- No block is around the first position of a document. -/
theorem depthAt_origin (d : Data) : d.depthAt .origin = 0 := by
  have hoff : ∀ r : Range, (r.contract 1 1).contains .origin = false := by
    intro r
    rw [Bool.eq_false_iff, ne_eq, Range.contains_iff, not_and_or, Position.not_le]
    left
    simp only [Position.lt_def, Range.contract, Position.origin]
    omega
  have hblock : ∀ b : Block Data, Data.blockDepthAt .origin b = 0 := by
    intro b
    obtain ⟨contents, range, tokens⟩ := b
    have hneg : ¬(range.contract 1 1).contains .origin = true := by simp [hoff range]
    cases contents with
    | dict | array | tuple => exact if_neg hneg
  cases d with
  | primitive => rfl
  | block b => exact hblock b
  | enum _ _ payload =>
    cases payload with
    | none => rfl
    | some b => exact hblock b

/-- A line that starts and ends with something visible, its tokens spaced as they should be, with no
block that goes beyond it. -/
theorem lint_eq_nil {cs : List Char} (hcs : Text.Tight cs) {ts : List Token}
    (hts : (ts.filter isVisible).IsChain Spaced) {d : Data}
    (hd : ∀ b ∈ d.blocks, b.range.isMultiline = false) (settings : LayoutSettings) :
    lint settings [cs] ts d = [] := by
  have htrailing : ∀ r : Row, r.text = cs → trailingBlanks r = [] := by
    intro r hr
    simp [trailingBlanks, hr, hcs.trimEnd_eq]
  have hindent : ∀ r : Row, r.text = cs → r.number = 0 → indentation settings d r = [] := by
    intro r hr hn
    have hdepth := depthAt_origin d
    rw [Position.origin] at hdepth
    simp [indentation, hr, hn, hcs.indent_eq, indentAt, hdepth]
  have hbreaks : d.blocks.flatMap (lineBreaks (indentAt settings d) ts.toArray) = [] := by
    rw [flatMap_eq_nil_iff]
    intro b hb
    unfold lineBreaks
    simp only [hd b hb, Bool.false_and]
    split <;> rfl
  simp [lint, rows, htrailing, hindent, padding_eq_nil hts, hbreaks]

/-- Such a line asks for an indent at its first column only, where it has none. -/
theorem lint?_eq_some_nil {cs : List Char} (hcs : Text.Tight cs) {ts : List Token}
    (hts : (ts.filter isVisible).IsChain Spaced) {d : Data}
    (hd : ∀ b ∈ d.blocks, b.range.isMultiline = false) (settings : LayoutSettings) :
    lint? settings [cs] ts d = some [] := by
  have hasks : ∀ p ∈ asks [cs] ts d, p = .origin := by
    intro p hp
    rcases mem_append.1 hp with hp | hp
    · obtain ⟨r, hr, hp⟩ := mem_flatMap.1 hp
      obtain rfl : r = ⟨0, cs, (lineTokens ts).getD 0 []⟩ := by simpa [rows] using hr
      obtain ⟨-, hp⟩ := mem_ite_nil_left.1 hp
      rw [mem_singleton.1 hp, hcs.indent_eq]
      rfl
    · obtain ⟨b, hb, hp⟩ := mem_flatMap.1 hp
      simp [blockAsks, hd b hb] at hp
  refine lint?_eq_some_iff.2 ⟨fun p hp => ?_, lint_eq_nil hcs hts hd settings⟩
  rw [hasks p hp, depthAt_origin, Nat.mul_zero]
  decide

end Layout

/-! ### Reading -/

namespace Value

open Chunk

/-- The chunks of a source text are one that means the value and the newline behind it. -/
theorem exists_ofTokens_source {v : Value} (h : v.isEncodable = true) :
    ∃ c r t, Means c v ∧
      Chunk.ofTokens (tokensOf v.source) = ([c, .separator true r t], ⟨[]⟩) := by
  obtain ⟨c, hmeans, hreads⟩ := exists_reads [] 0 0 v h {} rfl
  obtain ⟨last, hrun⟩ := hreads.run_break (t := Token.newline 0 (Text.units16 v.sourceChars))
    (.inr (.inl rfl))
  rw [Builder.step_newline _ _ _ _ rfl, ← tokensOf_source h] at hrun
  refine ⟨c, (Token.newline 0 (Text.units16 v.sourceChars)).range,
    .single (tokensFrom 0 0 (v.lexemes [])).length, hmeans, ?_⟩
  rw [Chunk.ofTokens, ← Builder.run, hrun]
  simp [Builder.finish, Builder.settle, Builder.resume, Builder.pushAll, Builder.result]

/-- A chunk that means a value, with a newline behind it, is a document without findings. -/
theorem ofChunks_of_data {c : Chunk} {d : Data} (hdata : c.data? = some (d, [])) (r : Range)
    (t : TokenRange) : Data.ofChunks [c, .separator true r t] ⟨[]⟩ = (some d, ⟨[]⟩) := by
  have hc : c.isValue = true ∧ c.illegalTopLevel = [] := by
    cases c with
    | key name nameRange r t => cases hdata
    | separator weak r t => cases hdata
    | block b => exact ⟨rfl, rfl⟩
    | enum tag tagRange payload r t => exact ⟨rfl, rfl⟩
    | value s r t => exact ⟨rfl, rfl⟩
  have hsep : (Chunk.separator true r t).isValue = false ∧
      (Chunk.separator true r t).illegalTopLevel = [] := ⟨rfl, rfl⟩
  simp [Data.ofChunks, hc, hsep, hdata, Report.merge, Report.canContinue]

/-- **Written values read back.** -/
theorem parse_source (v : Value) (h : v.isEncodable = true) :
    ∃ d, (parse v.source).data = some d ∧ d.value = v ∧
      (parse v.source).report.diagnostics = [] ∧
      ∀ settings : LayoutSettings, Layout.lint? settings (parse v.source).lines
        (parse v.source).tokens d = some [] := by
  obtain ⟨c, r, t, ⟨d, hdata, hvalue, hblocks⟩, hchunks⟩ := exists_ofTokens_source h
  have hparse : parse v.source = ⟨v.source, tokensOf v.source,
      [c, .separator true r t], some d, ⟨[]⟩⟩ := by
    simp [parse, hchunks, ofChunks_of_data hdata]
  rw [hparse]
  refine ⟨d, rfl, hvalue, rfl, fun settings => ?_⟩
  rw [lines, linesOf_source h, tokensOf_source h]
  refine Layout.lint?_eq_some_nil (tight_source h) ?_ hblocks settings
  -- the newline at the end is not looked at
  have hvisible : (tokensFrom 0 0 (v.lexemes []) ++
      [Token.newline 0 (Text.units16 v.sourceChars)]).filter Layout.isVisible =
        Layout.visible 0 0 (v.lexemes []) := by
    rw [filter_append, Layout.visible]
    exact append_nil _
  rw [hvisible]
  exact (Layout.lexemesFit_lexemes [] h 0 0).spaced

/-- A key that looks like a literal, a unit tag in front of a block, escapes and a float with a
power of ten. -/
theorem parse_source_of_mixed :
    let v : Value := .dict
      [("true", .array [.enum "A" none, .tuple [.scalar (.int (-7))]]),
       ("_1", .enum "B" (some (.dict [])) ),
       ("s", .scalar (.string "\"\t\x01é")),
       ("f", .scalar (.float (.ofMagnitude true 1)))]
    v.isEncodable = true ∧ ∃ d, (parse v.source).data = some d ∧ d.value = v ∧
      (parse v.source).report.diagnostics = [] ∧
      ∀ settings : LayoutSettings, Layout.lint? settings (parse v.source).lines
        (parse v.source).tokens d = some [] :=
  ⟨by decide +kernel, parse_source _ (by decide +kernel)⟩

end Value

end TypedNotation
