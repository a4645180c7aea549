import TypedNotation.Proofs.LinePlaces
import TypedNotation.Proofs.StringLayout

/-!
# Two counts of blocks agree

The scanner keeps the open blocks on a stack and writes their number into every token. The layout
goes down the data and counts the blocks whose inside has a place. In a document without errors the
two agree, up to the block that a bracket opens or closes itself (`Document.Accepted.depth_eq`).

What links them are the brackets. A move of the scanner adds to the stack what its token adds to the
number of open brackets, unless a closing bracket skips blocks (`Visit.Level`), which none does in a
document without errors. So along a walk the stack is as high as the tokens in front say
(`Walk.length_blocks`), and that many blocks the layout counts (`Document.Accepted.depthAt_eq`).

The indent of a line goes by the number of blocks around its first token that is no blank
(`Document.indentation_follows_token_depth`), even where that token, a comment from the line before,
starts in front of the place that the layout looks at.
-/

namespace TypedNotation

open List Layout Text LineState Chunk
open Token (balance)

/-- The number of blocks around a token as the scanner tells it. A bracket is not inside of its
block. -/
def Token.enclosing (t : Token) : Nat :=
  if isBracket t then t.depth - 1 else t.depth

/-! ### The stack of the scanner -/

namespace Scanner

/-- A step to a bracket, or one inside of the blocks that are open. -/
def Keeps (s : Scanner) (step : Step) : Prop :=
  step.blocks = s.blocks ∨ ∃ kind side, step.category = .bracket kind side

theorem Takes.blocks_eq_or_bracket {s next : Scanner} {x : Lexeme} (h : s.Takes x next) :
    x.blocks = s.blocks ∨ ∃ kind side, x.category = .bracket kind side := by
  cases h with
  | opening kind => exact .inr ⟨kind, .opening, rfl⟩
  | @closing _ _ _ kind => exact .inr ⟨kind, .closing, rfl⟩
  | _ => exact .inl rfl

theorem Finds.keeps {s : Scanner} {c : Char} {cs : List Char} {t : Step} (h : s.Finds c cs t) :
    s.Keeps t := by
  cases h with
  | lexeme _ h => exact h.takes.blocks_eq_or_bracket
  | blank | illegal | badEscape => exact .inl rfl

theorem depth_of_mem_visits {s : Scanner} {line column : Nat} {cs : List Char} {v : Visit}
    (hv : v ∈ s.visits line column cs) (hbracket : isBracket v.token = false) :
    v.token.depth = v.before.blocks.length := by
  fun_induction visits s line column cs with
  | case1 => cases hv
  | case2 s column c cs t x ih =>
    rcases mem_cons.1 hv with rfl | hv
    · refine congrArg List.length ((s.finds_step c cs).keeps.resolve_right ?_)
      rintro ⟨kind, side, hcategory⟩
      simp [isBracket, Lexeme.token, x, t, hcategory, Category.tokenKind] at hbracket
    · exact ih hv

end Scanner

theorem LineState.depth_of_mem_visitsOfLines {s : LineState} {line : Nat} {lines : List (List Char)}
    {v : Visit} (hv : v ∈ s.visitsOfLines line lines) (hbracket : isBracket v.token = false)
    (hkind : v.token.kind ≠ .newline) : v.token.depth = v.before.blocks.length := by
  induction lines generalizing s line with
  | nil => cases hv
  | cons text lines ih =>
    rw [visitsOfLines, visits, append_assoc] at hv
    rcases mem_append.1 hv with hv | hv
    · exact Scanner.depth_of_mem_visits hv hbracket
    · rcases mem_cons.1 hv with rfl | hv
      · exact absurd rfl hkind
      · exact ih hv

/-! ### Moves and brackets -/

/-- A visit after which the stack of the scanner is higher or lower as the token says, with a token
that knows how high it was. -/
structure Visit.Level (v : Visit) : Prop where
  turn : (v.after.blocks.length : Int) = v.before.blocks.length + v.token.kind.turn
  depth : v.token.kind ≠ .newline → (v.token.depth : Int) =
    v.before.blocks.length - (if v.token.kind.isClosing then 1 else 0) +
      if isBracket v.token then 1 else 0

namespace Scanner.Moves

variable {s next : Scanner} {t : Token}

theorem blocks_eq (h : s.Moves t next) (ht : isBracket t = false) :
    next.blocks = s.blocks := by
  cases h with
  | openBlock _ hkind | closeBlock _ hkind => simp [isBracket, hkind] at ht
  | _ => rfl

theorem of_opening {kind : BlockKind} (h : s.Moves t next) (ht : t.kind = .bracket kind .opening) :
    t.depth = s.blocks.length + 1 ∧ next.blocks = kind :: s.blocks := by
  cases h with
  | @openBlock kind' _ ht' hdepth =>
    obtain rfl : kind' = kind := by simpa [ht] using ht'.symm
    exact ⟨hdepth, rfl⟩
  | _ => simp_all [TokenKind.isItem, Builder.keepsString]

/-- Only a closing bracket that skips blocks is not level. -/
theorem level (h : s.Moves t next)
    (hskips : Visit.skips ⟨s.toLineState, t, next.toLineState⟩ = false)
    (hdepth : isBracket t = false → t.kind ≠ .newline → t.depth = s.blocks.length) :
    Visit.Level ⟨s.toLineState, t, next.toLineState⟩ := by
  cases hbracket : isBracket t with
  | false =>
    have hclosing : t.kind.isClosing = false := by
      cases hk : t.kind.isClosing with
      | false => rfl
      | true =>
        obtain ⟨kind, hkind⟩ := TokenKind.isClosing_iff.1 hk
        simp [isBracket, hkind] at hbracket
    refine ⟨?_, fun hkind => ?_⟩
    · simp [h.blocks_eq hbracket, Token.turn_of_isBracket hbracket]
    · simp [hbracket, hclosing, hdepth hbracket hkind]
  | true =>
    obtain ⟨kind, side, ht⟩ := exists_of_isBracket hbracket
    cases side with
    | opening =>
      obtain ⟨hheight, hnext⟩ := h.of_opening ht
      refine ⟨?_, fun _ => ?_⟩
      · simp [hnext, ht, TokenKind.turn]
      · simp [hbracket, hheight, ht, TokenKind.isClosing]
    | closing =>
      obtain ⟨skipped, outer, -, hblocks, -, hheight, hnext⟩ := h.of_closing ht
      -- the bracket ends its own block and no other, so the stack loses one entry
      have hnone : skipped = [] := by
        simp only [Visit.skips, ht, hblocks, hnext, length_append, length_cons,
          decide_eq_false_iff_not] at hskips
        exact eq_nil_of_length_eq_zero (by omega)
      refine ⟨?_, fun _ => ?_⟩
      · simp [hnext, hblocks, hnone, ht, TokenKind.turn]
      · simp [hbracket, hheight, hblocks, hnone, ht, TokenKind.isClosing]

end Scanner.Moves

namespace Walk

variable {s last : Scanner} {vs : List Visit}

theorem level (h : Walk s vs last) (hskips : ∀ v ∈ vs, v.skips = false)
    (hdepth : ∀ v ∈ vs, isBracket v.token = false → v.token.kind ≠ .newline →
      v.token.depth = v.before.blocks.length) : ∀ v ∈ vs, v.Level := by
  induction h with
  | nil => simp
  | cons hmoves _ ih =>
    obtain ⟨hskip, hskips⟩ := forall_mem_cons.1 hskips
    obtain ⟨hown, hdepth⟩ := forall_mem_cons.1 hdepth
    exact forall_mem_cons.2 ⟨hmoves.level hskip hown, ih hskips hdepth⟩

/-- The stack of the scanner is as high as the tokens in front say. -/
theorem length_blocks (h : Walk s vs last) (hlevel : ∀ v ∈ vs, v.Level) {before after : List Visit}
    {v : Visit} (hvs : vs = before ++ v :: after) :
    (v.before.blocks.length : Int) = s.blocks.length + balance (before.map (·.token)) := by
  induction h generalizing before with
  | nil => simp at hvs
  | cons hmoves _ ih =>
    obtain ⟨hown, hlevel⟩ := forall_mem_cons.1 hlevel
    cases before with
    | nil =>
      obtain ⟨rfl, -⟩ := List.cons.inj hvs
      simp
    | cons w before =>
      obtain ⟨rfl, hrest⟩ := List.cons.inj hvs
      rw [ih hlevel hrest, map_cons, Token.balance_cons, ← Int.add_assoc]
      exact congrArg (· + _) hown.turn

end Walk

/-! ### Documents without errors -/

namespace Document.Accepted

variable {text : String} {c : Chunk} {data : Data} (h : Accepted text c data)
include h

/-- No closing bracket skips a block. -/
theorem level : ∀ v ∈ visits text, v.Level := by
  obtain ⟨ds, hds, hcount, -⟩ := (walk_visits text).exists_diagnostics .start
  rw [map_token_visits] at hds
  have hnone : ds = [] := hds.symm.trans h.diagnostics
  rw [hnone, countP_nil] at hcount
  refine (walk_visits text).level (fun v hv => ?_) fun v hv hbracket hkind =>
    depth_of_mem_visitsOfLines hv hbracket hkind
  simpa using countP_eq_zero.1 hcount.symm v hv

/-- **The scanner and the layout count the same blocks.** -/
theorem depth_eq (hfit : Token.BracketsFit (tokensOf text)) {t : Token} (ht : t ∈ tokensOf text)
    (hkind : t.kind ≠ .newline) {p : Position} (hp : t.range.contains p = true) :
    t.depth = data.depthAt p + if isBracket t then 1 else 0 := by
  rw [← map_token_visits] at ht
  obtain ⟨v, hv, rfl⟩ := mem_map.1 ht
  obtain ⟨before, after, hvs⟩ := append_of_mem hv
  have hts : tokensOf text = before.map (·.token) ++ v.token :: after.map (·.token) := by
    rw [← map_token_visits, hvs, map_append, map_cons]
  have hheight := (walk_visits text).length_blocks h.level hvs
  have hdepth := (h.level v hv).depth hkind
  have hcount := h.depthAt_eq hfit hts hp
  simp only [length_nil] at hheight
  have hown : ((if isBracket v.token then 1 else 0 : Nat) : Int) =
      if isBracket v.token then 1 else 0 := by split <;> rfl
  rw [depthIn] at hcount
  omega

end Document.Accepted

/-! ### The first token of a line -/

namespace Text

theorem indent_append_of_allBlank {a : List Char} (h : allBlank a = true) (b : List Char) :
    indent (a ++ b) = a ++ indent b :=
  takeWhile_append_of_pos fun c hc => all_eq_true.1 h c hc

/-- The leading blanks of a text end in its first part that is not blank. -/
theorem units16_indent_append_lt {a : List Char} (h : allBlank a = false) (b : List Char) :
    units16 (indent (a ++ b)) < units16 a := by
  induction a with
  | nil => cases h
  | cons c a ih =>
    rw [cons_append, indent, takeWhile_cons]
    split
    next hc =>
      have hrest : allBlank a = false := by simpa [allBlank, hc] using h
      rw [units16_cons, units16_cons]
      exact Nat.add_lt_add_left (ih hrest) _
    next => exact units16_pos (cons_ne_nil c a)

theorem eq_spaces_iff {cs : List Char} {n : Nat} :
    (cs.all (· == ' ') && units16 cs = n) = true ↔ cs = List.replicate n ' ' := by
  simp only [Bool.and_eq_true, decide_eq_true_eq]
  constructor
  · rintro ⟨hall, hunits⟩
    have hspaces : cs = List.replicate cs.length ' ' :=
      eq_replicate_iff.2 ⟨rfl, fun c hc => by simpa using all_eq_true.1 hall c hc⟩
    rw [hspaces, units16_spaces] at hunits
    rwa [hunits] at hspaces
  · rintro rfl
    exact ⟨by simp, units16_spaces n⟩

end Text

namespace Scanner

/-- Outside of strings a lexeme of blanks is passed over, and no string starts with it. -/
theorem step_of_allBlank {s : Scanner} (hmode : s.mode ≠ .string) {c : Char} {cs : List Char}
    (hblank : allBlank (c :: cs.take (s.step c cs).extra) = true) :
    (s.step c cs).category.tokenKind = .ignored ∧ (s.step c cs).next.mode ≠ .string := by
  have hc : isBlank c = true := all_eq_true.1 hblank c mem_cons_self
  cases hs : s.mode with
  | plain => simp [step, hs, plain, hc, plainStep, Category.tokenKind]
  | string => exact absurd hs hmode
  | comment =>
    simp only [step, hs, comment]
    split <;> simp [plainStep, Category.tokenKind]

/-- The first token that is no blank, on a line that starts outside of a string, has the first
character that is no blank. -/
theorem exists_first_visible {s : Scanner} (hmode : s.mode ≠ .string) {cs : List Char}
    (hcs : allBlank cs = false) (line column : Nat) :
    ∃ t, (Lexeme.tokensFrom line column (s.scan cs).1).find? (fun t => !t.isBlank) = some t ∧
      t.range.contains ⟨line, column + units16 (indent cs)⟩ = true := by
  fun_induction scan s cs generalizing column with
  | case1 => cases hcs
  | case2 s c cs step more last h ih =>
    rw [h] at ih
    have hsplit : c :: cs = (c :: cs.take step.extra) ++ cs.drop step.extra := by simp
    rw [Lexeme.tokensFrom_cons]
    generalize htext : c :: cs.take step.extra = own at hsplit ⊢
    cases hblank : allBlank own with
    | true =>
      obtain ⟨hignored, hnext⟩ := step_of_allBlank hmode (htext ▸ hblank)
      have hrest : allBlank (cs.drop step.extra) = false := by
        rw [hsplit, allBlank, all_append, Bool.and_eq_false_iff] at hcs
        exact hcs.resolve_left (by simpa [allBlank] using hblank)
      obtain ⟨t, ht, hcontains⟩ := ih hnext hrest (column + units16 own)
      refine ⟨t, ?_, ?_⟩
      · rw [find?_cons_of_neg, ht]
        simp [Token.isBlank, Token.isIgnored, Lexeme.token, hblank]
        exact hignored
      · rwa [hsplit, indent_append_of_allBlank hblank, units16_append, ← Nat.add_assoc]
    | false =>
      refine ⟨_, find?_cons_of_pos ?_, ?_⟩
      · simp [Token.isBlank, Lexeme.token, hblank]
      · have hlt := units16_indent_append_lt hblank (cs.drop step.extra)
        rw [hsplit, Range.contains_iff, Position.le_def, Position.lt_def]
        exact ⟨.inr ⟨rfl, Nat.le_add_right _ _⟩, .inr ⟨rfl, Nat.add_lt_add_left hlt _⟩⟩

/-- The first token on a line tells whether the line starts in a string. -/
theorem mode_of_inString {s : Scanner} {cs : List Char} {line column : Nat} {t : Token}
    (ht : (Lexeme.tokensFrom line column (s.scan cs).1).head? = some t)
    (hinside : inString .closing t = true) : s.mode = .string := by
  cases cs with
  | nil => simp [scan] at ht
  | cons c cs =>
    obtain ⟨u, hu, hmoves, -⟩ := s.moves_step c cs line column
    rw [scan, Lexeme.tokensFrom_cons, head?_cons, Option.some.injEq] at ht
    obtain rfl := hu.trans ht
    unfold inString at hinside
    split at hinside
    next escape hkind => exact hmoves.of_stringText hkind
    next side hkind =>
      obtain rfl := eq_of_beq hinside
      exact hmoves.of_closing_quote hkind
    next => cases hinside

end Scanner

/-- The tokens of a line are those that the scanner finds in the state behind the lines above. -/
theorem LineState.tokens_of_mem_rows {s : LineState} {line : Nat} {lines : List (List Char)}
    {r : Row} (hr : r ∈ s.rows line lines) :
    line ≤ r.number ∧ r.tokens = Lexeme.tokensFrom r.number 0
      ((s.afterLines (lines.take (r.number - line))).scan r.text).1 := by
  induction lines generalizing s line with
  | nil => cases hr
  | cons text lines ih =>
    rcases mem_cons.1 hr with rfl | hr
    · simp [afterLines]
    · obtain ⟨hle, htokens⟩ := ih hr
      have hcount : r.number - line = r.number - (line + 1) + 1 := by omega
      refine ⟨by omega, ?_⟩
      rw [htokens, hcount, take_succ_cons]
      rfl

/-! ### Indents -/

namespace Layout

variable {settings : LayoutSettings} {lines : List (List Char)} {ts : List Token} {data : Data}

/-- The rows of a document have different numbers. -/
theorem row_eq_of_number_eq {r r' : Row} (hr : r ∈ rows lines ts) (hr' : r' ∈ rows lines ts)
    (h : r'.number = r.number) : r' = r := by
  obtain ⟨i, hi, rfl⟩ := mem_mapIdx.1 hr
  obtain ⟨j, hj, rfl⟩ := mem_mapIdx.1 hr'
  obtain rfl : j = i := h
  rfl

/-- An indent is found fault with on a line exactly if the rule on indents does so. -/
theorem exists_indentation_iff {r : Row} (hr : r ∈ rows lines ts) :
    (∃ d ∈ lint settings lines ts data, d.kind = .indentation ∧ d.range.start.line = r.number) ↔
      indentation settings data r ≠ [] := by
  have hline : ∀ (r' : Row) d, d ∈ indentation settings data r' →
      d.range.start.line = r'.number := by
    intro r' d hd
    obtain ⟨-, hd⟩ := mem_ite_nil_left.1 hd
    rw [mem_singleton.1 hd]
    rfl
  constructor
  · rintro ⟨d, hd, hkind, hnumber⟩
    simp only [lint, mem_append, mem_flatMap, or_assoc] at hd
    obtain ⟨r', -, hd⟩ | ⟨r', hr', hd⟩ | hd | ⟨b, -, hd⟩ := hd
    · simp [(style_of_mem_trailingBlanks r' d hd).2] at hkind
    · obtain rfl := row_eq_of_number_eq hr hr' ((hline r' d hd).symm.trans hnumber)
      exact ne_nil_of_mem hd
    · simp [(style_of_mem_padding lines _ d hd).2] at hkind
    · simp [(style_of_mem_lineBreaks _ _ b d hd).2] at hkind
  · intro hne
    obtain ⟨d, hd⟩ := exists_mem_of_ne_nil _ hne
    refine ⟨d, ?_, (style_of_mem_indentation settings data r d hd).2, hline r d hd⟩
    simp only [lint, mem_append, mem_flatMap]
    exact .inl (.inl (.inr ⟨r, hr, hd⟩))

end Layout

namespace Document

variable {text : String} {cells : List Cell} {c : Chunk} {data : Data} {r : Row}

/-- The tokens of a line are those found in the state behind the lines above. -/
theorem tokens_of_mem_rows (hr : r ∈ rows (linesOf text) (tokensOf text)) :
    r.tokens = Lexeme.tokensFrom r.number 0
      ((afterLines {} ((linesOf text).take r.number)).scan r.text).1 := by
  rw [tokensOf_eq, rows_eq] at hr
  simpa using (LineState.tokens_of_mem_rows hr).2

/-- Of a line that is not empty, the layout and the scanner know alike whether it starts in a
string. -/
theorem Cut.startsInString_iff (h : Cut text cells)
    (hr : r ∈ rows (linesOf text) (tokensOf text)) (hne : r.text ≠ []) :
    r.startsInString = true ↔
      (afterLines {} ((linesOf text).take r.number)).mode = .string := by
  have htokens := tokens_of_mem_rows hr
  generalize afterLines {} ((linesOf text).take r.number) = start at htokens ⊢
  constructor
  · intro hstarts
    obtain ⟨t, ht, hinside⟩ := (Option.any_eq_true _ _).1 hstarts
    rw [htokens] at ht
    exact Scanner.mode_of_inString ht hinside
  · intro hmode
    obtain ⟨t, ht, hinside⟩ := @Scanner.exists_head_scan ⟨start, false⟩ hmode _ hne r.number 0
    have hhead : r.tokens.head? = some t := by rw [htokens]; exact ht
    have hvalid := h.not_isInvalid (Cut.mem_tokensOf hr (mem_of_head? hhead))
    rw [Row.startsInString, hhead]
    exact hinside.resolve_right (by simp [hvalid])

/-- The layout counts the blocks around the first token of a line that is no blank. -/
theorem Accepted.exists_first_visible (h : Accepted text c data)
    (hfit : Token.BracketsFit (tokensOf text))
    (hr : r ∈ rows (linesOf text) (tokensOf text)) (hblank : allBlank r.text = false)
    (hmode : (afterLines {} ((linesOf text).take r.number)).mode ≠ .string) :
    ∃ t, r.tokens.find? (fun t => !t.isBlank) = some t ∧
      data.depthAt ⟨r.number, units16 (indent r.text)⟩ = t.enclosing := by
  have htokens := tokens_of_mem_rows hr
  obtain ⟨t, ht, hcontains⟩ := @Scanner.exists_first_visible
    ⟨afterLines {} ((linesOf text).take r.number), false⟩ hmode _ hblank r.number 0
  rw [Nat.zero_add] at hcontains
  have hfind : r.tokens.find? (fun t => !t.isBlank) = some t := by rw [htokens]; exact ht
  have hin := mem_of_find?_eq_some hfind
  have hkind : t.kind ≠ .newline := Lexeme.kind_ne_newline_of_mem_tokensFrom (htokens ▸ hin)
  have hdepth := h.depth_eq hfit (Cut.mem_tokensOf hr hin) hkind hcontains
  refine ⟨t, hfind, ?_⟩
  rw [Token.enclosing, hdepth]
  split <;> rfl

theorem Accepted.indentation_ne_nil_iff (h : Accepted text c data) (hcut : Cut text cells)
    (settings : LayoutSettings) (hr : r ∈ rows (linesOf text) (tokensOf text)) :
    indentation settings data r ≠ [] ↔
      allBlank r.text = false ∧
      (afterLines {} ((linesOf text).take r.number)).mode ≠ .string ∧
      ∃ t, r.tokens.find? (fun t => !t.isBlank) = some t ∧
        indent r.text ≠ List.replicate (settings.indentWidth * t.enclosing) ' ' := by
  cases hblank : allBlank r.text with
  | true => simp [indentation, hblank]
  | false =>
    have hne : r.text ≠ [] := by
      intro hnil
      simp [hnil, allBlank] at hblank
    have hstarts := hcut.startsInString_iff hr hne
    by_cases hmode : (afterLines {} ((linesOf text).take r.number)).mode = .string
    · simp [indentation, hstarts.2 hmode, hmode]
    · obtain ⟨t, ht, hdepth⟩ := h.exists_first_visible hcut.bracketsFit hr hblank hmode
      have houtside : r.startsInString = false := Bool.eq_false_iff.2 fun hin =>
        hmode (hstarts.1 hin)
      have hindent : indentation settings data r ≠ [] ↔
          ¬((indent r.text).all (· == ' ') &&
            units16 (indent r.text) = settings.indentWidth * t.enclosing) = true := by
        simp only [indentation, indentAt, hblank, houtside, hdepth, Bool.false_or]
        split
        next hspaces => exact iff_of_false (not_not_intro rfl) (not_not_intro hspaces)
        next hspaces => exact iff_of_true (cons_ne_nil _ _) hspaces
      rw [hindent, eq_spaces_iff]
      simp [hmode, ht]

/-- **Two counts of blocks agree, and indents follow them.** In a document without errors the
scanner writes into every token the number of blocks that the layout finds around it, and one more
into a bracket. So a layout that is computed finds fault with the indents of exactly those lines
that are not blank, do not start in a string and have other leading blanks than the spaces that
their first visible token asks for. It is computed unless an indent that is asked for does not fit
into 32 bits. -/
theorem indentation_follows_token_depth (hdata : (parse text).data = some data)
    (herrors : ∀ d ∈ (parse text).report.diagnostics, d.isError = false) :
    let lines := (parse text).lines
    let tokens := (parse text).tokens
    (∀ t ∈ tokens, t.kind ≠ .newline →
        t.depth = data.depthAt t.range.start + if isBracket t then 1 else 0) ∧
      ∀ settings : LayoutSettings,
        (lint? settings lines tokens data = none ↔
          ∃ p ∈ asks lines tokens data,
            UInt32.size ≤ settings.indentWidth * data.depthAt p) ∧
        ∀ found, lint? settings lines tokens data = some found →
          ∀ r ∈ rows lines tokens,
            (∃ d ∈ found, d.kind = .indentation ∧ d.range.start.line = r.number) ↔
              allBlank r.text = false ∧
              (afterLines {} (lines.take r.number)).mode ≠ .string ∧
              ∃ t, r.tokens.find? (fun t => !t.isBlank) = some t ∧
                indent r.text ≠ List.replicate (settings.indentWidth * t.enclosing) ' ' := by
  have haccepts := accepts_of_data (Option.isSome_of_mem hdata) herrors
  obtain ⟨c, data', haccepted⟩ := exists_accepted haccepts
  obtain rfl : data' = data := Option.some.inj (haccepted.data_eq.symm.trans hdata)
  obtain ⟨cells, hcut⟩ := exists_cut haccepts
  rw [tokens_parse, lines_parse]
  refine ⟨fun t ht hkind => ?_,
    fun settings => ⟨lint?_eq_none_iff, fun found hfound r hr => ?_⟩⟩
  · refine haccepted.depth_eq hcut.bracketsFit ht hkind
      (Range.contains_iff.2 ⟨Position.le_refl _, ?_⟩)
    rw [tokensOf_eq] at ht
    exact (tiles_tokensOfLines {} 0 (linesOf text)).start_lt_stop ht
  · rw [← (lint?_eq_some_iff.1 hfound).2, exists_indentation_iff hr]
    exact haccepted.indentation_ne_nil_iff hcut settings hr

/-- A comment that runs on to the next line, where it starts with a blank and is indented by one
column instead of two. -/
theorem indentation_follows_token_depth_of_comment :
    let document := parse "[\n  #A(\n1\n), /* x\n y */ 2\n]"
    ∃ data found, document.data = some data ∧
      (∀ d ∈ document.report.diagnostics, d.isError = false) ∧
      lint? { indentWidth := 2 } document.lines document.tokens data = some found ∧
      (∀ t ∈ document.tokens, t.kind ≠ .newline →
        t.depth = data.depthAt t.range.start + if isBracket t then 1 else 0) ∧
      ∃ d ∈ found, d.kind = .indentation ∧ d.range.start.line = 4 := by
  intro document
  -- evaluated together, since they all read the same document
  have hrun : (∀ d ∈ document.report.diagnostics, d.isError = false) ∧
      ∃ data ∈ document.data,
        (lint? { indentWidth := 2 } document.lines document.tokens data).isSome = true ∧
        ∃ r ∈ rows document.lines document.tokens, r.number = 4 ∧
          allBlank r.text = false ∧
          (afterLines {} (document.lines.take r.number)).mode ≠ .string ∧
          ∃ t ∈ r.tokens.find? (fun t => !t.isBlank),
            indent r.text ≠ List.replicate (2 * t.enclosing) ' ' := by decide +kernel
  obtain ⟨herrors, data, hdata, hsome, r, hr, hnumber, hfault⟩ := hrun
  obtain ⟨found, hfound⟩ := Option.isSome_iff_exists.1 hsome
  obtain ⟨hdepths, hindents⟩ := indentation_follows_token_depth hdata herrors
  have hfaults := ((hindents { indentWidth := 2 }).2 found hfound r hr).2 hfault
  exact ⟨data, found, hdata, herrors, hfound, hdepths, hnumber ▸ hfaults⟩

/-- Two indents of `2 ^ 31` columns are too wide. The second line starts in two blocks and has no
indent, but it is not found fault with: the analysis breaks off. -/
theorem wide_indent_is_not_judged :
    let document := parse "[[ \n1]]"
    (document.data.isSome = true ∧ ∀ d ∈ document.report.diagnostics, d.isError = false) ∧
      (Analysis.run "x.txt" "[[ \n1]]" {}
        { maxProblems := 1, layout := { indentWidth := 2147483648 } }).brokeOff = true := by
  decide +kernel

end Document

end TypedNotation
