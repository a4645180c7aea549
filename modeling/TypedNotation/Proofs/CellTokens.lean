import TypedNotation.Proofs.Cells

/-!
# Tokens of cells

The one look ahead that `Cell.Reads` leaves out is the end of a word, such as a tag or a number. It
follows if the stops of the cells are accepted by a `Config`, since no two values stand side by side
(`Config.kind_of_step_item`). So each stop is one lexeme, except that a comment takes along the
blanks before it on a line that it runs on to, and those behind it if it takes the rest of the line.

The tokens of a text, the blank ones left out, are therefore the stops of its cells
(`Cell.Reads.shows`), and the text is accepted if its stops are (`Document.Cut.accepts_marksOf`).
-/

namespace TypedNotation

open List Text Scan Lexeme Category

/-! ### Words and what follows them -/

namespace Config

theorem step_of_ignored (c : Config) {m : Mark} (h : m.kind = .ignored) : c.step m = some c :=
  if_pos h

theorem exists_step_of_run {c : Config} {m : Mark} {ms : List Mark}
    (h : (c.run (m :: ms)).isSome = true) :
    ∃ c', c.step m = some c' ∧ (c'.run ms).isSome = true := by
  obtain ⟨last, hlast⟩ := Option.isSome_iff_exists.1 h
  obtain ⟨c', hstep, hrest⟩ := Option.bind_eq_some_iff.1 hlast
  exact ⟨c', hstep, Option.isSome_of_mem hrest⟩

theorem put_value_eq_some {c c' : Config} {wait : Wait}
    (h : c.put Sequence.Level.value wait = some c') : c'.level.phase = .item ∧ c'.wait = wait := by
  obtain ⟨l, hl, rfl⟩ := Option.map_eq_some_iff.1 h
  simp only [Sequence.Level.value, Option.ite_none_right_eq_some, Option.some.injEq] at hl
  rw [← hl.2]
  exact ⟨rfl, rfl⟩

/-- Behind a word the next item is awaited, but it must be separated. -/
theorem phase_of_step_word {c c' : Config} {k : Category} {text : String} (hk : k.isWord = true)
    (h : c.step ⟨k.tokenKind, text⟩ = some c') :
    c'.level.phase = .item ∧ (c'.wait = .nothing ∨ c'.wait = .payload) := by
  have hread : ∀ c : Config, c.read ⟨k.tokenKind, text⟩ = some c' →
      c'.level.phase = .item ∧ (c'.wait = .nothing ∨ c'.wait = .payload) := by
    intro c hc
    cases k <;> cases hk
    · obtain ⟨hphase, hwait⟩ := put_value_eq_some hc
      exact ⟨hphase, .inr hwait⟩
    all_goals
      simp only [read, tokenKind, Option.ite_none_right_eq_some] at hc
      obtain ⟨hphase, hwait⟩ := put_value_eq_some hc.2
      exact ⟨hphase, .inl hwait⟩
  have hignored : k.tokenKind ≠ .ignored := by cases k <;> cases hk <;> decide
  have hcolon : k.tokenKind ≠ .colon := by cases k <;> cases hk <;> decide
  rw [step, if_neg hignored] at h
  split at h
  · exact hread c h
  · exact hread c h
  · rw [if_neg hcolon] at h
    exact hread _ h
  · cases k <;> cases hk <;> cases h

/-- What may follow directly behind an item: what separates it, what ends its block, or its
payload. -/
theorem kind_of_step_item {c : Config} {m : Mark} (hphase : c.level.phase = .item)
    (hwait : c.wait = .nothing ∨ c.wait = .payload) (h : (c.step m).isSome = true) :
    m.kind = .ignored ∨ m.kind = .newline ∨ m.kind = .comma ∨
      ∃ kind side, m.kind = .bracket kind side := by
  have hvalue : c.level.value = none := by
    rw [Sequence.Level.value, if_neg]
    rw [Sequence.Level.takesValue, hphase]
    split <;> decide
  have hkey : ∀ name, c.level.key name = none := by
    intro name
    rw [Sequence.Level.key, if_neg]
    rw [Sequence.Level.takesKey, hphase]
    simp
  have hread : (c.read m).isSome = true → m.kind = .newline ∨ m.kind = .comma ∨
      ∃ kind side, m.kind = .bracket kind side := by
    rw [read]
    split <;> simp_all [put]
  rw [step] at h
  split at h
  next hignored => exact .inl hignored
  next =>
    rcases hwait with hwait | hwait <;> rw [hwait] at h <;> exact .inr (hread h)

end Config

namespace Scan

theorem isNameChar_of_isBlank {c : Char} (h : isBlank c = true) : isNameChar c = false := by
  cases hc : isNameChar c with
  | false => rfl
  | true =>
    rw [isBlank_of_isNameChar hc] at h
    cases h

/-- Blanks in front of a delimiter delimit. -/
theorem Delimits.gap_append {gap rest : List Char} (hgap : ∀ c ∈ gap, isBlank c = true)
    (h : Delimits rest) : Delimits (gap ++ rest) := by
  induction gap with
  | nil => exact h
  | cons c gap ih =>
    have hc := hgap c mem_cons_self
    have hne : ∀ d, isBlank d = false → c ≠ d := by
      rintro d hd rfl
      rw [hc] at hd
      cases hd
    refine ⟨fun d hd => ?_, ?_⟩
    · obtain rfl : c = d := by simpa using hd
      exact ⟨isNameChar_of_isBlank hc, hne '.' (by decide)⟩
    · have hcolon := (ih fun d hd => hgap d (mem_cons_of_mem c hd)).colon
      rw [colonFollows] at hcolon ⊢
      rw [cons_append, dropWhile_cons]
      split
      · exact hcolon
      · simpa using hne ':' (by decide)

theorem colonFollows_gap_append {gap : List Char} (rest : List Char)
    (hgap : ∀ c ∈ gap, c = ' ' ∨ c = '\t') : colonFollows (gap ++ ':' :: rest) = true := by
  induction gap with
  | nil => rfl
  | cons c gap ih =>
    have hrest := ih fun d hd => hgap d (mem_cons_of_mem c hd)
    rw [colonFollows] at hrest ⊢
    rw [cons_append, dropWhile_cons, if_pos (by simpa using hgap c mem_cons_self)]
    exact hrest

theorem not_isNameChar_of_colonFollows {rest : List Char} (h : colonFollows rest = true) :
    ∀ d ∈ rest.head?, isNameChar d = false := by
  intro d hd
  obtain ⟨rest, rfl⟩ := head?_eq_some_iff.1 hd
  rw [colonFollows, dropWhile_cons] at h
  split at h
  next hblank =>
    have hd' : d = ' ' ∨ d = '\t' := by simpa using hblank
    rcases hd' with rfl | rfl <;> decide
  next =>
    obtain rfl : d = ':' := by simpa using h
    decide

/-- A text delimits if its first character does. -/
theorem delimits_cons {c : Char} (rest : List Char) (hc : isNameChar c = false) (hpoint : c ≠ '.')
    (hcolon : c ≠ ':') (hblank : isBlank c = false) : Delimits (c :: rest) := by
  refine ⟨fun d hd => ?_, ?_⟩
  · obtain rfl : c = d := by simpa using hd
    exact ⟨hc, hpoint⟩
  · have hspace : c ≠ ' ' ∧ c ≠ '\t' := by
      constructor <;> rintro rfl <;> cases hblank
    rw [colonFollows, dropWhile_cons, if_neg (by simpa using hspace)]
    simpa using hcolon

end Scan

/-- What a lexeme asks of the rest of its line, if `next` is what is known there. -/
structure Lexeme.Precedes (x : Lexeme) (next : Scanner) (rest : List Char) : Prop where
  word : x.category.isWord = true → Delimits rest
  key : x.category = .key → colonFollows rest = true
  text : x.category = .stringText → ∀ d ∈ rest.head?, d = '"' ∨ d = '\\'
  comment : x.category = .lineComment ∨ next.mode = .comment → ∀ c ∈ rest, isBlank c = true

namespace Scanner

variable {s next : Scanner} {x : Lexeme} {rest : List Char}

/-- Behind a word the text is plain. -/
theorem Takes.mode_of_isWord (h : s.Takes x next) (hx : x.category.isWord = true) :
    next.mode = .plain := by
  cases h <;> first | rfl | cases hx

theorem Takes.mode_of_stringText (h : s.Takes x next) (hx : x.category = .stringText) :
    next.mode = .string := by
  cases h with
  | stringText => rfl
  | number | negative => split at hx <;> cases hx
  | _ => cases hx

theorem Takes.next_of_key (h : s.Takes x next) (hx : x.category = .key) :
    ∃ blocks, next = ⟨⟨blocks, .plain⟩, true⟩ := by
  cases h with
  | key => exact ⟨_, rfl⟩
  | number | negative => split at hx <;> cases hx
  | _ => cases hx

/-- What separates, what opens or closes a block, and a comment delimit the word before them. -/
theorem Takes.delimits (h : s.Takes x next) (hmode : s.mode = .plain)
    (hkind : x.category.tokenKind = .ignored ∨ x.category.tokenKind = .comma ∨
      ∃ kind side, x.category.tokenKind = .bracket kind side) : Delimits (x.text ++ rest) := by
  have hslash : ∀ own, Delimits ('/' :: own) := fun own =>
    delimits_cons own (by decide) (by decide) (by decide) (by decide)
  cases h with
  | comma => exact delimits_comma rest
  | lineComment => exact hslash _
  | comment => exact hslash _
  | openComment => exact hslash _
  | opening kind =>
    cases kind <;>
      exact delimits_cons rest (by decide) (by decide) (by decide) (by decide)
  | closing => exact delimits_closeChar _ rest
  | @number _ _ _ _ _ isFloat | @negative _ _ _ _ _ isFloat =>
    cases isFloat <;> simp [tokenKind] at hkind
  | commentEnd => cases hmode
  | commentMore => cases hmode
  | closingQuote => cases hmode
  | escape => cases hmode
  | stringText => cases hmode
  | _ => simp [tokenKind] at hkind

/-- The parts of a string start with a quote or a backslash, but for its text. -/
theorem Takes.head_of_string (h : s.Takes x next)
    (hx : x.category = .quote .closing ∨ x.category = .escape) :
    ∀ d ∈ (x.text ++ rest).head?, d = '"' ∨ d = '\\' := by
  cases h with
  | closingQuote => simp
  | escape => simp
  | number | negative => split at hx <;> simp at hx
  | _ => simp at hx

end Scanner

namespace Cell

variable {s : Scanner} {y : Cell} {rest : List Cell}

/-- The first line of some cells starts with the first of them. -/
theorem Reads.exists_row (h : Reads s (y :: rest)) :
    ∃ tail more, rows (y :: rest) = (y.gap ++ tail) :: more ∧ (y.stop.isLine = true → tail = []) ∧
      ∀ z, y.stop = .core z → ∃ own, tail = z.text ++ own := by
  cases h with
  | @line _ gap ret rest =>
    refine ⟨[], rows rest, by rw [rows, append_nil], fun _ => rfl, ?_⟩
    rintro z ⟨⟩
  | @core _ _ gap x y rest =>
    refine ⟨x.text ++ (rows (y :: rest)).headD [], (rows (y :: rest)).tail, ?_, ?_, ?_⟩
    · rw [rows]
      split <;> simp_all
    · rintro ⟨⟩
    · rintro z ⟨⟩
      exact ⟨_, rfl⟩

/-- What a lexeme asks of the next cell is what it asks of its line, if the stops are accepted. -/
theorem Reads.precedes {next : Scanner} {x : Lexeme} {c c' : Config} (h : Reads next (y :: rest))
    (htakes : s.Takes x next) (hmeets : x.Meets next y)
    (hstep : c.step (Stop.core x).mark = some c')
    (hrun : (c'.run (marks (y :: rest))).isSome = true) {row : List Char} {more : List (List Char)}
    (hrow : rows (y :: rest) = row :: more) : x.Precedes next row := by
  obtain ⟨tail, more', hrows, hline, hcore⟩ := h.exists_row
  obtain ⟨rfl, rfl⟩ := List.cons.inj (hrow.symm.trans hrows)
  have hgap : next.GapFits y.gap := by cases h <;> assumption
  constructor
  · intro hword
    have hmode := htakes.mode_of_isWord hword
    obtain ⟨hphase, hwait⟩ := Config.phase_of_step_word hword hstep
    obtain ⟨c'', hnext, -⟩ := Config.exists_step_of_run hrun
    refine Delimits.gap_append hgap.blank ?_
    have hkind := Config.kind_of_step_item hphase hwait (Option.isSome_of_mem hnext)
    cases h with
    | line => rw [hline rfl]; exact delimits_nil
    | core _ hz =>
      obtain ⟨own, rfl⟩ := hcore _ rfl
      refine hz.delimits hmode ?_
      rcases hkind with hkind | hkind | hkind
      · exact .inl hkind
      · exact absurd hkind (tokenKind_ne_newline _)
      · exact .inr hkind
  · intro hkey
    obtain ⟨hblanks, blocks, hstop⟩ := hmeets.key hkey
    obtain ⟨own, rfl⟩ := hcore _ hstop
    exact colonFollows_gap_append own hblanks
  · intro htext d hd
    rw [hgap.string (htakes.mode_of_stringText htext), nil_append] at hd
    cases h with
    | line => rw [hline rfl] at hd; cases hd
    | core _ hz =>
      obtain ⟨own, rfl⟩ := hcore _ rfl
      exact hz.head_of_string (hmeets.text htext _ rfl) d hd
  · intro hcomment c hc
    rw [hline (hmeets.comment hcomment), append_nil] at hc
    exact hgap.blank c hc

end Cell

/-! ### Tokens -/

namespace Text

/-- The characters of a text that can be seen. -/
def seen (cs : List Char) : List Char :=
  cs.filter fun c => !isBlank c

theorem seen_append (a b : List Char) : seen (a ++ b) = seen a ++ seen b :=
  filter_append ..

theorem seen_of_blank {cs : List Char} (h : ∀ c ∈ cs, isBlank c = true) : seen cs = [] :=
  filter_eq_nil_iff.2 fun c hc => by simp [h c hc]

end Text

/-- A token is that of a lexeme at a column, up to the blanks that a comment carries along: those in
front, if its start is not known, and those behind it, if its end is not known. -/
structure Token.Displays (t : Token) (line column : Nat) (x : Lexeme) (starts ends : Prop) :
    Prop where
  kind : t.kind = x.category.tokenKind
  text : x.category.isComment = false → t.text = String.ofList x.text
  seen : seen t.text.toList = seen x.text
  startLine : t.range.start.line = line
  stopLine : t.range.stop.line = line
  contains : t.range.contains ⟨line, column⟩ = true
  start : starts → t.range.start.character = column
  stop : ends → t.range.stop.character = column + units16 x.text

theorem Lexeme.displays_token {x y : Lexeme} {starts ends : Prop} (lead trail : List Char)
    (line column : Nat) (hne : x.text ≠ []) (hcategory : y.category = x.category)
    (htext : y.text = lead ++ (x.text ++ trail))
    (hlead : ∀ c ∈ lead, isBlank c = true) (htrail : ∀ c ∈ trail, isBlank c = true)
    (hexact : x.category.isComment = false → lead = [] ∧ trail = []) (hstart : starts → lead = [])
    (hstop : ends → trail = []) :
    (y.token line column).Displays line (column + units16 lead) x starts ends := by
  have hpos := units16_pos hne
  constructor
  · rw [token, hcategory]
  · intro hcomment
    obtain ⟨rfl, rfl⟩ := hexact hcomment
    rw [token, htext]
    simp
  · simp [token, htext, seen_append, seen_of_blank hlead,
      seen_of_blank htrail]
  · rfl
  · rfl
  · have hwidth : units16 y.text =
        units16 lead + (units16 x.text + units16 trail) := by
      rw [htext, units16_append, units16_append]
    rw [Range.contains_iff]
    refine ⟨.inr ⟨rfl, Nat.le_add_right _ _⟩, .inr ⟨rfl, ?_⟩⟩
    simp only [token, Range.onLine, hwidth]
    omega
  · intro h
    simp [token, Range.onLine, hstart h]
  · intro h
    simp [token, Range.onLine, htext, hstop h, Nat.add_assoc]

namespace Scanner

/-- The tokens of the rest of a line that are not blank. -/
def tokensAt (s : Scanner) (line column : Nat) (cs : List Char) : List Token :=
  (tokensFrom line column (s.scan cs).1).filter fun t => !t.isBlank

variable {s next : Scanner} {x : Lexeme} {rest : List Char}

theorem isBlank_token (line column : Nat) (x : Lexeme) :
    (x.token line column).isBlank = (x.category.tokenKind == .ignored && allBlank x.text) := by
  simp [Token.isBlank, Token.isIgnored, token]

/-- A lexeme that can be seen gives a token that is not blank. -/
theorem tokensAt_of_cuts (h : s.Cuts [x] next rest) (line column : Nat)
    (hx : (x.category.tokenKind == .ignored && allBlank x.text) = false) :
    s.tokensAt line column (x.text ++ rest) =
        x.token line column :: next.tokensAt line (column + units16 x.text) rest ∧
      (s.scan (x.text ++ rest)).2 = (next.scan rest).2 := by
  rw [Cuts, chars_cons, chars_nil, append_nil] at h
  rw [tokensAt, h, singleton_append, tokensFrom_cons, filter_cons_of_pos, tokensAt]
  · exact ⟨rfl, rfl⟩
  · rw [isBlank_token, hx]
    rfl

/-- A blank lexeme gives none. -/
theorem tokensAt_of_cuts_blank (h : s.Cuts [x] next rest) (line column : Nat)
    (hx : (x.category.tokenKind == .ignored && allBlank x.text) = true) :
    s.tokensAt line column (x.text ++ rest) = next.tokensAt line (column + units16 x.text)
      rest ∧
      (s.scan (x.text ++ rest)).2 = (next.scan rest).2 := by
  rw [Cuts, chars_cons, chars_nil, append_nil] at h
  rw [tokensAt, h, singleton_append, tokensFrom_cons, filter_cons_of_neg, tokensAt]
  · exact ⟨rfl, rfl⟩
  · rw [isBlank_token, hx]
    decide

/-- A gap in plain text gives no token. -/
theorem tokensAt_gap {gap : List Char} (rest : List Char) (hmode : s.mode = .plain)
    (hgap : ∀ c ∈ gap, isBlank c = true) (hrest : ∀ d ∈ rest.head?, isBlank d = false)
    (line column : Nat) :
    s.tokensAt line column (gap ++ rest) = s.tokensAt line (column + units16 gap) rest ∧
      (s.scan (gap ++ rest)).2 = (s.scan rest).2 := by
  cases gap with
  | nil => exact ⟨rfl, rfl⟩
  | cons c gap =>
    obtain ⟨⟨blocks, mode⟩, afterKey⟩ := s
    obtain rfl : mode = .plain := hmode
    have hcuts := cuts_blank blocks afterKey rest (hgap c mem_cons_self)
      (fun d hd => hgap d (mem_cons_of_mem c hd)) hrest
    exact tokensAt_of_cuts_blank hcuts line column
      (by simpa [tokenKind, allBlank] using hgap)

/-- The end of a comment that runs on. -/
theorem cuts_commentEnd (blocks : List BlockKind) (afterKey : Bool) {own : List Char}
    (h : commentLength? (own ++ rest) = some own.length) :
    Cuts ⟨⟨blocks, .comment⟩, afterKey⟩ [⟨own, .blockComment, blocks⟩] ⟨⟨blocks, .plain⟩, afterKey⟩
      rest := by
  cases own with
  | nil => exact absurd (commentLength?_congr rest [] h) (by simp [commentLength?])
  | cons c own =>
    refine cuts_of_step ?_
    rw [cons_append] at h
    simp [step, comment, h, plainStep]

/-- A line in the middle of a comment. -/
theorem cuts_commentMore (blocks : List BlockKind) (afterKey : Bool) {own : List Char}
    (hne : own ≠ []) (h : commentLength? own = none) :
    Cuts ⟨⟨blocks, .comment⟩, afterKey⟩ [⟨own, .blockComment, blocks⟩]
      ⟨⟨blocks, .comment⟩, afterKey⟩
      [] := by
  cases own with
  | nil => exact absurd rfl hne
  | cons c own =>
    refine cuts_of_step ?_
    simp [step, comment, h, plainStep]

/-- Blanks at the end of a line outside of strings give no token and change nothing. -/
theorem tokensAt_blank (gap : List Char) (hmode : s.mode ≠ .string)
    (hgap : ∀ c ∈ gap, isBlank c = true) (line column : Nat) :
    s.tokensAt line column gap = [] ∧ (s.scan gap).2 = s := by
  cases hs : s.mode with
  | string => exact absurd hs hmode
  | plain =>
    have hnil : s.scan [] = ([], s) := by rw [scan]
    obtain ⟨htokens, hlast⟩ := tokensAt_gap [] hs hgap (by simp) line column
    rw [append_nil] at htokens hlast
    rw [htokens, hlast, tokensAt, hnil]
    exact ⟨rfl, rfl⟩
  | comment =>
    have hnil : s.scan [] = ([], s) := by rw [scan]
    cases gap with
    | nil => rw [tokensAt, hnil]; exact ⟨rfl, rfl⟩
    | cons c gap =>
      obtain ⟨⟨blocks, mode⟩, afterKey⟩ := s
      obtain rfl : mode = .comment := hs
      have hnone : commentLength? (c :: gap) = none := by
        have := commentLength?_blank_append [] hgap
        rwa [append_nil] at this
      have htokens := tokensAt_of_cuts_blank
        (cuts_commentMore blocks afterKey (cons_ne_nil c gap) hnone) line column
        (by simpa [tokenKind, allBlank] using hgap)
      simp only [append_nil] at htokens
      rw [htokens.1, htokens.2, tokensAt, hnil]
      exact ⟨rfl, rfl⟩

/-- A step of the scanner cuts its lexeme off, unless it is a comment that takes the rest of the
line. -/
theorem Takes.cuts (h : s.Takes x next) (hmode : s.mode ≠ .comment) (hrest : x.Precedes next rest)
    (hends : ¬(x.category = .lineComment ∨ next.mode = .comment)) : s.Cuts [x] next rest := by
  cases h with
  | comma => exact cuts_comma _ _ _
  | colon => exact cuts_colon _ _
  | openingQuote => exact cuts_openingQuote _ _ _
  | opening kind => exact cuts_openingBracket _ _ _ kind
  | @closing blocks outer k kind h =>
    refine cuts_of_step ?_
    have hstep : step ⟨⟨blocks, .plain⟩, k⟩ kind.closeChar ([] ++ rest) =
        closeStep ⟨⟨blocks, .plain⟩, k⟩ kind := by cases kind <;> rfl
    rw [hstep, closeStep]
    dsimp only
    rw [h]
    rfl
  | tag hne hname => exact cuts_tag _ _ _ hne hname (hrest.word rfl).not_isNameChar
  | key hc hown =>
    have hcolon := hrest.key rfl
    exact cuts_key _ _ _ hc hown (not_isNameChar_of_colonFollows hcolon) hcolon
  | boolean v => exact cuts_boolean _ _ _ v (hrest.word rfl)
  | @number _ _ _ _ _ isFloat hc h =>
    have hword : Delimits rest := hrest.word (by cases isFloat <;> rfl)
    exact cuts_number _ _ _ hc (numberLength_congr h hword)
  | @negative _ _ _ _ _ isFloat hc h =>
    have hword : Delimits rest := hrest.word (by cases isFloat <;> rfl)
    exact cuts_negative _ _ _ hc (numberLength_congr h hword)
  | lineComment => exact absurd (.inl rfl) hends
  | @comment blocks k own h =>
    have hlength := commentLength?_congr [] rest (by rwa [append_nil])
    refine cuts_of_step ?_
    simp [step, plain, isBlank, hlength, plainStep]
  | openComment => exact absurd (.inr rfl) hends
  | commentEnd | commentMore => exact absurd rfl hmode
  | closingQuote => exact cuts_closingQuote _ _ _
  | escape h => exact cuts_escape _ _ _ (escapeLength?_congr h)
  | stringText h => exact cuts_stringText _ _ _ h (hrest.text rfl)

/-- A comment that takes the rest of the line takes the blanks at its end, too. -/
theorem Takes.cuts_rest (h : s.Takes x next) (hmode : s.mode ≠ .comment)
    (hrest : x.Precedes next rest) (hends : x.category = .lineComment ∨ next.mode = .comment) :
    s.Cuts [⟨x.text ++ rest, x.category, x.blocks⟩] next [] := by
  have hblank := hrest.comment hends
  cases h with
  | lineComment =>
    refine cuts_of_step ?_
    simp [step, plain, isBlank, plainStep]
  | @openComment _ _ own h =>
    have hnone : commentLength? (own ++ rest) = none :=
      commentLength?_append_blank h hblank
    refine cuts_of_step ?_
    simp [step, plain, isBlank, plainStep, hnone]
  | commentEnd | commentMore => exact absurd rfl hmode
  | number | negative => split at hends <;> simp at hends
  | _ => simp at hends

/-- In plain text nothing starts with a blank. -/
theorem Takes.head_of_plain (h : s.Takes x next) (hmode : s.mode = .plain) (hx : x.Whole) :
    ∀ c ∈ x.text.head?, isBlank c = false := by
  cases hstring : x.category.inString with
  | false => exact hx.head hstring
  | true =>
    cases h with
    | openingQuote => simp [isBlank]
    | closingQuote => cases hmode
    | escape => cases hmode
    | stringText => cases hmode
    | number | negative => split at hstring <;> cases hstring
    | _ => cases hstring

/-- A lexeme that is whole can be seen. -/
theorem Takes.not_blank (h : s.Takes x next) (hx : x.Whole) (lead trail : List Char) :
    (x.category.tokenKind == .ignored && allBlank (lead ++ (x.text ++ trail))) = false := by
  obtain ⟨c, own, htext⟩ := exists_cons_of_ne_nil h.text_ne_nil
  cases hstring : x.category.inString with
  | true =>
    have hkind : x.category.tokenKind ≠ .ignored := by
      cases hk : x.category <;> simp_all [inString, tokenKind]
    simp [hkind]
  | false =>
    have hc : isBlank c = false := hx.head hstring c (by rw [htext]; rfl)
    simp [allBlank, htext, hc]

/-- The first token of a line that starts with a gap and a lexeme is one of the lexeme, and the
other tokens are those of the rest. -/
def ShowsFirst (s next : Scanner) (gap : List Char) (x : Lexeme) (rest : List Char)
    (line column : Nat) : Prop :=
  ∃ t, s.tokensAt line column (gap ++ (x.text ++ rest)) =
      t :: next.tokensAt line (column + units16 gap + units16 x.text) rest ∧
    (s.scan (gap ++ (x.text ++ rest))).2 = (next.scan rest).2 ∧
    t.Displays line (column + units16 gap) x (s.mode ≠ .comment)
      ¬(x.category = .lineComment ∨ next.mode = .comment)

/-- A comment that runs on takes the gap along into its token. -/
theorem Takes.showsFirst_of_comment (h : s.Takes x next) (hmode : s.mode = .comment)
    {gap : List Char} (hgap : s.GapFits gap) (hx : x.Whole) (hrest : x.Precedes next rest)
    (line column : Nat) : s.ShowsFirst next gap x rest line column := by
  have htakes := h
  cases h with
  | @commentEnd blocks k own h =>
    have hlength : commentLength? (gap ++ own ++ rest) = some (gap ++ own).length := by
      rw [append_assoc, commentLength?_blank_append _ hgap.blank,
        commentLength?_congr [] rest (by rwa [append_nil]), length_append,
        Nat.add_comm]
      rfl
    have hvisible := htakes.not_blank hx gap []
    rw [append_nil] at hvisible
    obtain ⟨htokens, hlast⟩ := tokensAt_of_cuts (cuts_commentEnd blocks k hlength) line column
      hvisible
    rw [append_assoc, units16_append, ← Nat.add_assoc] at htokens
    rw [append_assoc] at hlast
    refine ⟨_, htokens, hlast, ?_⟩
    exact displays_token gap [] line column
      htakes.text_ne_nil rfl (by simp) hgap.blank (by simp) (by rintro ⟨⟩)
      (fun hstart => absurd rfl hstart) (fun _ => rfl)
  | @commentMore blocks k own hne h =>
    have hblank := hrest.comment (.inr rfl)
    have hnone : commentLength? (gap ++ (own ++ rest)) = none := by
      rw [commentLength?_blank_append _ hgap.blank, commentLength?_append_blank h hblank]
      rfl
    have hvisible := htakes.not_blank hx gap rest
    have hne' : gap ++ (own ++ rest) ≠ [] := by simp [hne]
    obtain ⟨htokens, hlast⟩ := tokensAt_of_cuts (cuts_commentMore blocks k hne' hnone) line column
      hvisible
    obtain ⟨hnext, hstay⟩ := tokensAt_blank (s := ⟨⟨blocks, .comment⟩, k⟩) rest (by simp) hblank
      line (column + units16 gap + units16 own)
    obtain ⟨hnil, hend⟩ := tokensAt_blank (s := ⟨⟨blocks, .comment⟩, k⟩) [] (by simp) (by simp)
      line (column + units16 (gap ++ (own ++ rest)))
    rw [append_nil, hnil] at htokens
    rw [append_nil, hend] at hlast
    refine ⟨_, by rw [hnext]; exact htokens, by rw [hstay]; exact hlast, ?_⟩
    exact displays_token gap rest line column hne rfl rfl hgap.blank hblank (by rintro ⟨⟩)
      (fun hstart => absurd rfl hstart) (fun hends => absurd (.inr rfl) hends)
  | _ => cases hmode

/-- Outside comments a lexeme has a token from its first character on. A comment that reaches the
end of the line takes the blanks there along. -/
theorem Takes.showsFirst_of_ne_comment (h : s.Takes x next) (hmode : s.mode ≠ .comment)
    (hx : x.Whole) (hrest : x.Precedes next rest) (line column : Nat) :
    s.ShowsFirst next [] x rest line column := by
  by_cases hends : x.category = .lineComment ∨ next.mode = .comment
  · have hblank := hrest.comment hends
    have hnext : next.mode ≠ .string := by
      rcases hends with hends | hends
      · cases h <;> simp_all
      · simp [hends]
    obtain ⟨htokens, hlast⟩ := tokensAt_of_cuts (h.cuts_rest hmode hrest hends) line
      column (h.not_blank hx [] rest)
    obtain ⟨hrests, hstay⟩ := tokensAt_blank rest hnext hblank line
      (column + units16 x.text)
    obtain ⟨hnil, hend⟩ := tokensAt_blank [] hnext (by simp) line
      (column + units16 (x.text ++ rest))
    rw [append_nil, hnil] at htokens
    rw [append_nil, hend] at hlast
    have hcomment : x.category.isComment = true := by
      cases h <;> simp_all [isComment]
    refine ⟨_, htokens.trans (congrArg (_ :: ·) hrests.symm), hlast.trans hstay.symm, ?_⟩
    exact displays_token [] rest line column h.text_ne_nil rfl rfl
      (by simp) hblank (by simp [hcomment]) (fun _ => rfl) (fun h => absurd hends h)
  · have hvisible := h.not_blank hx [] []
    rw [append_nil, nil_append] at hvisible
    obtain ⟨htokens, hlast⟩ := tokensAt_of_cuts (h.cuts hmode hrest hends) line
      column hvisible
    refine ⟨_, htokens, hlast, ?_⟩
    exact displays_token [] [] line column h.text_ne_nil
      rfl (by simp) (by simp) (by simp) (fun _ => ⟨rfl, rfl⟩) (fun _ => rfl) (fun _ => rfl)

/-- **A step gives a token.** The tokens of a line that starts with a gap and a lexeme are a token
of the lexeme and the tokens of the rest. -/
theorem Takes.showsFirst (h : s.Takes x next) {gap : List Char} (hgap : s.GapFits gap)
    (hx : x.Whole) (hrest : x.Precedes next rest) (line column : Nat) :
    s.ShowsFirst next gap x rest line column := by
  by_cases hmode : s.mode = .comment
  · exact h.showsFirst_of_comment hmode hgap hx hrest line column
  · have hlead : s.tokensAt line column (gap ++ (x.text ++ rest)) =
          s.tokensAt line (column + units16 gap) (x.text ++ rest) ∧
        (s.scan (gap ++ (x.text ++ rest))).2 = (s.scan (x.text ++ rest)).2 := by
      cases hs : s.mode with
      | comment => exact absurd hs hmode
      | string => rw [hgap.string hs]; exact ⟨rfl, rfl⟩
      | plain =>
        refine tokensAt_gap _ hs hgap.blank ?_ line column
        obtain ⟨c, own, htext⟩ := exists_cons_of_ne_nil h.text_ne_nil
        have hhead := h.head_of_plain hs hx
        rw [htext] at hhead ⊢
        exact hhead
    rw [ShowsFirst, hlead.1, hlead.2]
    exact h.showsFirst_of_ne_comment hmode hx hrest line (column + units16 gap)

/-- The tokens of the rest of a line and of the lines after it, those that are blank left out. -/
def tokensOfRows (s : Scanner) (line column : Nat) : List (List Char) → List Token
  | [] => []
  | row :: rest =>
    s.tokensAt line column row ++ Token.newline line (column + units16 row) ::
      ((s.scan row).2.toLineState.tokensOfLines (line + 1) rest).filter fun t => !t.isBlank

theorem filter_tokensOfLines (s : LineState) (line : Nat) (rows : List (List Char)) :
    (s.tokensOfLines line rows).filter (fun t => !t.isBlank) =
      tokensOfRows ⟨s, false⟩ line 0 rows := by
  cases rows with
  | nil => rfl
  | cons row rest =>
    have hnewline : (Token.newline line (units16 row)).isBlank = false := rfl
    simp [LineState.tokensOfLines, LineState.tokens, LineState.scan, tokensOfRows, tokensAt,
      hnewline]

theorem Takes.isComment_of_mode (h : s.Takes x next)
    (hmode : s.mode = .comment ∨ next.mode = .comment) : x.category.isComment = true := by
  cases h <;> simp_all [isComment]

end Scanner

/-- Whether a mark counts for the structure of a document. -/
def Mark.counts (m : Mark) : Bool :=
  m.kind != .ignored

theorem Token.counts_filter_blank (ts : List Token) :
    ((ts.filter fun t => !t.isBlank).map Token.mark).filter Mark.counts =
      (ts.map Token.mark).filter Mark.counts := by
  induction ts with
  | nil => rfl
  | cons t ts ih =>
    by_cases ht : t.isBlank = true
    · have hcounts : ¬t.mark.counts = true := by
        simp only [Token.isBlank, Token.isIgnored, Bool.and_eq_true, beq_iff_eq] at ht
        simp [Mark.counts, Token.mark, ht.1]
      rw [filter_cons_of_neg (by simp [ht]), ih, map_cons, filter_cons_of_neg hcounts]
    · rw [filter_cons_of_pos (by simpa using ht), map_cons, map_cons, filter_cons,
        filter_cons, ih]

theorem Token.Displays.mono {t : Token} {line column : Nat} {x : Lexeme}
    {starts starts' ends ends' : Prop} (h : t.Displays line column x starts ends)
    (hstarts : starts' → starts) (hends : ends' → ends) : t.Displays line column x starts' ends' :=
  ⟨h.kind, h.text, h.seen, h.startLine, h.stopLine, h.contains, fun hs => h.start (hstarts hs),
    fun he => h.stop (hends he)⟩

namespace Cell

/-- Tokens are those of the stops, one by one. The place of a token is the place of its stop, except
that a comment may take blanks along at the start and at the end of its line. -/
inductive Shows : Nat → Nat → List Cell → List Token → Prop
  | nil {line column : Nat} : Shows line column [] []
  | line {line column : Nat} {gap : List Char} {ret : Bool} {rest : List Cell} {t : Token}
      {ts : List Token} (ht : t.mark = (Stop.line ret).mark) (hrest : Shows (line + 1) 0 rest ts) :
    Shows line column (⟨gap, .line ret⟩ :: rest) (t :: ts)
  | core {line column : Nat} {gap : List Char} {x : Lexeme} {y : Cell} {rest : List Cell}
      {t : Token}
      {ts : List Token}
      (ht : t.Displays line (column + units16 gap) x
        (column ≠ 0 ∨ x.category.isComment = false)
        (y.stop.isLine = false ∨ x.category.isComment = false))
      (hrest : Shows line (column + units16 gap + units16 x.text) (y :: rest) ts) :
    Shows line column (⟨gap, .core x⟩ :: y :: rest) (t :: ts)

/-- **Cells show their tokens.** If some cells are cut as the scanner cuts them and their stops are
accepted, the tokens of their lines are those of the stops, and blank ones. -/
theorem Reads.shows {s : Scanner} {cells : List Cell} (h : Reads s cells) {c : Config}
    (hrun : (c.run (marks cells)).isSome = true) (line column : Nat)
    (hmode : s.mode = .comment → column = 0 ∨ cells.head?.any (·.stop.isLine) = true) :
    Shows line column cells (s.tokensOfRows line column (rows cells)) := by
  induction h generalizing c line column with
  | nil => exact .nil
  | @line s gap ret rest hgap hret hrest ih =>
    have hblank : s.tokensAt line column gap = [] ∧ (s.scan gap).2 = s := by
      by_cases hstring : s.mode = .string
      · rw [hgap.string hstring, Scanner.tokensAt, Scanner.scan]
        exact ⟨rfl, rfl⟩
      · exact Scanner.tokensAt_blank gap hstring hgap.blank line column
    rw [rows, Scanner.tokensOfRows, hblank.1, hblank.2, Scanner.filter_tokensOfLines, nil_append]
    rw [marks_cons] at hrun
    obtain ⟨c', hstep, hrest'⟩ := Config.exists_step_of_run hrun
    exact .line rfl (ih hrest' (line + 1) 0 fun _ => .inl rfl)
  | @core s next gap x y rest hgap htakes hwhole hmeets hrest ih =>
    rw [marks_cons] at hrun
    obtain ⟨c', hstep, hrest'⟩ := Config.exists_step_of_run hrun
    obtain ⟨tail, more, hrow, -⟩ := hrest.exists_row
    have hprecedes := hrest.precedes htakes hmeets hstep hrest' hrow
    obtain ⟨t, htokens, hlast, hdisplays⟩ :=
      htakes.showsFirst hgap hwhole hprecedes line column
    have hnext := ih hrest' line (column + units16 gap + units16 x.text)
      fun hcomment => .inr (hmeets.comment (.inr hcomment))
    rw [hrow, Scanner.tokensOfRows] at hnext
    rw [rows, hrow]
    dsimp only
    rw [Scanner.tokensOfRows, htokens, hlast, cons_append, units16_append, units16_append,
      ← Nat.add_assoc, ← Nat.add_assoc]
    -- a comment may have more in its token than in its lexeme, but only at an end of the line
    refine .core (hdisplays.mono ?_ ?_) hnext
    · rintro hstart hcomment
      rcases hstart with hcolumn | hnot
      · rcases hmode hcomment with hzero | hline
        · exact hcolumn hzero
        · cases hline
      · rw [htakes.isComment_of_mode (.inl hcomment)] at hnot
        cases hnot
    · rintro hstop hcomment
      rcases hstop with hline | hnot
      · rw [hmeets.comment hcomment] at hline
        cases hline
      · rcases hcomment with hcomment | hcomment
        · rw [hcomment] at hnot
          cases hnot
        · rw [htakes.isComment_of_mode (.inr hcomment)] at hnot
          cases hnot

/-- The tokens have the marks of the stops, but for those that do not count. -/
theorem Shows.marks_eq {line column : Nat} {cells : List Cell} {ts : List Token}
    (h : Shows line column cells ts) :
    (ts.map Token.mark).filter Mark.counts = (marks cells).filter Mark.counts := by
  induction h with
  | nil => rfl
  | line ht _ ih => rw [map_cons, marks_cons, ht, filter_cons, filter_cons, ih]
  | @core _ _ _ x _ _ t _ ht _ ih =>
    rw [map_cons, marks_cons]
    by_cases hcomment : x.category.isComment = true
    · have hignored := tokenKind_of_isComment hcomment
      have hstop : ¬(Stop.core x).mark.counts = true := by simp [Mark.counts, Stop.mark, hignored]
      have htoken : ¬t.mark.counts = true := by simp [Mark.counts, Token.mark, ht.kind, hignored]
      rw [filter_cons_of_neg hstop, filter_cons_of_neg htoken, ih]
    · have hmark : t.mark = (Stop.core x).mark := by
        rw [Token.mark, ht.kind, ht.text (by simpa using hcomment)]
        rfl
      rw [hmark, filter_cons, filter_cons, ih]

end Cell

namespace Config

/-- A config depends on the marks that count alone. -/
theorem run_filter_counts (c : Config) (ms : List Mark) :
    c.run (ms.filter Mark.counts) = c.run ms := by
  induction ms generalizing c with
  | nil => rfl
  | cons m ms ih =>
    by_cases hm : m.kind = .ignored
    · rw [filter_cons_of_neg (by simp [Mark.counts, hm]), ih, run_cons, c.step_of_ignored hm,
        Option.bind_some]
    · rw [filter_cons_of_pos (by simpa [Mark.counts] using hm), run_cons, run_cons]
      simp only [ih]

theorem run_filter_blank (c : Config) (ts : List Token) :
    c.run ((ts.filter fun t => !t.isBlank).map Token.mark) = c.run (ts.map Token.mark) := by
  rw [← run_filter_counts, Token.counts_filter_blank, run_filter_counts]

end Config

/-- The cells of a text whose stops are accepted. -/
structure Document.Cut (text : String) (cells : List Cell) : Prop where
  reads : Cell.Reads {} cells
  chars : Cell.chars cells = text.toList ++ ['\n']
  accepts : Config.accepts (Cell.marks cells) = true

namespace Document.Cut

variable {text : String} {cells : List Cell}

theorem ne_nil (h : Cut text cells) : cells ≠ [] := by
  rintro rfl
  have := h.chars
  simp at this

theorem lines_eq (h : Cut text cells) : linesOf text = Cell.rows cells :=
  h.reads.lines_eq h.ne_nil h.chars

/-- The tokens of a text are those of its stops, and blank ones. -/
theorem shows (h : Cut text cells) :
    Cell.Shows 0 0 cells ((tokensOf text).filter fun t => !t.isBlank) := by
  have hrun : (Config.run {} (Cell.marks cells)).isSome = true := by
    have haccepts := h.accepts
    rw [Config.accepts] at haccepts
    exact Option.isSome_of_any haccepts
  have hshows := h.reads.shows hrun 0 0 fun _ => .inl rfl
  rw [tokensOf_eq, Scanner.filter_tokensOfLines, h.lines_eq]
  exact hshows

/-- The marks of a text are those of its stops, but for those that do not count. -/
theorem marks_eq (h : Cut text cells) :
    (marksOf text).filter Mark.counts = (Cell.marks cells).filter Mark.counts := by
  rw [marksOf, ← Token.counts_filter_blank, h.shows.marks_eq]

/-- The text itself is accepted. -/
theorem accepts_marksOf (h : Cut text cells) : Config.accepts (marksOf text) = true := by
  rw [Config.accepts, ← Config.run_filter_counts, h.marks_eq, Config.run_filter_counts]
  exact h.accepts

end Document.Cut

end TypedNotation
