import TypedNotation.Proofs.Cells

/-!
# The meaning of string literals

A string is written as a sequence of *segments*: runs of plain characters, escapes, and line breaks.
A run means itself, an escape the character that it names, a line break one line feed, and an escape
that names half of a surrogate pair its own text. A string literal means what its segments mean, one
after the other (`Document.string_literal_means_its_segments`).

The scanner finds escapes by their length and the builder decodes them; the two agree on every
escape (`Code.escapeLength?_own`, `Code.decode?_source`). Segments are not tokens: adjacent runs
make one token, and a line break ends the line in which the scanner works. So the tokens are
followed with the run in front of the next escape, break or quote still to be read
(`Segment.run_inside`).
-/

namespace TypedNotation

open List Text Lexeme Scanner

/-! ### Segments -/

/-- A hexadecimal digit, written with a small letter or a capital. -/
structure HexDigit where
  value : Fin 16
  capital : Bool

/-- The character that a digit is written with. -/
def HexDigit.char (d : HexDigit) : Char :=
  if d.value < 10 then Char.ofNat ('0'.toNat + d.value)
  else Char.ofNat ((if d.capital then 'A' else 'a').toNat + (d.value - 10))

/-- What an escape names behind its backslash. -/
inductive Code where
  | lineFeed
  | carriageReturn
  | tab
  | backslash
  | quote
  /-- A code point by two digits, behind an `x`. -/
  | two (a b : HexDigit)
  /-- A code point by four digits, behind a `u`. -/
  | four (a b c d : HexDigit)

namespace Code

/-- The characters behind the backslash. -/
def own : Code → List Char
  | lineFeed => ['n']
  | carriageReturn => ['r']
  | tab => ['t']
  | backslash => ['\\']
  | quote => ['"']
  | two a b => ['x', a.char, b.char]
  | four a b c d => ['u', a.char, b.char, c.char, d.char]

/-- The number that some digits spell. -/
def number (digits : List HexDigit) : Nat :=
  digits.foldl (fun n d => 16 * n + d.value.val) 0

/-- Whether a code point is half of a surrogate pair. -/
def isSurrogate (n : Nat) : Bool :=
  0xD800 ≤ n && n ≤ 0xDFFF

/-- The character that is named, if there is one. -/
def char? : Code → Option Char
  | lineFeed => some '\n'
  | carriageReturn => some '\r'
  | tab => some '\t'
  | backslash => some '\\'
  | quote => some '"'
  | two a b => some (Char.ofNat (number [a, b]))
  | four a b c d =>
    if isSurrogate (number [a, b, c, d]) then none else some (Char.ofNat (number [a, b, c, d]))

end Code

/-- Whether a character means itself in a string and can stand on a line. -/
def Segment.IsPlain (c : Char) : Prop :=
  c ≠ '"' ∧ c ≠ '\\' ∧ c ≠ '\r' ∧ c ≠ '\n'

/-- A part of what stands between the quotes of a string. -/
inductive Segment where
  | run (text : List Char) (plain : ∀ c ∈ text, Segment.IsPlain c)
  | escape (code : Code)
  /-- A line feed, with or without a carriage return in front of it. -/
  | lineBreak (withReturn : Bool)

namespace Segment

/-- How a segment is written. -/
def source : Segment → List Char
  | run text _ => text
  | escape code => '\\' :: code.own
  | lineBreak true => ['\r', '\n']
  | lineBreak false => ['\n']

/-- What a segment means. -/
def meaning : Segment → List Char
  | run text _ => text
  | escape code => (code.char?.map fun c => [c]).getD ('\\' :: code.own)
  | lineBreak _ => ['\n']

/-- The position behind a segment. -/
def after (p : Position) : Segment → Position
  | lineBreak _ => ⟨p.line + 1, 0⟩
  | segment => ⟨p.line, p.character + units16 segment.source⟩

/-- What is found at a segment: an escape that names no character. -/
def findings (p : Position) : Segment → List Diagnostic
  | escape code =>
    if code.char?.isNone then
      [.error .invalidToken ⟨p, (escape code).after p⟩ "Invalid token"]
    else []
  | _ => []

/-- The position behind some segments. -/
def afterAll (p : Position) : List Segment → Position
  | [] => p
  | segment :: rest => afterAll (segment.after p) rest

/-- What is found at some segments, in order. -/
def findingsOf (p : Position) : List Segment → List Diagnostic
  | [] => []
  | segment :: rest => segment.findings p ++ findingsOf (segment.after p) rest

/-- The string literal of some segments. -/
def literal (segments : List Segment) : String :=
  String.ofList ('"' :: (segments.flatMap source ++ ['"']))

end Segment

/-! ### Escapes are found and decoded alike -/

namespace HexDigit

theorem isHex_char (d : HexDigit) :
    (d.char.isDigit || ('a' ≤ d.char && d.char ≤ 'f') || ('A' ≤ d.char && d.char ≤ 'F')) =
      true := by
  obtain ⟨value, capital⟩ := d
  revert value capital
  decide

theorem hexDigit?_char (d : HexDigit) : Numeral.hexDigit? d.char = some d.value.val := by
  obtain ⟨value, capital⟩ := d
  revert value capital
  decide

theorem char_ne_plus (d : HexDigit) : d.char ≠ '+' := by
  obtain ⟨value, capital⟩ := d
  revert value capital
  decide

theorem char_ne_end (d : HexDigit) : d.char ≠ '\n' ∧ d.char ≠ '\r' := by
  obtain ⟨value, capital⟩ := d
  revert value capital
  decide

end HexDigit

namespace Code

/-- An escape does not reach beyond its line. -/
theorem own_ne_end (code : Code) : ∀ c ∈ code.own, c ≠ '\n' ∧ c ≠ '\r' := by
  cases code with
  | two a b => simp [own, a.char_ne_end, b.char_ne_end]
  | four a b c d => simp [own, a.char_ne_end, b.char_ne_end, c.char_ne_end, d.char_ne_end]
  | _ => simp [own]

/-- The scanner finds an escape whatever stands behind it. -/
theorem escapeLength?_own (code : Code) (rest : List Char) :
    Scan.escapeLength? (code.own ++ rest) = some code.own.length := by
  cases code with
  | two a b => simp [own, Scan.escapeLength?, Scan.startsWithHex, a.isHex_char, b.isHex_char]
  | four a b c d =>
    simp [own, Scan.escapeLength?, Scan.startsWithHex, a.isHex_char, b.isHex_char, c.isHex_char,
      d.isHex_char]
  | _ => rfl

/-- The code point that some digits spell. -/
theorem codePoint?_chars (d : HexDigit) (ds : List HexDigit) :
    Escape.codePoint? (ds.length + 1) ((d :: ds).map HexDigit.char) =
      if (number (d :: ds)).isValidChar then some (Char.ofNat (number (d :: ds))) else none := by
  have hvalue : ∀ (ds : List HexDigit) (n : Nat),
      (ds.map HexDigit.char).foldlM (fun n c => (Numeral.hexDigit? c).map (16 * n + ·)) n =
        some (ds.foldl (fun n d => 16 * n + d.value.val) n) := by
    intro ds
    induction ds with
    | nil => exact fun n => rfl
    | cons d ds ih => intro n; simp [HexDigit.hexDigit?_char, ih]
  have hnumeral : Escape.numeral? ((d :: ds).map HexDigit.char) = some (number (d :: ds)) := by
    rw [map_cons, Escape.numeral?, Numeral.hexValue?, ← map_cons, hvalue]
    · rfl
    · simp
    · exact fun cs h => d.char_ne_plus (cons.inj h).1
  have hlength : ((d :: ds).map HexDigit.char).length = ds.length + 1 := by simp
  unfold Escape.codePoint?
  rw [if_neg (by omega), ← hlength, take_length, hnumeral]
  rfl

/-- The builder decodes an escape to the character that it names. -/
theorem decode?_source (code : Code) : Escape.decode? ('\\' :: code.own) = code.char? := by
  cases code with
  | two a b =>
    have hvalid : (number [a, b]).isValidChar := by
      simp only [number, foldl_cons, foldl_nil, Nat.isValidChar]
      omega
    exact (codePoint?_chars a [b]).trans (if_pos hvalid)
  | four a b c d =>
    have hvalid : ¬(number [a, b, c, d]).isValidChar ↔
        isSurrogate (number [a, b, c, d]) = true := by
      have hbound : number [a, b, c, d] < 0x10000 := by
        simp only [number, foldl_cons, foldl_nil]
        omega
      simp only [isSurrogate, Nat.isValidChar, Bool.and_eq_true, decide_eq_true_eq]
      omega
    refine (codePoint?_chars a [b, c, d]).trans ?_
    rw [char?, ← ite_not]
    exact if_congr hvalid rfl rfl
  | _ => rfl

end Code

/-! ### The tokens from the middle of a line on -/

/-- There is a first line. -/
theorem Text.exists_lines (cs : List Char) : ∃ row rows, lines cs = row :: rows := by
  obtain ⟨piece, pieces', hpieces⟩ := exists_cons_of_ne_nil (pieces_ne_nil '\n' cs)
  exact ⟨dropReturn piece, pieces'.map dropReturn, by rw [lines, hpieces, map_cons]⟩

/-- A line ending in front of a text puts an empty line before its lines. -/
theorem Segment.lines_lineBreak (withReturn : Bool) (cs : List Char) :
    lines ((lineBreak withReturn).source ++ cs) = [] :: lines cs := by
  cases withReturn with
  | true => exact @lines_append_cut ['\r'] cs (by decide)
  | false => exact @lines_append_cut [] cs (by decide)

namespace Scanner

/-- The tokens of a text that starts in the middle of a line. -/
def tokensOfText (s : Scanner) (line column : Nat) (cs : List Char) : List Token :=
  match lines cs with
  | [] => []
  | row :: rows =>
    tokensFrom line column (s.scan row).1 ++
      Token.newline line (column + units16 row) ::
        (s.scan row).2.toLineState.tokensOfLines (line + 1) rows

variable {s next : Scanner} {line column : Nat} {cs : List Char}

/-- A lexeme that is cut off in front of the rest of the line gives the first token. -/
theorem tokensOfText_cons {x : Lexeme} (hfeed : '\n' ∉ x.text)
    (hend : (cs ++ ['\n']).head? = some '\n' → x.text.getLast? ≠ some '\r')
    (hcuts : ∀ row rows, lines cs = row :: rows → s.Cuts [x] next row) :
    s.tokensOfText line column (x.text ++ cs) =
      x.token line column :: next.tokensOfText line (column + units16 x.text) cs := by
  obtain ⟨row, rows, hlines⟩ := exists_lines cs
  have hcut := hcuts row rows hlines
  rw [Cuts, chars_cons, chars_nil, append_nil] at hcut
  simp only [tokensOfText, lines_append hfeed hlines hend, hlines, hcut, cons_append,
    nil_append, tokensFrom_cons, units16_append, Nat.add_assoc]

/-- A line ending gives a newline, and the next line starts. -/
theorem tokensOfText_lineBreak (withReturn : Bool) :
    s.tokensOfText line column ((Segment.lineBreak withReturn).source ++ cs) =
      Token.newline line column ::
        tokensOfText ⟨s.toLineState, false⟩ (line + 1) 0 cs := by
  obtain ⟨row, rows, hcs⟩ := exists_lines cs
  simp [tokensOfText, Segment.lines_lineBreak, hcs, scan, LineState.tokensOfLines, LineState.tokens,
    LineState.scan]

end Scanner

theorem Document.tokensOf_eq_tokensOfText (text : String) :
    tokensOf text = tokensOfText ⟨{}, false⟩ 0 0 text.toList := by
  obtain ⟨row, rows, hlines⟩ := exists_lines text.toList
  simp [tokensOf_eq, linesOf, tokensOfText, hlines, LineState.tokensOfLines,
    LineState.tokens, LineState.scan]

/-! ### Reading a string -/

/-- What a token adds to the string that it stands in, and what is found there. -/
inductive Token.Adds (t : Token) : List Char → List Diagnostic → Prop
  | text (ht : t.kind = .stringText false) : Adds t t.text.toList []
  | escape {c : Char} (ht : t.kind = .stringText true)
      (hc : Escape.decode? t.text.toList = some c) :
      Adds t [c] []
  | surrogate (ht : t.kind = .stringText true) (hnone : Escape.decode? t.text.toList = none) :
      Adds t t.text.toList [.error .invalidToken t.range "Invalid token"]
  | newline (ht : t.kind = .newline) : Adds t ['\n'] []

namespace Chunk.Builder

/-- The builder stands in a string that starts the document, with its text up to a position. -/
structure InFirstString (b : Builder) (text : List Char) (p : Position) (found : List Diagnostic) :
    Prop where
  frames : b.frames = []
  top : b.top = []
  diagnostics : b.diagnostics = found
  pending : ∃ last, b.pending = .string ⟨0, last, ⟨.origin, p⟩, String.ofList text⟩

variable {b : Builder} {text : List Char} {p q : Position} {found : List Diagnostic} {t : Token}

theorem combine_origin (h : p ≤ q) : Range.combine ⟨.origin, p⟩ ⟨p, q⟩ = ⟨.origin, q⟩ := by
  have horigin : Position.origin ≤ p := by
    simp only [Position.le_def, Position.origin]
    omega
  simp [Range.combine, min, max, horigin, h]

/-- A token in the string extends it. -/
theorem InFirstString.step (h : b.InFirstString text p found) {more : List Char}
    {problems : List Diagnostic} (ht : t.Adds more problems) (hrange : t.range = ⟨p, q⟩)
    (hpq : p ≤ q) : (b.step t).InFirstString (text ++ more) q (found ++ problems) := by
  obtain ⟨hframes, htop, rfl, last, hpending⟩ := h
  have hcombine := combine_origin hpq
  cases ht with
  | text ht | newline ht =>
    constructor <;> simp [Builder.step, readNext, hpending, readInString, ht, hframes, htop,
      OpenString.extend, hrange, hcombine]
  | escape ht hc =>
    constructor <;> simp [Builder.step, readNext, hpending, readInString, ht, hc, hframes, htop,
      OpenString.extend, hrange, hcombine]
  | surrogate ht hnone =>
    constructor <;> simp [Builder.step, readNext, hpending, readInString, ht, hnone, hframes, htop,
      OpenString.extend, hrange, hcombine, invalid, report]

/-- The closing quote and the newline behind it end the document. -/
theorem InFirstString.finish (h : b.InFirstString text p found) {newline : Token}
    (ht : t.kind = .quote .closing) (hrange : t.range = ⟨p, q⟩) (hpq : p ≤ q)
    (hnewline : newline.kind = .newline) :
    ∃ tokens weak,
      ((b.step t).step newline).finish.top =
          [.value (.string (String.ofList text)) ⟨.origin, q⟩ tokens,
            .separator true newline.range weak] ∧
        ((b.step t).step newline).finish.diagnostics = found := by
  obtain ⟨hframes, htop, rfl, last, hpending⟩ := h
  have hcombine := combine_origin hpq
  refine ⟨⟨0, b.index + 1⟩, .single (b.index + 1), ?_⟩
  simp [Builder.step, readNext, hpending, readInString, ht, hframes, htop, OpenString.extend,
    hrange, hcombine, complete, push, read, hnewline, Builder.finish, settle, OpenString.chunk]

end Chunk.Builder

namespace Segment

open Chunk.Builder (InFirstString)

/-- The scanner inside a string that is in no block. -/
def inside : Scanner :=
  ⟨⟨[], .string⟩, false⟩

/-- A run of plain characters ends where a text starts. -/
def Stops (cs : List Char) : Prop :=
  ∀ row rows, lines cs = row :: rows → ∀ d ∈ row.head?, d = '"' ∨ d = '\\'

theorem stops_cons {c : Char} (hc : c = '"' ∨ c = '\\') (cs : List Char) : Stops (c :: cs) := by
  intro row rows hlines d hd
  obtain ⟨first, more, hcs⟩ := exists_lines cs
  have hfirst : lines ([c] ++ cs) = ([c] ++ first) :: more :=
    lines_append (by rcases hc with rfl | rfl <;> decide) hcs
      (fun _ => by rcases hc with rfl | rfl <;> decide)
  obtain rfl := (cons.inj (hfirst.symm.trans hlines)).1
  obtain rfl : c = d := Option.some.inj hd
  exact hc

theorem stops_escape (code : Code) (cs : List Char) : Stops ((escape code).source ++ cs) :=
  stops_cons (.inr rfl) _

theorem stops_lineBreak (withReturn : Bool) (cs : List Char) :
    Stops ((lineBreak withReturn).source ++ cs) := by
  intro row rows hrow d hd
  obtain rfl := (cons.inj ((lines_lineBreak withReturn cs).symm.trans hrow)).1
  cases hd

section Run

variable {b : Chunk.Builder} {text : List Char} {line column : Nat} {found : List Diagnostic}

/-- Plain characters up to the end of the run are read as themselves, in at most one token. -/
theorem exists_run_plain {own cs : List Char} (hown : ∀ c ∈ own, IsPlain c) (hcs : Stops cs)
    (h : b.InFirstString text ⟨line, column⟩ found) :
    ∃ ts, inside.tokensOfText line column (own ++ cs) =
        ts ++ inside.tokensOfText line (column + units16 own) cs ∧
      (b.run ts).InFirstString (text ++ own) ⟨line, column + units16 own⟩ found := by
  cases own with
  | nil => exact ⟨[], rfl, by simpa using h⟩
  | cons c own =>
    have htoken : inside.tokensOfText line column (c :: own ++ cs) =
        token line column ⟨c :: own, .stringText, []⟩ ::
          inside.tokensOfText line (column + units16 (c :: own)) cs := by
      refine @tokensOfText_cons _ _ _ _ _ ⟨c :: own, .stringText, []⟩ ?_ ?_ ?_
      · exact fun hfeed => (hown _ hfeed).2.2.2 rfl
      · exact fun _ hreturn => (hown _ (mem_of_mem_getLast? hreturn)).2.2.1 rfl
      · exact fun row rows hlines => cuts_stringText [] false row
          (fun d hd => ⟨(hown d hd).1, (hown d hd).2.1⟩) (hcs row rows hlines)
    refine ⟨[token line column ⟨c :: own, .stringText, []⟩], htoken, ?_⟩
    have hstep := h.step (Token.Adds.text
      (t := token line column ⟨c :: own, .stringText, []⟩) rfl)
      rfl (.inr ⟨rfl, Nat.le_add_right _ _⟩)
    simpa [token] using hstep

/-- An escape is read as the character that it names, or as its text. -/
theorem run_escape (code : Code) (cs : List Char) (h : b.InFirstString text ⟨line, column⟩ found) :
    ∃ t, inside.tokensOfText line column ((escape code).source ++ cs) =
        t :: inside.tokensOfText line (column + units16 (escape code).source) cs ∧
      (b.step t).InFirstString (text ++ (escape code).meaning) ((escape code).after ⟨line, column⟩)
        (found ++ (escape code).findings ⟨line, column⟩) := by
  have hends : ∀ c ∈ '\\' :: code.own, c ≠ '\n' ∧ c ≠ '\r' :=
    forall_mem_cons.2 ⟨by decide, code.own_ne_end⟩
  refine ⟨token line column ⟨'\\' :: code.own, .escape, []⟩, ?_, ?_⟩
  · exact @tokensOfText_cons _ _ _ _ _ ⟨'\\' :: code.own, .escape, []⟩
      (fun hfeed => (hends _ hfeed).1 rfl)
      (fun _ hreturn => (hends _ (mem_of_mem_getLast? hreturn)).2 rfl)
      fun row rows _ => cuts_escape [] false row (code.escapeLength?_own row)
  · have hadds : (token line column ⟨'\\' :: code.own, .escape, []⟩).Adds
        (escape code).meaning
        ((escape code).findings ⟨line, column⟩) := by
      have hdecode := code.decode?_source
      rw [meaning, findings]
      cases hchar : code.char? with
      | some c => exact .escape rfl (by simpa [token, hchar] using hdecode)
      | none =>
        have hadds := Token.Adds.surrogate
          (t := token line column ⟨'\\' :: code.own, .escape, []⟩)
          rfl (by simpa [token, hchar] using hdecode)
        simpa [token, after, source, Range.onLine] using hadds
    exact h.step hadds rfl (.inr ⟨rfl, Nat.le_add_right _ _⟩)

/-- The tokens of a string up to its end, with a run of plain characters in front of its
segments. -/
theorem run_inside (segments : List Segment) {own : List Char} (hown : ∀ c ∈ own, IsPlain c)
    (h : b.InFirstString text ⟨line, column⟩ found) :
    let p : Position := ⟨line, column + units16 own⟩
    let q := afterAll p segments
    ∃ ts closing newline,
      inside.tokensOfText line column (own ++ (segments.flatMap source ++ ['"'])) =
          ts ++ [closing, newline] ∧
        (b.run ts).InFirstString (text ++ (own ++ segments.flatMap meaning)) q
          (found ++ findingsOf p segments) ∧
        closing.kind = .quote .closing ∧ closing.range = ⟨q, ⟨q.line, q.character + 1⟩⟩ ∧
        newline.kind = .newline := by
  induction segments generalizing b text line column found own with
  | nil =>
    obtain ⟨ts, hts, hrun⟩ := exists_run_plain hown (stops_cons (.inl rfl) []) h
    refine ⟨ts, token line (column + units16 own) ⟨['"'], .quote .closing, []⟩,
      Token.newline line (column + units16 own + 1), ?_, ?_, rfl, ?_, rfl⟩
    · have hquote : inside.tokensOfText line (column + units16 own) ['"'] =
          [token line (column + units16 own) ⟨['"'], .quote .closing, []⟩,
            Token.newline line (column + units16 own + 1)] := by
        refine (@tokensOfText_cons _ _ _ _ [] ⟨['"'], .quote .closing, []⟩ (by decide)
          (fun _ => by decide) fun row rows _ => cuts_closingQuote [] false row).trans ?_
        simp [tokensOfText, lines, pieces, dropReturn, scan,
          LineState.tokensOfLines, unitWidth]
      rw [flatMap_nil, nil_append, hts, hquote]
    · simpa [afterAll, findingsOf] using hrun
    · simp [token, Range.onLine, afterAll, unitWidth]
  | cons segment segments ih =>
    cases segment with
    | run more hmore =>
      -- a run behind a run is read in the same token
      have hboth : ∀ c ∈ own ++ more, IsPlain c := forall_mem_append.2 ⟨hown, hmore⟩
      have hrest := ih hboth h
      simpa [source, meaning, afterAll, after, findingsOf, findings, Nat.add_assoc] using hrest
    | escape code =>
      obtain ⟨ts, hts, hplain⟩ := exists_run_plain hown
        (stops_escape code (segments.flatMap source ++ ['"'])) h
      obtain ⟨t, ht, hstep⟩ := run_escape code (segments.flatMap source ++ ['"']) hplain
      obtain ⟨us, closing, newline, hus, hrun, hclosing⟩ := @ih _ _ _ _ _ [] (by simp) hstep
      refine ⟨ts ++ t :: us, closing, newline, ?_, ?_, ?_⟩
      · rw [flatMap_cons, append_assoc, hts, ht]
        simpa using hus
      · simpa [meaning, afterAll, findingsOf, after] using hrun
      · simpa [afterAll, after] using hclosing
    | lineBreak withReturn =>
      obtain ⟨ts, hts, hplain⟩ := exists_run_plain hown
        (stops_lineBreak withReturn (segments.flatMap source ++ ['"'])) h
      have hstep := hplain.step
        (Token.Adds.newline (t := Token.newline line (column + units16 own)) rfl)
        rfl (.inl (Nat.lt_succ_self line))
      obtain ⟨us, closing, newline, hus, hrun, hclosing⟩ := @ih _ _ _ _ _ [] (by simp) hstep
      refine ⟨ts ++ Token.newline line (column + units16 own) :: us, closing, newline, ?_, ?_,
        ?_⟩
      · rw [flatMap_cons, append_assoc, hts, tokensOfText_lineBreak,
          append_assoc, cons_append]
        exact congrArg (fun rest => ts ++ _ :: rest) hus
      · simpa [meaning, afterAll, findingsOf, findings, after] using hrun
      · simpa [afterAll, after] using hclosing

end Run

theorem fatal_of_mem_findingsOf {segments : List Segment} {p : Position} {d : Diagnostic}
    (h : d ∈ findingsOf p segments) : d.fatal = false := by
  induction segments generalizing p with
  | nil => cases h
  | cons segment segments ih =>
    rcases mem_append.1 h with h | h
    · cases segment with
      | escape code =>
        rw [mem_singleton.1 (mem_ite_nil_right.1 h).2]
        rfl
      | _ => cases h
    · exact ih h

end Segment

/-- A scalar behind which there is only a newline is the data of the document. -/
theorem Data.ofChunks_scalar {scalar : Scalar} {range weak : Range} {tokens t : TokenRange}
    {found : List Diagnostic} (hfound : ∀ d ∈ found, d.fatal = false) :
    ofChunks [.value scalar range tokens, .separator true weak t] ⟨found⟩ =
      (some (.primitive scalar range tokens), ⟨found⟩) := by
  have hcontinue : Report.canContinue ⟨found⟩ = true := by simpa [Report.canContinue] using hfound
  have hvalues : [Chunk.value scalar range tokens, .separator true weak t].filter Chunk.isValue =
      [.value scalar range tokens] := rfl
  simp [ofChunks, Report.merge, Chunk.illegalTopLevel, hcontinue, hvalues, Chunk.data?]

/-- **A string literal means what its segments mean.** The literal of any segments is a document
whose data is one string, from the first quote through the last: the meanings of the segments, one
behind the other. All that is found are the escapes that name half of a surrogate pair, one finding
for each, in order. -/
theorem Document.string_literal_means_its_segments (segments : List Segment) :
    let start : Position := ⟨0, 1⟩
    let stop := Segment.afterAll start segments
    (∃ tokens, (parse (Segment.literal segments)).data =
        some (.primitive (.string (String.ofList (segments.flatMap Segment.meaning)))
          ⟨.origin, ⟨stop.line, stop.character + 1⟩⟩ tokens)) ∧
      (parse (Segment.literal segments)).report.diagnostics =
        Segment.findingsOf start segments := by
  intro start stop
  have hopen : Chunk.Builder.InFirstString
      (Chunk.Builder.step {} (token 0 0 ⟨['"'], .quote .opening, []⟩)) [] start [] :=
    ⟨rfl, rfl, rfl, 0, rfl⟩
  obtain ⟨ts, closing, newline, hts, hrun, hclosing, hrange, hnewline⟩ :=
    @Segment.run_inside _ _ _ _ _ segments [] (by simp) hopen
  have htokens : tokensOf (Segment.literal segments) =
      token 0 0 ⟨['"'], .quote .opening, []⟩ :: (ts ++ [closing, newline]) := by
    rw [tokensOf_eq_tokensOfText, Segment.literal, String.toList_ofList, ← hts]
    exact @tokensOfText_cons _ _ _ _ _ ⟨['"'], .quote .opening, []⟩ (by decide)
      (fun _ => by decide)
      fun row rows _ => cuts_openingQuote [] false row
  obtain ⟨tokens, weak, htop, hfound⟩ := hrun.finish hclosing hrange (.inr ⟨rfl, Nat.le_succ _⟩)
    hnewline
  have hchunks : Chunk.ofTokens (tokensOf (Segment.literal segments)) =
      ([.value (.string (String.ofList (segments.flatMap Segment.meaning)))
          ⟨.origin, ⟨stop.line, stop.character + 1⟩⟩ tokens, .separator true newline.range weak],
        ⟨Segment.findingsOf start segments⟩) := by
    rw [htokens, Chunk.ofTokens, ← Chunk.Builder.run, Chunk.Builder.run_cons,
      Chunk.Builder.run_append]
    exact Prod.ext htop (congrArg Report.mk hfound)
  have hdata := @Data.ofChunks_scalar (.string (String.ofList (segments.flatMap Segment.meaning)))
    ⟨.origin, ⟨stop.line, stop.character + 1⟩⟩ newline.range tokens weak _
    (fun d => @Segment.fatal_of_mem_findingsOf segments start d)
  simp only [parse, hchunks, hdata]
  exact ⟨⟨tokens, rfl⟩, trivial⟩

end TypedNotation
