import TypedNotation.Proofs.Acceptance
import TypedNotation.Proofs.DocumentRows

/-!
# Texts as cells

A text is a sequence of *cells*: some blanks, the gap, and what they lead to, the stop, which is a
lexeme that can be seen or the end of a line. Every line has an ending here, so the cells of a text
spell the text and one more line feed. Layout is about the gaps alone.

`Cell.Reads` says that some cells are cut as the scanner would cut them. It says this of each cell
and its neighbour: `Scanner.Takes` is a step of the scanner without a look at what follows, and what
a step does depend on is stated for the next cell. So cells may be taken apart and put together.

The lines of a text are those that its cells spell (`Cell.Reads.lines_eq`).
-/

namespace TypedNotation

open List Text
open Scan (Delimits isNameChar)

/-- What a gap leads to. -/
inductive Stop where
  | core (x : Lexeme)
  /-- A line feed, perhaps behind a carriage return. -/
  | line (ret : Bool)

/-- A gap and what it leads to. -/
structure Cell where
  gap : List Char
  stop : Stop

namespace Stop

/-- The characters of a stop. -/
def text : Stop → List Char
  | core x => x.text
  | line ret => if ret then ['\r', '\n'] else ['\n']

/-- What a stop is to the structure of a document. -/
def mark : Stop → Mark
  | core x => ⟨x.category.tokenKind, String.ofList x.text⟩
  | line _ => ⟨.newline, "\n"⟩

/-- Whether a stop is the end of a line. -/
def isLine : Stop → Bool
  | core _ => false
  | line _ => true

end Stop

/-- Whether a lexeme ends only where another one can be told to begin. -/
def Category.isWord : Category → Bool
  | tag | integer | float | boolean => true
  | _ => false

/-! ### Single steps -/

namespace Scanner

/-- What is known at the start of the next line. -/
def nextLine (s : Scanner) : Scanner :=
  ⟨s.toLineState, false⟩

/-- A gap may stand here: it is blank, on one line, and outside of strings. -/
structure GapFits (s : Scanner) (gap : List Char) : Prop where
  blank : ∀ c ∈ gap, isBlank c = true
  noFeed : '\n' ∉ gap
  string : s.mode = .string → gap = []

theorem GapFits.append {s : Scanner} {gap other : List Char} (hgap : s.GapFits gap)
    (hother : ∀ c ∈ other, isBlank c = true) (hfeed : '\n' ∉ other)
    (hmode : s.mode ≠ .string) : s.GapFits (gap ++ other) := by
  refine ⟨fun c hc => ?_, by simp [hgap.noFeed, hfeed], fun h => absurd h hmode⟩
  rcases mem_append.1 hc with hc | hc
  · exact hgap.blank c hc
  · exact hother c hc

theorem gapFits_nil (s : Scanner) : s.GapFits [] :=
  ⟨by simp, by simp, fun _ => rfl⟩

end Scanner

/-- A lexeme is on one line, and outside of strings it starts and ends with what is not blank. -/
structure Lexeme.Whole (x : Lexeme) : Prop where
  noFeed : '\n' ∉ x.text
  head : x.category.inString = false → ∀ c ∈ x.text.head?, isBlank c = false
  last : x.category.inString = false → ∀ c ∈ x.text.getLast?, isBlank c = false

/-- What a lexeme asks of the cell behind it, if `next` is what is known there: a key comes before
its colon, the text of a string before a quote, an escape or the end of the line, and a comment that
has not ended before the end of the line. A carriage return in front of a line feed belongs to
it. -/
structure Lexeme.Meets (x : Lexeme) (next : Scanner) (y : Cell) : Prop where
  key : x.category = .key → (∀ c ∈ y.gap, c = ' ' ∨ c = '\t') ∧
    ∃ blocks, y.stop = .core ⟨[':'], .colon, blocks⟩
  text : x.category = .stringText →
    ∀ z, y.stop = .core z → z.category = .quote .closing ∨ z.category = .escape
  comment : x.category = .lineComment ∨ next.mode = .comment → y.stop.isLine = true
  feed : y.gap = [] → y.stop = .line false → x.text.getLast? ≠ some '\r'

namespace Cell

/-- The characters of some cells. -/
def chars (cells : List Cell) : List Char :=
  cells.flatMap fun c => c.gap ++ c.stop.text

/-- What some cells are to the structure of a document. -/
def marks (cells : List Cell) : List Mark :=
  cells.map (·.stop.mark)

/-- Cells as the scanner cuts them, up to the end of some line. A carriage return in front of a line
feed belongs to the end of the line. -/
inductive Reads : Scanner → List Cell → Prop
  | nil {s : Scanner} : Reads s []
  | line {s : Scanner} {gap : List Char} {ret : Bool} {rest : List Cell} (hgap : s.GapFits gap)
      (hret : ret = false → gap.getLast? ≠ some '\r') (hrest : Reads s.nextLine rest) :
    Reads s (⟨gap, .line ret⟩ :: rest)
  | core {s next : Scanner} {gap : List Char} {x : Lexeme} {y : Cell} {rest : List Cell}
      (hgap : s.GapFits gap) (htakes : s.Takes x next) (hwhole : x.Whole) (hmeets : x.Meets next y)
      (hrest : Reads next (y :: rest)) :
    Reads s (⟨gap, .core x⟩ :: y :: rest)

@[simp] theorem chars_nil : chars [] = [] := rfl

@[simp] theorem chars_cons (c : Cell) (cells : List Cell) :
    chars (c :: cells) = c.gap ++ (c.stop.text ++ chars cells) := by
  simp [chars]

theorem chars_append (a b : List Cell) : chars (a ++ b) = chars a ++ chars b :=
  flatMap_append

@[simp] theorem marks_cons (c : Cell) (cells : List Cell) :
    marks (c :: cells) = c.stop.mark :: marks cells := rfl

@[simp] theorem marks_nil : marks [] = [] := rfl

@[simp] theorem marks_append (cells others : List Cell) :
    marks (cells ++ others) = marks cells ++ marks others :=
  map_append

/-- The lines that some cells spell, without their endings. -/
def rows : List Cell → List (List Char)
  | [] => []
  | ⟨gap, .line _⟩ :: rest => gap :: rows rest
  | ⟨gap, .core x⟩ :: rest =>
    match rows rest with
    | [] => [gap ++ x.text]
    | row :: more => (gap ++ (x.text ++ row)) :: more

end Cell

/-! ### Lines -/

namespace Text

/-- A cut ends a piece. -/
theorem pieces_append_cut {cut : Char} {a : List Char} (b : List Char) (h : cut ∉ a) :
    pieces cut (a ++ cut :: b) = a :: pieces cut b := by
  induction a with
  | nil =>
    rw [nil_append, pieces]
    split
    next hnil => exact absurd hnil (pieces_ne_nil cut b)
    next first rest heq => rw [if_pos rfl, heq]
  | cons c a ih =>
    obtain ⟨hc, ha⟩ := not_or.1 (mt mem_cons.2 h)
    rw [cons_append, pieces, ih ha]
    exact if_neg (Ne.symm hc)

theorem dropReturn_eq_self {a : List Char} (h : a.getLast? ≠ some '\r') : dropReturn a = a :=
  if_neg h

theorem dropReturn_append (a : List Char) : dropReturn (a ++ ['\r']) = a := by
  simp [dropReturn]

/-- A return is dropped from the last part only. -/
theorem dropReturn_append_of_ne {a b : List Char} (h : b = [] → a.getLast? ≠ some '\r') :
    dropReturn (a ++ b) = a ++ dropReturn b := by
  rcases eq_nil_or_concat b with rfl | ⟨b, c, rfl⟩
  · rw [append_nil, dropReturn_eq_self (h rfl), dropReturn, getLast?_nil]
    simp
  · rw [concat_eq_append, ← append_assoc]
    by_cases hc : c = '\r'
    · rw [hc, dropReturn_append, dropReturn_append]
    · rw [dropReturn_eq_self (by simpa using hc), dropReturn_eq_self (by simpa using hc),
        append_assoc]

/-- Characters in front belong to the first piece. -/
theorem pieces_append {cut : Char} {a b first : List Char} {rest : List (List Char)} (h : cut ∉ a)
    (hb : pieces cut b = first :: rest) : pieces cut (a ++ b) = (a ++ first) :: rest := by
  induction a with
  | nil => exact hb
  | cons c a ih =>
    obtain ⟨hc, ha⟩ := not_or.1 (mt mem_cons.2 h)
    rw [cons_append, pieces, ih ha]
    exact if_neg (Ne.symm hc)

/-- The lines of a text whose first line is known. -/
theorem lines_append_cut {a b : List Char} (h : '\n' ∉ a) :
    lines (a ++ '\n' :: b) = dropReturn a :: lines b := by
  rw [lines, pieces_append_cut b h, map_cons, lines]

/-- A text without line feeds is one line. -/
theorem lines_eq_singleton {a : List Char} (h : '\n' ∉ a) : lines a = [dropReturn a] := by
  rw [lines, pieces_of_not_mem h, map_singleton]

/-- Some characters in front of a text are in front of its first line. -/
theorem lines_append {a b first : List Char} {rest : List (List Char)} (h : '\n' ∉ a)
    (hb : lines b = first :: rest)
    (hend : (b ++ ['\n']).head? = some '\n' → a.getLast? ≠ some '\r') :
    lines (a ++ b) = (a ++ first) :: rest := by
  rw [lines] at hb
  obtain ⟨piece, pieces', hpieces, rfl, rfl⟩ := map_eq_cons_iff.1 hb
  rw [lines, pieces_append h hpieces, map_cons, dropReturn_append_of_ne]
  rintro rfl
  apply hend
  cases b with
  | nil => rfl
  | cons c b =>
    rw [pieces] at hpieces
    split at hpieces
    next => cases hpieces
    next =>
      split at hpieces
      next hc => rw [hc]; rfl
      next => cases hpieces

end Text

namespace Cell

variable {s : Scanner} {cells : List Cell}

/-- Cells spell a text that ends with a line feed. -/
theorem Reads.exists_text (h : Reads s cells) (hne : cells ≠ []) :
    ∃ text, chars cells = text ++ ['\n'] := by
  induction h with
  | nil => exact absurd rfl hne
  | @line s gap ret rest hgap hret hrest ih =>
    cases rest with
    | nil => exact ⟨gap ++ if ret then ['\r'] else [], by cases ret <;> simp [Stop.text]⟩
    | cons y rest =>
      obtain ⟨text, htext⟩ := ih (cons_ne_nil _ _)
      exact ⟨gap ++ ((Stop.line ret).text ++ text), by rw [chars_cons, htext]; simp⟩
  | @core s next gap x y rest hgap htakes hwhole hmeets hrest ih =>
    obtain ⟨text, htext⟩ := ih (cons_ne_nil _ _)
    exact ⟨gap ++ (x.text ++ text), by rw [chars_cons, htext]; simp [Stop.text]⟩

/-- The cell that a text starts with, if the text starts with a line feed. -/
theorem Reads.eq_line_of_head? {y : Cell} {rest : List Cell} (h : Reads s (y :: rest))
    (hhead : (chars (y :: rest)).head? = some '\n') : y.gap = [] ∧ y.stop = .line false := by
  have hgap : s.GapFits y.gap := by cases h <;> assumption
  rw [chars_cons] at hhead
  cases hy : y.gap with
  | cons c gap =>
    rw [hy] at hhead
    obtain rfl : c = '\n' := by simpa using hhead
    exact absurd (hy ▸ mem_cons_self) hgap.noFeed
  | nil =>
    rw [hy, nil_append] at hhead
    refine ⟨rfl, ?_⟩
    cases h with
    | @line _ _ ret => cases ret <;> simp_all [Stop.text]
    | @core _ _ _ x _ _ _ htakes hwhole =>
      obtain ⟨c, own, htext⟩ := exists_cons_of_ne_nil htakes.text_ne_nil
      rw [Stop.text, htext] at hhead
      obtain rfl : c = '\n' := by simpa using hhead
      exact absurd (htext ▸ mem_cons_self) hwhole.noFeed

theorem Stop.text_line (ret : Bool) :
    (Stop.line ret).text = (if ret then ['\r'] else []) ++ ['\n'] := by
  cases ret <;> rfl

/-- No line feed stands in front of the end of a line. -/
theorem noFeed_line {gap : List Char} (hgap : s.GapFits gap) (ret : Bool) :
    '\n' ∉ gap ++ (if ret then ['\r'] else []) := by
  have := hgap.noFeed
  cases ret <;> simp [this]

/-- The lines of a text are those of its cells. -/
theorem Reads.lines_eq (h : Reads s cells) (hne : cells ≠ []) {text : List Char}
    (htext : chars cells = text ++ ['\n']) : lines text = rows cells := by
  induction h generalizing text with
  | nil => exact absurd rfl hne
  | @line s gap ret rest hgap hret hrest ih =>
    rw [rows]
    have hend : dropReturn (gap ++ if ret then ['\r'] else []) = gap := by
      cases ret with
      | true => exact dropReturn_append gap
      | false => simpa using dropReturn_eq_self (hret rfl)
    have hfeed := noFeed_line hgap ret
    rw [chars_cons, Stop.text_line] at htext
    cases rest with
    | nil =>
      have heq : text = gap ++ (if ret then ['\r'] else []) := by
        rw [chars_nil, append_nil, ← append_assoc] at htext
        exact (append_cancel_right htext).symm
      rw [heq, lines_eq_singleton hfeed, hend, rows]
    | cons y rest =>
      obtain ⟨more, hmore⟩ := hrest.exists_text (cons_ne_nil _ _)
      have heq : text = (gap ++ (if ret then ['\r'] else [])) ++ '\n' :: more := by
        rw [hmore] at htext
        have : (gap ++ (if ret then ['\r'] else []) ++ '\n' :: more) ++ ['\n'] =
            text ++ ['\n'] := by
          rw [← htext]
          simp
        exact (append_cancel_right this).symm
      rw [heq, lines_append_cut hfeed, hend, ih (cons_ne_nil _ _) hmore]
  | @core s next gap x y rest hgap htakes hwhole hmeets hrest ih =>
    obtain ⟨more, hmore⟩ := hrest.exists_text (cons_ne_nil _ _)
    have heq : text = (gap ++ x.text) ++ more := by
      rw [chars_cons, hmore, Stop.text] at htext
      have : (gap ++ x.text ++ more) ++ ['\n'] = text ++ ['\n'] := by
        rw [← htext]
        simp
      exact (append_cancel_right this).symm
    have hrows := ih (cons_ne_nil _ _) hmore
    obtain ⟨row, more', hrow⟩ : ∃ row more', rows (y :: rest) = row :: more' := by
      rw [← hrows]
      exact exists_cons_of_ne_nil (by simp [lines, pieces_ne_nil])
    rw [heq, rows, hrow]
    rw [hrow] at hrows
    rw [lines_append (by simp [hgap.noFeed, hwhole.noFeed]) hrows, append_assoc]
    intro hhead
    rw [← hmore] at hhead
    obtain ⟨hygap, hystop⟩ := hrest.eq_line_of_head? hhead
    rw [getLast?_append, Option.or_of_isSome (by simpa using htakes.text_ne_nil)]
    exact hmeets.feed hygap hystop

end Cell

end TypedNotation
