import TypedNotation.Proofs.CellTokens

/-!
# The cells of a text

A text whose tokens are accepted can be cut into cells. Each line is scanned, its blanks become gaps
and its other lexemes become stops; only comments have to be trimmed, since the scanner takes blanks
along with them (`Lexeme.cells`).

That the cells read as the scanner cuts them follows by induction along the scan, by what each of
its steps asks of the rest of the line (`Scanner.reads_cells`).
-/

namespace TypedNotation

open List Text Cell Config
open Scan (isNameChar)

/-! ### Trimming -/

namespace Text

variable {cs : List Char}

/-- The blanks at the end of a text. -/
def trail (cs : List Char) : List Char :=
  (cs.reverse.takeWhile isBlank).reverse

/-- The text without the blanks at its ends. -/
def trim (cs : List Char) : List Char :=
  trimEnd (trimStart cs)

theorem trimEnd_append_trail (cs : List Char) : trimEnd cs ++ trail cs = cs := by
  rw [trimEnd, trail, ← reverse_append, takeWhile_append_dropWhile, reverse_reverse]

/-- A line is its blanks and what is between. -/
theorem indent_append_trim_append_trail (cs : List Char) :
    indent cs ++ (trim cs ++ trail (trimStart cs)) = cs := by
  rw [trim, trimEnd_append_trail, indent_append_trimStart]

theorem isBlank_of_mem_indent {c : Char} (h : c ∈ indent cs) : isBlank c = true :=
  mem_takeWhile_imp h

theorem isBlank_of_mem_trail {c : Char} (h : c ∈ trail cs) : isBlank c = true :=
  mem_takeWhile_imp (mem_reverse.1 h)

theorem getLast?_trimEnd : ∀ c ∈ (trimEnd cs).getLast?, isBlank c = false := by
  intro c hc
  rw [trimEnd, getLast?_reverse] at hc
  have hhead := head?_dropWhile_not isBlank cs.reverse
  rw [Option.mem_def.1 hc] at hhead
  exact hhead

theorem head?_trim : ∀ c ∈ (trim cs).head?, isBlank c = false := by
  intro c hc
  obtain ⟨own, hown⟩ := head?_eq_some_iff.1 hc
  have hhead := head?_dropWhile_not isBlank cs
  have heq : trimStart cs = c :: (own ++ trail (trimStart cs)) := by
    rw [← cons_append, ← hown, trim, trimEnd_append_trail]
  rw [trimStart] at heq
  rw [heq] at hhead
  exact hhead

theorem trim_ne_nil (h : allBlank cs = false) : trim cs ≠ [] := by
  intro hnil
  have heq := indent_append_trim_append_trail cs
  rw [hnil, nil_append] at heq
  have hall : allBlank cs = true := by
    rw [allBlank, all_eq_true]
    intro c hc
    rw [← heq] at hc
    rcases mem_append.1 hc with hc | hc
    · exact isBlank_of_mem_indent hc
    · exact isBlank_of_mem_trail hc
  rw [hall] at h
  cases h

theorem trimEnd_eq_self (h : ∀ c ∈ cs.getLast?, isBlank c = false) : trimEnd cs = cs := by
  rw [trimEnd, reverse_eq_iff]
  cases hcs : cs.reverse with
  | nil => rfl
  | cons c rest =>
    have hc : isBlank c = false := h c (by rw [← head?_reverse, hcs]; rfl)
    rw [dropWhile_cons, if_neg (by simp [hc])]

theorem trimStart_eq_self (h : ∀ c ∈ cs.head?, isBlank c = false) : trimStart cs = cs := by
  cases cs with
  | nil => rfl
  | cons c rest => rw [trimStart, dropWhile_cons, if_neg (by simp [h c rfl])]

/-- A text that starts with what is not blank keeps its start. -/
theorem trim_append {a : List Char} (cs : List Char) (hne : a ≠ [])
    (h : ∀ c ∈ a, isBlank c = false) : trim (a ++ cs) = a ++ trimEnd cs := by
  have hstart : trimStart (a ++ cs) = a ++ cs := by
    refine trimStart_eq_self fun c hc => ?_
    obtain ⟨d, a, rfl⟩ := exists_cons_of_ne_nil hne
    exact h c (mem_of_mem_head? hc)
  have hdrop : (a.reverse).dropWhile isBlank = a.reverse := by
    cases ha : a.reverse with
    | nil => rfl
    | cons c rest =>
      have hc : c ∈ a := mem_reverse.1 (ha ▸ mem_cons_self)
      rw [dropWhile_cons, if_neg (by simp [h c hc])]
  rw [trim, hstart, trimEnd, trimEnd, reverse_append, dropWhile_append, hdrop]
  split <;> simp_all

end Text

/-! ### Comments -/

namespace Scanner

variable {s next : Scanner} {x : Lexeme}

/-- A comment may be trimmed. -/
theorem Takes.trim (h : s.Takes x next) (hx : x.category.isComment = true)
    (hvisible : allBlank x.text = false) :
    s.Takes ⟨trim x.text, x.category, x.blocks⟩ next := by
  -- a comment with an end has no blanks behind it
  have hends : ∀ own : List Char, Scan.commentLength? own = some own.length →
      ∀ c ∈ own.getLast?, isBlank c = false := by
    intro own hown c hc
    obtain ⟨-, front, hfront⟩ := Scan.exists_of_commentLength? hown
    rw [take_length] at hfront
    rw [hfront] at hc
    obtain rfl : c = '/' := by simpa [eq_comm] using hc
    rfl
  cases h with
  | @lineComment blocks k own =>
    have htrim := trim_append (a := ['/', '/']) own (by simp) (by simp [isBlank])
    simp only [cons_append, nil_append] at htrim
    rw [htrim]
    exact .lineComment
  | @comment blocks k own h =>
    have htrim := trim_append (a := ['/', '*']) own (by simp) (by simp [isBlank])
    simp only [cons_append, nil_append] at htrim
    rw [htrim, trimEnd_eq_self (hends own h)]
    exact .comment h
  | @openComment blocks k own h =>
    have htrim := trim_append (a := ['/', '*']) own (by simp) (by simp [isBlank])
    simp only [cons_append, nil_append] at htrim
    rw [htrim]
    refine .openComment (Scan.commentLength?_eq_none_of_append (a := []) (c := trail own) ?_)
    rwa [nil_append, trimEnd_append_trail]
  | @commentEnd blocks k own h =>
    have hstart : Scan.commentLength? (trimStart own) = some (trimStart own).length := by
      have heq := Scan.commentLength?_blank_append (trimStart own)
        fun c (hc : c ∈ indent own) => isBlank_of_mem_indent hc
      rw [indent_append_trimStart, h] at heq
      obtain ⟨n, hn, hlength⟩ := Option.map_eq_some_iff.1 heq.symm
      have htotal := congrArg List.length (indent_append_trimStart own)
      rw [length_append] at htotal
      rw [hn]
      congr 1
      omega
    rw [trim, trimEnd_eq_self (hends _ hstart)]
    exact .commentEnd hstart
  | @commentMore blocks k own hne h =>
    refine .commentMore (trim_ne_nil hvisible) (Scan.commentLength?_eq_none_of_append
      (a := indent own) (c := trail (trimStart own)) ?_)
    rwa [indent_append_trim_append_trail]
  | number | negative => split at hx <;> cases hx
  | _ => cases hx

/-- A lexeme without a meaning is a comment. -/
theorem Takes.isComment_of_ignored {s next : Scanner} {x : Lexeme} (h : s.Takes x next)
    (hx : x.category.tokenKind = .ignored) : x.category.isComment = true := by
  cases h with
  | number | negative => split at hx <;> cases hx
  | lineComment | comment | openComment | commentEnd | commentMore => rfl
  | _ => cases hx

theorem Takes.mode_of_isComment {s next : Scanner} {x : Lexeme} (h : s.Takes x next)
    (hx : x.category.isComment = true) : s.mode ≠ .string ∧ next.mode ≠ .string := by
  cases h with
  | lineComment | comment | openComment | commentEnd | commentMore => simp
  | number | negative => split at hx <;> cases hx
  | _ => cases hx

/-- A comment that cannot be seen is a blank line in the middle of it. -/
theorem Takes.next_of_allBlank {s next : Scanner} {x : Lexeme} (h : s.Takes x next)
    (hx : x.category.isComment = true) (hblank : allBlank x.text = true) :
    next = s ∧ s.mode = .comment := by
  cases h with
  | commentMore => exact ⟨rfl, rfl⟩
  | @commentEnd _ _ own h =>
    obtain ⟨-, front, hfront⟩ := Scan.exists_of_commentLength? h
    rw [take_length] at hfront
    simp [hfront, allBlank, isBlank] at hblank
  | lineComment | comment | openComment => simp [allBlank, isBlank] at hblank
  | number | negative => split at hx <;> cases hx
  | _ => cases hx

end Scanner

/-! ### Cutting a line -/

namespace Lexeme

/-- The cells of the rest of a line behind some blanks. -/
def cells (ret : Bool) (gap : List Char) : List Lexeme → List Cell
  | [] => [⟨gap, .line ret⟩]
  | x :: xs =>
    if x.category.tokenKind = .ignored then
      if allBlank x.text then cells ret (gap ++ x.text) xs
      else
        ⟨gap ++ indent x.text, .core ⟨trim x.text, x.category, x.blocks⟩⟩ ::
          cells ret (trail (trimStart x.text)) xs
    else ⟨gap, .core x⟩ :: cells ret [] xs

variable {ret : Bool} {gap : List Char}

/-- The cells of a line spell it. -/
theorem chars_cells (xs : List Lexeme) :
    Cell.chars (cells ret gap xs) = gap ++ (chars xs ++ (Stop.line ret).text) := by
  induction xs generalizing gap with
  | nil => simp [cells]
  | cons x xs ih =>
    rw [cells]
    split
    · split
      · rw [ih, chars_cons, append_assoc, append_assoc]
      · have hx := indent_append_trim_append_trail x.text
        rw [Cell.chars_cons, ih, chars_cons]
        conv_rhs => rw [← hx]
        simp [Stop.text]
    · rw [Cell.chars_cons, ih, chars_cons]
      simp [Stop.text]

/-- The cells of a line have the marks of its tokens. -/
theorem run_marks_cells (c : Config) (xs : List Lexeme) (more : List Mark) :
    c.run (marks (cells ret gap xs) ++ more) =
      c.run (xs.map (fun x => ⟨x.category.tokenKind, String.ofList x.text⟩) ++
        ⟨.newline, "\n"⟩ :: more) := by
  induction xs generalizing gap c with
  | nil => rfl
  | cons x xs ih =>
    rw [cells, map_cons, cons_append, run_cons]
    split
    next hignored =>
      rw [c.step_of_ignored hignored]
      split
      · exact ih c
      · rw [marks_cons, cons_append, run_cons, c.step_of_ignored hignored]
        exact ih c
    next =>
      rw [marks_cons, cons_append, run_cons]
      simp only [ih]
      rfl

/-- Where the end of the line comes first, there is nothing but blanks. -/
theorem eq_of_cells_eq_line {xs : List Lexeme} {front : List Char} {other : Bool} {rest : List Cell}
    (h : cells ret gap xs = ⟨front, .line other⟩ :: rest) :
    front = gap ++ chars xs ∧ other = ret := by
  induction xs generalizing gap with
  | nil =>
    simp only [cells, List.cons.injEq, Cell.mk.injEq, Stop.line.injEq] at h
    simp [h.1.1, h.1.2]
  | cons x xs ih =>
    rw [cells] at h
    split at h
    · split at h
      · rw [chars_cons, ← append_assoc]
        exact ih h
      · simp at h
    · simp at h

theorem map_mark_tokensFrom (line column : Nat) (xs : List Lexeme) :
    (tokensFrom line column xs).map Token.mark =
      xs.map fun x => ⟨x.category.tokenKind, String.ofList x.text⟩ := by
  induction xs generalizing column with
  | nil => rfl
  | cons x xs ih =>
    rw [tokensFrom_cons, map_cons, ih]
    rfl

theorem exists_token_mem_tokensFrom (line column : Nat) {xs : List Lexeme} {x : Lexeme}
    (h : x ∈ xs) : ∃ column', x.token line column' ∈ tokensFrom line column xs := by
  induction xs generalizing column with
  | nil => cases h
  | cons y xs ih =>
    rw [tokensFrom_cons]
    rcases mem_cons.1 h with rfl | h
    · exact ⟨column, mem_cons_self⟩
    · obtain ⟨column', hmem⟩ := ih _ h
      exact ⟨column', mem_cons_of_mem _ hmem⟩

theorem exists_cells_eq_cons (ret : Bool) (gap : List Char) (xs : List Lexeme) :
    ∃ y rest, cells ret gap xs = y :: rest := by
  induction xs generalizing gap with
  | nil => exact ⟨_, _, rfl⟩
  | cons x xs ih =>
    rw [cells]
    split
    · split
      · exact ih _
      · exact ⟨_, _, rfl⟩
    · exact ⟨_, _, rfl⟩

end Lexeme

/-- A lexeme that the language knows. -/
def Lexeme.Legal (x : Lexeme) : Prop :=
  x.category ≠ .illegal ∧ x.category ≠ .badEscape

namespace Scanner

variable {ret : Bool} {gap : List Char} {cs : List Char}

/-- Behind a key the first cell is its colon. -/
theorem exists_cells_colon (ret : Bool) (blocks : List BlockKind)
    (h : Scan.colonFollows cs = true) :
    ∃ gap rest, Lexeme.cells ret [] (scan ⟨⟨blocks, .plain⟩, true⟩ cs).1 =
      ⟨gap, .core ⟨[':'], .colon, blocks⟩⟩ :: rest ∧ ∀ c ∈ gap, c = ' ' ∨ c = '\t' := by
  have hblanks : ∀ c ∈ cs.takeWhile fun c => c == ' ' || c == '\t', c = ' ' ∨ c = '\t' := by
    intro c hc
    simpa using mem_takeWhile_imp hc
  have hcs := takeWhile_append_dropWhile (p := fun c => c == ' ' || c == '\t') (l := cs)
  rw [Scan.colonFollows] at h
  obtain ⟨rest, hrest⟩ := head?_eq_some_iff.1 (beq_iff_eq.1 h)
  rw [hrest] at hcs
  generalize cs.takeWhile (fun c => c == ' ' || c == '\t') = gap at hblanks hcs
  subst hcs
  refine ⟨gap, Lexeme.cells ret [] (scan ⟨⟨blocks, .plain⟩, false⟩ rest).1, ?_, hblanks⟩
  have hcolon := cuts_colon blocks rest
  cases gap with
  | nil =>
    rw [Cuts, Lexeme.chars_cons, Lexeme.chars_nil] at hcolon
    rw [nil_append]
    simp only [append_nil, singleton_append] at hcolon
    rw [hcolon, Lexeme.cells, if_neg (by simp [Category.tokenKind])]
  | cons c gap =>
    have hblank : ∀ d ∈ c :: gap, isBlank d = true := by
      intro d hd
      rcases hblanks d hd with rfl | rfl <;> rfl
    have hcuts : Cuts ⟨⟨blocks, .plain⟩, true⟩ [⟨c :: gap, .blank, blocks⟩, ⟨[':'], .colon, blocks⟩]
        ⟨⟨blocks, .plain⟩, false⟩ rest := by
      refine Cuts.cons (cuts_blank blocks true _ (hblank c mem_cons_self)
        (fun d hd => hblank d (mem_cons_of_mem c hd)) ?_) hcolon
      simp [isBlank]
    rw [Cuts] at hcuts
    simp only [Lexeme.chars_cons, Lexeme.chars_nil, append_nil, append_assoc,
      singleton_append] at hcuts
    rw [hcuts, cons_append, Lexeme.cells, if_pos (by rfl),
      if_pos (by simpa [allBlank] using hblank), nil_append, singleton_append, Lexeme.cells,
      if_neg (by simp [Category.tokenKind])]

theorem Takes.category_of_string {s next : Scanner} {x : Lexeme} (h : s.Takes x next)
    (hmode : s.mode = .string) (hx : x.text.head? = some '"' ∨ x.text.head? = some '\\') :
    x.category = .quote .closing ∨ x.category = .escape := by
  cases h with
  | closingQuote => exact .inl rfl
  | escape => exact .inr rfl
  | stringText hown =>
    obtain ⟨hquote, hslash⟩ := hown _ List.mem_cons_self
    simp [hquote, hslash] at hx
  | _ => cases hmode

/-- In a string a quote ends it, and a backslash starts an escape. -/
theorem Finds.category_of_string {s : Scanner} {c : Char} {t : Step} (h : s.Finds c cs t)
    (hmode : s.mode = .string) (hc : c = '"' ∨ c = '\\') (hlegal : t.category ≠ .badEscape) :
    t.category = .quote .closing ∨ t.category = .escape := by
  cases h with
  | lexeme _ h => exact h.takes.category_of_string hmode (by simpa using hc)
  | blank hplain | illegal hplain => cases hmode.symm.trans hplain
  | badEscape => exact absurd rfl hlegal

/-- In a string the first cell is the first lexeme. -/
theorem stop_of_cells_string {s : Scanner} (hmode : s.mode = .string)
    (hhead : ∀ d ∈ cs.head?, d = '"' ∨ d = '\\') (hlegal : ∀ x ∈ (s.scan cs).1, x.Legal) {y : Cell}
    {rest : List Cell} (h : Lexeme.cells ret [] (s.scan cs).1 = y :: rest) :
    ∀ z, y.stop = .core z → z.category = .quote .closing ∨ z.category = .escape := by
  intro z hz
  cases cs with
  | nil =>
    rw [scan, Lexeme.cells] at h
    obtain ⟨rfl, -⟩ := List.cons.inj h
    cases hz
  | cons d cs =>
    rw [scan] at h hlegal
    have hcategory : (s.step d cs).category = .quote .closing ∨ (s.step d cs).category = .escape :=
      (s.finds_step d cs).category_of_string hmode (hhead d rfl) (hlegal _ mem_cons_self).2
    rw [Lexeme.cells, if_neg] at h
    · obtain ⟨rfl, -⟩ := List.cons.inj h
      obtain rfl := Stop.core.inj hz
      exact hcategory
    · dsimp only
      rcases hcategory with hcategory | hcategory <;> rw [hcategory] <;> simp [Category.tokenKind]

/-- What a lexeme asks of the next cell, if it is not a comment. -/
theorem Sound.meets {s : Scanner} {c : Char} {t : Step} (h : s.Sound c cs t)
    (hcomment : t.category.isComment = false)
    (hlegal : ∀ x ∈ (t.next.scan (cs.drop t.extra)).1, x.Legal)
    (hret : ret = false → (c :: cs).getLast? ≠ some '\r') {y : Cell} {rest : List Cell}
    (hy : Lexeme.cells ret [] (t.next.scan (cs.drop t.extra)).1 = y :: rest) :
    Lexeme.Meets ⟨c :: cs.take t.extra, t.category, t.blocks⟩ t.next y := by
  constructor
  · intro hkey
    have hcolon := h.key hkey
    obtain ⟨blocks, hnext⟩ := h.takes.next_of_key hkey
    rw [hnext] at hy
    obtain ⟨gap, others, heq, hgap⟩ := exists_cells_colon ret blocks hcolon
    rw [heq] at hy
    obtain ⟨rfl, -⟩ := List.cons.inj hy
    exact ⟨hgap, blocks, rfl⟩
  · intro htext
    exact stop_of_cells_string (h.takes.mode_of_stringText htext) (h.text htext) hlegal hy
  · rintro (hline | hmode)
    · rw [show t.category = .lineComment from hline] at hcomment
      cases hcomment
    · have := h.takes.isComment_of_mode (.inr hmode)
      rw [hcomment] at this
      cases this
  · intro hgap hstop
    obtain ⟨gap, stop⟩ := y
    obtain rfl : gap = [] := hgap
    obtain rfl : stop = .line false := hstop
    obtain ⟨hchars, hfalse⟩ := Lexeme.eq_of_cells_eq_line hy
    rw [nil_append, Lexeme.chars, scan_text] at hchars
    have hlast := hret hfalse.symm
    rw [← take_append_drop t.extra cs, ← hchars, append_nil] at hlast
    exact hlast

/-- A lexeme that is not a comment becomes a cell as it is. -/
theorem Sound.reads_lexeme {s : Scanner} {c : Char} {t : Step} (h : s.Sound c cs t)
    (hcomment : t.category.isComment = false) (hgap : s.GapFits gap)
    (hfeed : '\n' ∉ c :: cs.take t.extra)
    (hlegal : ∀ x ∈ (t.next.scan (cs.drop t.extra)).1, x.Legal)
    (hret : ret = false → (c :: cs).getLast? ≠ some '\r') {y : Cell} {rest more : List Cell}
    (hy : Lexeme.cells ret [] (t.next.scan (cs.drop t.extra)).1 = y :: rest)
    (hread : Reads t.next (y :: rest ++ more)) :
    Reads s (⟨gap, .core ⟨c :: cs.take t.extra, t.category, t.blocks⟩⟩ ::
      (y :: rest ++ more)) := by
  refine .core hgap h.takes ⟨hfeed, ?_, ?_⟩ (h.meets hcomment hlegal hret hy) hread
  · exact fun hstring d hd => h.solid hstring hcomment d (mem_of_mem_head? hd)
  · exact fun hstring d hd => h.solid hstring hcomment d (mem_of_mem_getLast? hd)

section Comment

variable {s : Scanner} {c : Char} {cs : List Char} {t : Step}

/-- A part of a comment is on its line. -/
theorem not_mem_of_parts {own part a b : List Char} (hfeed : '\n' ∉ own)
    (h : a ++ (part ++ b) = own) : '\n' ∉ part :=
  fun hpart => hfeed (h ▸ mem_append_right a (mem_append_left b hpart))

theorem Sound.gapFits_trail (h : s.Sound c cs t) (hcomment : t.category.isComment = true)
    (hfeed : '\n' ∉ c :: cs.take t.extra) :
    t.next.GapFits (trail (trimStart (c :: cs.take t.extra))) := by
  have hparts := indent_append_trim_append_trail (c :: cs.take t.extra)
  refine ⟨fun d => isBlank_of_mem_trail, ?_,
    fun hstring => absurd hstring (h.takes.mode_of_isComment hcomment).2⟩
  rw [← append_assoc, ← append_nil (trail _)] at hparts
  exact not_mem_of_parts hfeed hparts

/-- A comment becomes a cell, trimmed. -/
theorem Sound.reads_comment (h : s.Sound c cs t) (hcomment : t.category.isComment = true)
    (hvisible : allBlank (c :: cs.take t.extra) = false) (hgap : s.GapFits gap)
    (hfeed : '\n' ∉ c :: cs.take t.extra) {y : Cell} {rest : List Cell}
    (hends : t.category = .lineComment ∨ t.next.mode = .comment → y.stop.isLine = true)
    (hread : Reads t.next (y :: rest)) :
    Reads s (⟨gap ++ indent (c :: cs.take t.extra),
      .core ⟨trim (c :: cs.take t.extra), t.category, t.blocks⟩⟩ :: y :: rest) := by
  have hparts := indent_append_trim_append_trail (c :: cs.take t.extra)
  refine .core (hgap.append (fun d => isBlank_of_mem_indent) ?_
    (h.takes.mode_of_isComment hcomment).1)
    (h.takes.trim hcomment hvisible)
    ⟨not_mem_of_parts hfeed hparts, fun _ => head?_trim, fun _ => getLast?_trimEnd⟩
    ⟨?_, ?_, hends, ?_⟩ hread
  · rw [← nil_append (indent _ ++ _)] at hparts
    exact not_mem_of_parts hfeed hparts
  · intro hkey
    rw [show t.category = .key from hkey] at hcomment
    cases hcomment
  · intro htext
    rw [show t.category = .stringText from htext] at hcomment
    cases hcomment
  · intro _ _ hlast
    cases getLast?_trimEnd _ hlast

end Comment

/-- **A line is cut into cells.** The cells of a scanned line, and those of the lines after it, are
cut as the scanner cuts them. -/
theorem reads_cells (s : Scanner) (row : List Char) {more : List Cell}
    (hlegal : ∀ x ∈ (s.scan row).1, x.Legal) (hgap : s.GapFits gap) (hfeed : '\n' ∉ row)
    (hret : ret = false → (gap ++ row).getLast? ≠ some '\r')
    (hmore : Reads (s.scan row).2.nextLine more) :
    Reads s (Lexeme.cells ret gap (s.scan row).1 ++ more) := by
  fun_induction scan s row generalizing gap with
  | case1 s => exact .line hgap (fun h => by simpa using hret h) hmore
  | case2 s c cs t found last hscan =>
    rename_i ih
    have hfinds : s.Finds c cs t := s.finds_step c cs
    clear_value t
    rw [hscan] at ih
    have hlegal' : ∀ x ∈ found, x.Legal := fun x hx => hlegal x (mem_cons_of_mem _ hx)
    have hrow : c :: cs = (c :: cs.take t.extra) ++ cs.drop t.extra := by
      rw [cons_append, take_append_drop]
    have hfeedOwn : '\n' ∉ c :: cs.take t.extra := fun h => hfeed (hrow ▸ mem_append_left _ h)
    have hfeedRest : '\n' ∉ cs.drop t.extra := fun h => hfeed (hrow ▸ mem_append_right _ h)
    have hretRest : ∀ gap' : List Char,
        (∃ front, gap ++ (c :: cs) = front ++ (gap' ++ cs.drop t.extra)) →
        ret = false → (gap' ++ cs.drop t.extra).getLast? ≠ some '\r' := by
      rintro gap' ⟨front, hfront⟩ hfalse hlast
      refine hret hfalse ?_
      rw [hfront, getLast?_append, hlast]
      rfl
    -- blanks are not a cell of their own, the gap of the next one grows
    have hswallow : t.category.tokenKind = .ignored → allBlank (c :: cs.take t.extra) = true →
        t.next = s → s.mode ≠ .string →
        Reads s (Lexeme.cells ret gap
          (⟨c :: cs.take t.extra, t.category, t.blocks⟩ :: found) ++ more) := by
      intro hignored hall hnext hmode
      have hfits : t.next.GapFits (gap ++ (c :: cs.take t.extra)) := by
        rw [hnext]
        exact hgap.append (by simpa [allBlank] using hall) hfeedOwn hmode
      have hread := ih hlegal' hfits hfeedRest
        (hretRest _ ⟨[], by rw [append_assoc, ← hrow]; rfl⟩) hmore
      rw [Lexeme.cells, if_pos hignored, if_pos hall]
      rwa [hnext] at hread
    cases hfinds with
    | illegal => exact absurd rfl (hlegal _ mem_cons_self).1
    | badEscape => exact absurd rfl (hlegal _ mem_cons_self).2
    | blank hmode hc =>
      refine hswallow rfl ?_ rfl (by simp [hmode])
      simp [allBlank, indent, take_length_takeWhile, hc]
    | lexeme _ hsound =>
      by_cases hignored : t.category.tokenKind = .ignored
      · have hcomment : t.category.isComment = true := hsound.takes.isComment_of_ignored hignored
        by_cases hall : allBlank (c :: cs.take t.extra) = true
        · -- a blank line in a comment
          obtain ⟨hnext, hmode⟩ := hsound.takes.next_of_allBlank hcomment hall
          exact hswallow hignored hall hnext (by simp [hmode])
        · -- a comment
          rw [Lexeme.cells, if_pos hignored, if_neg hall]
          obtain ⟨y, rest, hy⟩ := Lexeme.exists_cells_eq_cons ret
            (trail (trimStart (c :: cs.take t.extra))) found
          have hparts := indent_append_trim_append_trail (c :: cs.take t.extra)
          have hfront : gap ++ (c :: cs) = (gap ++ (indent (c :: cs.take t.extra) ++
              trim (c :: cs.take t.extra))) ++
                (trail (trimStart (c :: cs.take t.extra)) ++ cs.drop t.extra) := by
            rw [hrow]
            conv_lhs => rw [← hparts]
            simp only [append_assoc]
          have hread := ih hlegal' (hsound.gapFits_trail hcomment hfeedOwn) hfeedRest
            (hretRest _ ⟨_, hfront⟩) hmore
          rw [cons_append]
          rw [hy] at hread ⊢
          refine hsound.reads_comment hcomment (by simpa using hall) hgap hfeedOwn (fun hends => ?_)
            hread
          have hnil : found = [] := by
            have hscan' := hscan
            rw [hsound.comment hends, scan] at hscan'
            exact (Prod.mk.inj hscan').1.symm
          rw [hnil, Lexeme.cells] at hy
          obtain ⟨rfl, -⟩ := List.cons.inj hy
          rfl
      · -- anything else
        rw [Lexeme.cells, if_neg hignored]
        have hcomment : t.category.isComment = false := by
          by_contra h
          exact hignored (Category.tokenKind_of_isComment (by simpa using h))
        obtain ⟨y, rest, hy⟩ := Lexeme.exists_cells_eq_cons ret [] found
        have hread := ih hlegal' (gapFits_nil _) hfeedRest
          (hretRest [] ⟨gap ++ (c :: cs.take t.extra), by
          rw [nil_append, append_assoc, ← hrow]⟩) hmore
        rw [hy] at hread ⊢
        refine hsound.reads_lexeme hcomment hgap hfeedOwn (by rw [hscan]; exact hlegal')
          (fun hfalse hlast => ?_)
          (by rw [hscan]; exact hy) hread
        refine hret hfalse ?_
        rw [getLast?_append, hlast]
        rfl

end Scanner

/-! ### Cutting a text -/

namespace Text

theorem not_mem_of_mem_pieces {cut : Char} {cs piece : List Char} (h : piece ∈ pieces cut cs) :
    cut ∉ piece := by
  induction cs generalizing piece with
  | nil =>
    rw [mem_singleton.1 h]
    exact not_mem_nil
  | cons c cs ih =>
    rw [pieces] at h
    split at h
    next hnil => exact absurd hnil (pieces_ne_nil cut cs)
    next first rest heq =>
      have hfirst : cut ∉ first := ih (heq ▸ mem_cons_self)
      have hrest : ∀ p ∈ rest, cut ∉ p := fun p hp => ih (heq ▸ mem_cons_of_mem _ hp)
      split at h
      · rcases mem_cons.1 h with rfl | h
        · exact not_mem_nil
        · exact ih (heq ▸ h)
      next hc =>
        rcases mem_cons.1 h with rfl | h
        · exact fun hmem => (mem_cons.1 hmem).elim (fun heq => hc heq.symm) hfirst
        · exact hrest piece h

/-- The pieces, each with the character that ends it, spell the text. -/
theorem flatMap_pieces (cut : Char) (cs : List Char) :
    (pieces cut cs).flatMap (fun piece => piece ++ [cut]) = cs ++ [cut] := by
  induction cs with
  | nil => rfl
  | cons c cs ih =>
    rw [pieces]
    split
    next hnil => exact absurd hnil (pieces_ne_nil cut cs)
    next first rest heq =>
      rw [heq] at ih
      split
      next hc =>
        rw [flatMap_cons, ih, hc]
        rfl
      next =>
        rw [flatMap_cons] at ih ⊢
        simp [← ih]

end Text

namespace Config

/-- What is not part of the language is not accepted. -/
theorem kind_ne_invalid_of_run {c : Config} {ms : List Mark} (h : (c.run ms).isSome = true)
    {m : Mark} (hm : m ∈ ms) (fatal : Bool) : m.kind ≠ .invalid fatal := by
  induction ms generalizing c with
  | nil => cases hm
  | cons n ms ih =>
    obtain ⟨c', hstep, hrest⟩ := exists_step_of_run h
    rcases mem_cons.1 hm with rfl | hm
    · intro hkind
      rw [step, hkind, if_neg (by simp)] at hstep
      split at hstep
      · simp [read, hkind] at hstep
      · simp [read, hkind] at hstep
      · simp [read, hkind] at hstep
      · simp [readInString, hkind] at hstep
    · exact ih hrest hm

end Config

namespace LineState

/-- The cells of some lines, given with the carriage returns at their ends. -/
def cells (s : LineState) : List (List Char) → List Cell
  | [] => []
  | piece :: rest =>
    Lexeme.cells (piece.getLast? == some '\r') [] (s.scan (dropReturn piece)).1 ++
      (s.scan (dropReturn piece)).2.cells rest

/-- The cells of a text spell it. -/
theorem chars_cells (s : LineState) (pieces : List (List Char)) :
    Cell.chars (s.cells pieces) = pieces.flatMap fun piece => piece ++ ['\n'] := by
  induction pieces generalizing s with
  | nil => rfl
  | cons piece rest ih =>
    have hpiece : dropReturn piece ++ (Stop.line (piece.getLast? == some '\r')).text =
        piece ++ ['\n'] := by
      by_cases hreturn : piece.getLast? = some '\r'
      · obtain ⟨front, rfl⟩ := getLast?_eq_some_iff.1 hreturn
        rw [dropReturn_append]
        simp [Stop.text]
      · rw [dropReturn_eq_self hreturn]
        simp [Stop.text, hreturn]
    rw [cells, chars_append, Lexeme.chars_cells, ih, flatMap_cons, nil_append, Lexeme.chars,
      scan_text, hpiece]

/-- They have the marks of its tokens. -/
theorem run_marks_cells (s : LineState) (line : Nat) (pieces : List (List Char)) (c : Config) :
    c.run (marks (s.cells pieces)) =
      c.run ((s.tokensOfLines line (pieces.map dropReturn)).map Token.mark) := by
  induction pieces generalizing s line c with
  | nil => rfl
  | cons piece rest ih =>
    rw [cells, marks, map_append, map_cons, tokensOfLines, tokens, append_assoc,
      map_append, Lexeme.map_mark_tokensFrom, singleton_append, map_cons]
    refine (Lexeme.run_marks_cells c _ _).trans ?_
    rw [run_append, run_append]
    simp only [run_cons]
    have hrest := fun c => ih (s.scan (dropReturn piece)).2 (line + 1) c
    simp only [marks] at hrest
    simp only [hrest]
    rfl

/-- The lexemes of some lines whose tokens are accepted are legal. -/
theorem legal_of_tokens {s : LineState} {line : Nat} {row : List Char}
    (h : ∀ t ∈ s.tokens line row, t.kind ≠ .invalid false) : ∀ x ∈ (s.scan row).1, x.Legal := by
  intro x hx
  obtain ⟨column, hmem⟩ := Lexeme.exists_token_mem_tokensFrom line 0 hx
  have hkind : x.category.tokenKind ≠ .invalid false := h _ (mem_append_left _ hmem)
  constructor <;> intro hcategory <;> rw [hcategory] at hkind <;> exact hkind rfl

theorem reads_cells {s : LineState} {line : Nat} {pieces : List (List Char)}
    (hlegal : ∀ t ∈ s.tokensOfLines line (pieces.map dropReturn), t.kind ≠ .invalid false)
    (hfeed : ∀ piece ∈ pieces, '\n' ∉ piece) : Reads ⟨s, false⟩ (s.cells pieces) := by
  induction pieces generalizing s line with
  | nil => exact .nil
  | cons piece rest ih =>
    rw [map_cons, tokensOfLines] at hlegal
    have hrest := ih (fun t ht => hlegal t (mem_append_right _ ht))
      fun p hp => hfeed p (mem_cons_of_mem _ hp)
    have hfirst := legal_of_tokens fun t ht => hlegal t (mem_append_left _ ht)
    refine Scanner.reads_cells ⟨s, false⟩ (dropReturn piece) hfirst (Scanner.gapFits_nil _) ?_
      ?_ hrest
    · intro hmem
      refine hfeed piece mem_cons_self ?_
      rw [dropReturn] at hmem
      split at hmem
      · exact piece.dropLast_subset hmem
      · exact hmem
    · intro hreturn
      have hlast : piece.getLast? ≠ some '\r' := by simpa using hreturn
      rwa [nil_append, dropReturn_eq_self hlast]

end LineState

/-- **Every accepted text can be cut into cells.** -/
theorem Document.exists_cut {text : String} (h : accepts (marksOf text) = true) :
    ∃ cells, Cut text cells := by
  have hrun : (run {} (marksOf text)).isSome = true := by
    rw [accepts] at h
    exact Option.isSome_of_any h
  refine ⟨LineState.cells {} (pieces '\n' text.toList), ?_, ?_, ?_⟩
  · refine LineState.reads_cells (fun t (ht : t ∈ LineState.tokensOfLines {} 0 _) => ?_)
      fun piece => not_mem_of_mem_pieces
    have hmem : t.mark ∈ marksOf text := by
      rw [marksOf, tokensOf_eq]
      exact mem_map_of_mem ht
    exact kind_ne_invalid_of_run hrun hmem false
  · rw [LineState.chars_cells, flatMap_pieces]
  · rw [accepts, LineState.run_marks_cells {} 0]
    rwa [marksOf, tokensOf_eq] at h

end TypedNotation
