import TypedNotation.Proofs.NumberText
import TypedNotation.Proofs.Tokens

/-!
# Scanning piece by piece

Where a lexeme ends is decided by what follows it. `Scanner.Cuts s xs next rest` says that in front
of `rest` the scanner finds exactly the lexemes `xs` and is then in the state `next`; pieces that
are cut one behind the other are cut together (`Cuts.append`). For each kind of lexeme there is one
statement that says in front of what it is cut: a word, a tag or a number ends where no letter,
digit or point goes on and no colon follows (`Scan.Delimits`), brackets and separators always.
-/

namespace TypedNotation

open List Text

namespace Scan

variable {rest : List Char} {c : Char}

/-! ### Characters -/

theorem isNameChar_of_isDigit (h : c.isDigit = true) : isNameChar c = true := by
  simp [isNameChar, Char.isAlphanum, h]

theorem isNameChar_of_isAlpha (h : c.isAlpha = true) : isNameChar c = true := by
  simp [isNameChar, Char.isAlphanum, h]

theorem isDigit_of_isAlpha (h : c.isAlpha = true) : c.isDigit = false := by
  delta Char.isAlpha Char.isUpper Char.isLower at h
  simp only [Bool.or_eq_true, Bool.and_eq_true, decide_eq_true_eq, ge_iff_le,
    UInt32.le_iff_toNat_le] at h
  simp only [Char.isDigit, Bool.and_eq_false_iff, decide_eq_false_iff_not, ge_iff_le,
    UInt32.le_iff_toNat_le]
  refine .inr fun h9 => ?_
  rcases h with h | h <;> exact absurd (Nat.le_trans h.1 h9) (by decide)

/-- No character of a name is blank. -/
theorem isBlank_of_isNameChar (h : isNameChar c = true) : isBlank c = false := by
  have hlt : 47 < c.toNat ∧ c.toNat < 123 := by
    simp only [isNameChar, Char.isAlphanum] at h
    delta Char.isAlpha Char.isUpper Char.isLower at h
    simp only [Char.isDigit, Bool.or_eq_true, Bool.and_eq_true, decide_eq_true_eq, beq_iff_eq,
      ge_iff_le, UInt32.le_iff_toNat_le] at h
    obtain ((h | h) | h) | rfl := h
    case inr => decide
    all_goals exact ⟨Nat.lt_of_lt_of_le (by decide) h.1, Nat.lt_of_le_of_lt h.2 (by decide)⟩
  simp only [isBlank, Bool.or_eq_false_iff, Bool.and_eq_false_iff, decide_eq_false_iff_not,
    beq_eq_false_iff_ne]
  omega

/-- A character of names differs from any that is not. -/
theorem ne_of_isNameChar {c d : Char} (h : isNameChar c = true) (hd : isNameChar d = false) :
    c ≠ d := by
  rintro rfl
  rw [h] at hd
  cases hd

/-! ### What ends a word or a number -/

/-- In front of such a text a word, a tag or a number is complete. -/
structure Delimits (rest : List Char) : Prop where
  head : ∀ c ∈ rest.head?, isNameChar c = false ∧ c ≠ '.'
  colon : colonFollows rest = false

theorem delimits_nil : Delimits [] :=
  ⟨by simp, rfl⟩

theorem delimits_comma (rest : List Char) : Delimits (',' :: rest) :=
  ⟨by simp [isNameChar], rfl⟩

theorem delimits_closeChar (kind : BlockKind) (rest : List Char) :
    Delimits (kind.closeChar :: rest) := by
  cases kind <;> exact ⟨by simp [isNameChar, BlockKind.closeChar], rfl⟩

theorem Delimits.not_isNameChar (h : Delimits rest) : ∀ c ∈ rest.head?, isNameChar c = false :=
  fun c hc => (h.head c hc).1

theorem startsWithDigit_of_head (h : ∀ c ∈ rest.head?, c.isDigit = false) :
    startsWithDigit rest = false := by
  cases rest with
  | nil => rfl
  | cons c cs => exact h c rfl

/-- A run of digits ends where they end. -/
theorem digitRun_append {digits rest : List Char} (hd : ∀ c ∈ digits, c.isDigit = true)
    (hr : ∀ c ∈ rest.head?, c.isDigit = false ∧ c ≠ '_') :
    digitRun (digits ++ rest) = digits.length := by
  induction digits with
  | nil =>
    cases rest with
    | nil => rfl
    | cons c cs =>
      obtain ⟨hc, hu⟩ := hr c rfl
      simp [digitRun, hc, hu]
  | cons c cs ih =>
    rw [cons_append, digitRun, ih fun d hd' => hd d (mem_cons_of_mem c hd')]
    simp [hd c]

theorem Delimits.not_isDigit (h : Delimits rest) :
    ∀ c ∈ rest.head?, c.isDigit = false ∧ c ≠ '_' := by
  intro c hc
  have hn := (h.head c hc).1
  refine ⟨?_, ?_⟩
  · by_contra hd
    rw [isNameChar_of_isDigit (by simpa using hd)] at hn
    cases hn
  · rintro rfl
    exact absurd hn (by decide)

theorem Delimits.fractionLength_eq (h : Delimits rest) : fractionLength rest = 0 := by
  cases rest with
  | nil => rfl
  | cons c cs =>
    have hc := (h.head c rfl).2
    unfold fractionLength
    split
    next heq => exact absurd (List.cons.inj heq).1 hc
    next => rfl

theorem Delimits.powerLength_eq (h : Delimits rest) : powerLength rest = 0 := by
  cases rest with
  | nil => rfl
  | cons c cs =>
    have hc := (h.head c rfl).1
    have he : (c == 'e' || c == 'E') = false := by
      simp only [Bool.or_eq_false_iff, beq_eq_false_iff_ne]
      refine ⟨?_, ?_⟩ <;>
        · rintro rfl
          exact absurd hc (by decide)
    simp [powerLength, he]

/-- An integer is as long as its digits. -/
theorem numberLength_digits {digits rest : List Char} (hd : ∀ c ∈ digits, c.isDigit = true)
    (hr : Delimits rest) : numberLength (digits ++ rest) = (digits.length, false) := by
  have hrun := digitRun_append hd hr.not_isDigit
  simp [numberLength, hrun, hr.fractionLength_eq, hr.powerLength_eq]

/-- A text starts with a digit if its first part does. -/
theorem startsWithDigit_append {digits : List Char} (rest : List Char)
    (hd : ∀ c ∈ digits, c.isDigit = true) (hne : digits ≠ []) :
    startsWithDigit (digits ++ rest) = true := by
  cases digits with
  | nil => exact absurd rfl hne
  | cons c cs => exact hd c (by simp)

/-- A power of ten is taken as a whole. -/
theorem powerLength_append {sign digits rest : List Char}
    (hs : sign = [] ∨ sign = ['+'] ∨ sign = ['-']) (hne : digits ≠ [])
    (hd : ∀ c ∈ digits, c.isDigit = true) (hr : Delimits rest) :
    powerLength ('e' :: (sign ++ digits) ++ rest) = ('e' :: (sign ++ digits)).length := by
  have hstart := startsWithDigit_append rest hd hne
  have hrun := digitRun_append hd hr.not_isDigit
  rcases hs with rfl | rfl | rfl
  · obtain ⟨c, cs, rfl⟩ := exists_cons_of_ne_nil hne
    have hsign : ∀ d : Char, d.isDigit = false → ∀ ds, c :: (cs ++ rest) = d :: ds → False := by
      intro d hd' ds heq
      rw [← (List.cons.inj heq).1, hd c (by simp)] at hd'
      cases hd'
    simp only [nil_append, cons_append] at hstart hrun ⊢
    rw [powerLength, if_pos (by decide), if_pos hstart, hrun]
    · rfl
    · exact hsign '+' (by decide)
    · exact hsign '-' (by decide)
  · simp [powerLength, hstart, hrun]
  · simp [powerLength, hstart, hrun]

/-- A float is as long as its parts. -/
theorem numberLength_chars {p : Double.Parts} (hp : p.WellFormed)
    (hr : Delimits rest) : numberLength (p.chars ++ rest) = (p.chars.length, true) := by
  have hpower : powerLength (p.power ++ rest) = p.power.length := by
    rcases hp.power_eq with hnil | ⟨sign, digits, heq, hs, hne, hd⟩
    · rw [hnil]
      exact hr.powerLength_eq
    · rw [heq]
      exact powerLength_append hs hne hd hr
  -- what follows a run of digits is a point, the mark of a power, or what delimits
  have hmark : ∀ c ∈ (p.power ++ rest).head?, (c.isDigit = false ∧ c ≠ '_') ∧ c ≠ '.' := by
    intro c hc
    rcases hp.power_eq with hnil | ⟨sign, digits, heq, -⟩
    · rw [hnil] at hc
      exact ⟨hr.not_isDigit c hc, (hr.head c hc).2⟩
    · rw [heq] at hc
      obtain rfl : 'e' = c := Option.some.inj hc
      decide
  by_cases hpl : p.places = []
  · have hchars : p.chars = p.whole ++ p.power := by simp [Double.Parts.chars, hpl]
    have hne : p.power ≠ [] := hp.isFloat.resolve_left (by simp [hpl])
    have hwhole := digitRun_append hp.whole_digits fun c hc => (hmark c hc).1
    have hfraction : fractionLength (p.power ++ rest) = 0 := by
      unfold fractionLength
      split
      next heq => exact absurd rfl (hmark '.' (by rw [heq]; rfl)).2
      next => rfl
    have hlen : p.power.length ≠ 0 := fun h => hne (length_eq_zero_iff.1 h)
    rw [hchars, append_assoc, numberLength, hwhole]
    simp [hfraction, hpower, hlen]
  · have hchars : p.chars = p.whole ++ '.' :: (p.places ++ p.power) := by
      simp [Double.Parts.chars, hpl]
    have hpoint : ∀ c ∈ ('.' :: (p.places ++ (p.power ++ rest))).head?, c.isDigit = false ∧
        c ≠ '_' := by
      intro c hc
      obtain rfl : '.' = c := Option.some.inj hc
      decide
    have hwhole := digitRun_append hp.whole_digits hpoint
    have hplaces := digitRun_append hp.places_digits fun c hc => (hmark c hc).1
    have hfraction : fractionLength ('.' :: (p.places ++ (p.power ++ rest))) =
        p.places.length + 1 := by
      rw [fractionLength, startsWithDigit_append _ hp.places_digits hpl, if_pos rfl, hplaces]
    have hdrop : (p.whole ++ '.' :: (p.places ++ (p.power ++ rest))).drop
        (p.whole.length + (p.places.length + 1)) = p.power ++ rest := by
      rw [← drop_drop, drop_left, drop_succ_cons, drop_left]
    have hassoc : p.whole ++ '.' :: (p.places ++ p.power) ++ rest =
        p.whole ++ '.' :: (p.places ++ (p.power ++ rest)) := by simp
    rw [hchars, hassoc, numberLength, hwhole]
    simp only [drop_left, hfraction, hdrop, hpower]
    simp
    omega

end Scan

namespace Scanner

open Scan

/-! ### Pieces -/

/-- In front of `rest`, exactly the lexemes `xs` are found, and the scanner is then in the state
`next`. -/
def Cuts (s : Scanner) (xs : List Lexeme) (next : Scanner) (rest : List Char) : Prop :=
  s.scan (Lexeme.chars xs ++ rest) = (xs ++ (next.scan rest).1, (next.scan rest).2)

theorem cuts_nil (s : Scanner) (rest : List Char) : s.Cuts [] s rest := rfl

/-- Pieces are cut one behind the other. -/
theorem Cuts.append {s t u : Scanner} {xs ys : List Lexeme} {rest : List Char}
    (hxs : s.Cuts xs t (Lexeme.chars ys ++ rest)) (hys : t.Cuts ys u rest) :
    s.Cuts (xs ++ ys) u rest := by
  unfold Cuts at hxs hys ⊢
  rw [Lexeme.chars_append, append_assoc, hxs, hys, append_assoc]

/-- A lexeme is cut off in front of others. -/
theorem Cuts.cons {s t u : Scanner} {x : Lexeme} {xs : List Lexeme} {rest : List Char}
    (hx : s.Cuts [x] t (Lexeme.chars xs ++ rest)) (hxs : t.Cuts xs u rest) :
    s.Cuts (x :: xs) u rest :=
  hx.append hxs

/-- What can be cut off to the end is what is scanned. -/
theorem scan_eq_of_cuts {s t : Scanner} {xs : List Lexeme} (h : s.Cuts xs t []) :
    s.scan (Lexeme.chars xs) = (xs, t) := by
  have := h
  rw [Cuts, append_nil] at this
  rw [this]
  simp [scan]

/-- One step cuts one lexeme. -/
theorem cuts_of_step {s next : Scanner} {c : Char} {own rest : List Char} {k : Category}
    {blocks : List BlockKind} (h : s.step c (own ++ rest) = ⟨k, own.length, blocks, next⟩) :
    s.Cuts [⟨c :: own, k, blocks⟩] next rest := by
  simp only [Cuts, Lexeme.chars_cons, Lexeme.chars_nil, append_nil, cons_append]
  rw [scan, h]
  simp

/-! ### Lexemes of plain text -/

section Plain

variable (blocks : List BlockKind) (afterKey : Bool) (rest : List Char) {own : List Char} {c : Char}

theorem cuts_comma :
    Cuts ⟨⟨blocks, .plain⟩, afterKey⟩ [⟨[','], .comma, blocks⟩] ⟨⟨blocks, .plain⟩, false⟩ rest :=
  cuts_of_step rfl

theorem cuts_colon :
    Cuts ⟨⟨blocks, .plain⟩, true⟩ [⟨[':'], .colon, blocks⟩] ⟨⟨blocks, .plain⟩, false⟩ rest :=
  cuts_of_step rfl

theorem cuts_openingQuote :
    Cuts ⟨⟨blocks, .plain⟩, afterKey⟩ [⟨['"'], .quote .opening, blocks⟩] ⟨⟨blocks, .string⟩, false⟩
      rest :=
  cuts_of_step rfl

theorem cuts_openingBracket (kind : BlockKind) :
    Cuts ⟨⟨blocks, .plain⟩, afterKey⟩ [⟨[kind.openChar], .bracket kind .opening, kind :: blocks⟩]
      ⟨⟨kind :: blocks, .plain⟩, false⟩ rest := by
  refine cuts_of_step ?_
  cases kind <;> rfl

theorem cuts_closingBracket (kind : BlockKind) :
    Cuts ⟨⟨kind :: blocks, .plain⟩, afterKey⟩
      [⟨[kind.closeChar], .bracket kind .closing, kind :: blocks⟩] ⟨⟨blocks, .plain⟩, false⟩
        rest := by
  refine cuts_of_step ?_
  cases kind <;> rfl

/-- Blanks are cut where they end. What was known of a key stays known. -/
theorem cuts_blank (hc : isBlank c = true) (hown : ∀ d ∈ own, isBlank d = true)
    (hr : ∀ d ∈ rest.head?, isBlank d = false) :
    Cuts ⟨⟨blocks, .plain⟩, afterKey⟩ [⟨c :: own, .blank, blocks⟩] ⟨⟨blocks, .plain⟩, afterKey⟩
      rest := by
  refine cuts_of_step ?_
  rw [step, plain, if_pos hc, indent, (takeWhile_append_of_stop hown hr).1]
  rfl

/-- A tag is cut off in front of what is no name. -/
theorem cuts_tag {name : List Char} (hne : name ≠ []) (hn : ∀ c ∈ name, isNameChar c = true)
    (hr : ∀ c ∈ rest.head?, isNameChar c = false) :
    Cuts ⟨⟨blocks, .plain⟩, afterKey⟩ [⟨'#' :: name, .tag, blocks⟩] ⟨⟨blocks, .plain⟩, false⟩
      rest := by
  refine cuts_of_step ?_
  have hlen : name.length ≠ 0 := fun h => hne (List.length_eq_zero_iff.1 h)
  have hstep : ∀ cs, plain ⟨⟨blocks, .plain⟩, afterKey⟩ '#' cs =
      plainStep ⟨⟨blocks, .plain⟩, afterKey⟩
        (if (cs.takeWhile isNameChar).length = 0 then .illegal else .tag)
        (cs.takeWhile isNameChar).length := fun _ => rfl
  rw [step, hstep, (takeWhile_append_of_stop hn hr).1, if_neg hlen]
  rfl

/-- The step at the first character of a word. -/
theorem plain_eq_wordStep (hc : c.isAlpha = true ∨ c = '_') (s : Scanner)
    (cs : List Char) : s.plain c cs = s.wordStep c cs := by
  have hname : isNameChar c = true := by
    rcases hc with hc | rfl
    · exact isNameChar_of_isAlpha hc
    · decide
  have hdigit : c.isDigit = false := by
    rcases hc with hc | rfl
    · exact isDigit_of_isAlpha hc
    · decide
  have hword : (c.isAlpha || c == '_') = true := by simpa using hc
  have hne : ∀ d : Char, isNameChar d = false → (c == d) = false := fun d hd =>
    beq_eq_false_iff_ne.2 (ne_of_isNameChar hname hd)
  simp only [plain, isBlank_of_isNameChar hname, hdigit, hword, hne '/' (by decide),
    hne '"' (by decide), hne ',' (by decide), hne ':' (by decide), hne '#' (by decide),
    hne '-' (by decide), Bool.false_and, Bool.false_eq_true, if_false, if_true]

/-- A key is cut off in front of a colon. -/
theorem cuts_key (hc : c.isAlpha = true ∨ c = '_') (hown : ∀ d ∈ own, isNameChar d = true)
    (hr : ∀ d ∈ rest.head?, isNameChar d = false) (hcolon : colonFollows rest = true) :
    Cuts ⟨⟨blocks, .plain⟩, afterKey⟩ [⟨c :: own, .key, blocks⟩] ⟨⟨blocks, .plain⟩, true⟩ rest := by
  refine cuts_of_step ?_
  have hrun := (takeWhile_append_of_stop hown hr).1
  simp only [step, plain_eq_wordStep hc, wordStep, hrun, drop_left, hcolon, if_true]
  rfl

/-- A boolean is cut off in front of a delimiter. -/
theorem cuts_boolean (v : Bool) (hr : Delimits rest) :
    Cuts ⟨⟨blocks, .plain⟩, afterKey⟩
      [⟨if v then "true".toList else "false".toList, .boolean, blocks⟩] ⟨⟨blocks, .plain⟩, false⟩
      rest := by
  have hcut : ∀ (c : Char) (own : List Char), c.isAlpha = true →
      (∀ d ∈ own, isNameChar d = true) →
      (String.ofList (c :: own) = "true" ∨ String.ofList (c :: own) = "false") →
      Cuts ⟨⟨blocks, .plain⟩, afterKey⟩ [⟨c :: own, .boolean, blocks⟩] ⟨⟨blocks, .plain⟩, false⟩
        rest := by
    intro c own hc hown hword
    refine cuts_of_step ?_
    have hrun := (takeWhile_append_of_stop hown hr.not_isNameChar).1
    have hbool : (decide (String.ofList (c :: own) = "true") ||
        decide (String.ofList (c :: own) = "false")) = true := by simpa using hword
    simp only [step, plain_eq_wordStep (.inl hc), wordStep, hrun, drop_left, take_left,
      hr.colon, Bool.false_eq_true, if_false, hbool, if_true]
    rfl
  cases v with
  | true => exact hcut 't' ['r', 'u', 'e'] (by decide) (by simp [isNameChar]) (.inl rfl)
  | false => exact hcut 'f' ['a', 'l', 's', 'e'] (by decide) (by simp [isNameChar]) (.inr rfl)

/-- A number without a sign. -/
theorem cuts_number {isFloat : Bool} (hc : c.isDigit = true)
    (hlen : numberLength (c :: own ++ rest) = ((c :: own).length, isFloat)) :
    Cuts ⟨⟨blocks, .plain⟩, afterKey⟩
      [⟨c :: own, if isFloat then .float else .integer, blocks⟩] ⟨⟨blocks, .plain⟩, false⟩
        rest := by
  refine cuts_of_step ?_
  have hname := isNameChar_of_isDigit hc
  have hne : ∀ d : Char, isNameChar d = false → (c == d) = false := fun d hd =>
    beq_eq_false_iff_ne.2 (ne_of_isNameChar hname hd)
  rw [cons_append] at hlen
  simp only [step, plain, isBlank_of_isNameChar hname, hc, hlen, hne '/' (by decide),
    hne '"' (by decide), hne ',' (by decide), hne ':' (by decide), hne '#' (by decide),
    Bool.false_and, Bool.false_eq_true, if_false, if_true]
  rfl

/-- A number with a minus sign. -/
theorem cuts_negative {isFloat : Bool} (hstart : startsWithDigit (own ++ rest) = true)
    (hlen : numberLength (own ++ rest) = (own.length, isFloat)) :
    Cuts ⟨⟨blocks, .plain⟩, afterKey⟩
      [⟨'-' :: own, if isFloat then .float else .integer, blocks⟩] ⟨⟨blocks, .plain⟩, false⟩
      rest := by
  refine cuts_of_step ?_
  have hstep : ∀ cs, startsWithDigit cs = true → plain ⟨⟨blocks, .plain⟩, afterKey⟩ '-' cs =
      plainStep ⟨⟨blocks, .plain⟩, afterKey⟩ (if (numberLength cs).2 then .float else .integer)
        (numberLength cs).1 := by
    intro cs hcs
    simp [plain, hcs, show isBlank '-' = false by decide]
  rw [step, hstep _ hstart, hlen]
  rfl

end Plain

/-! ### Strings -/

section Strings

variable (blocks : List BlockKind) (afterKey : Bool) (rest : List Char)

theorem cuts_closingQuote :
    Cuts ⟨⟨blocks, .string⟩, afterKey⟩ [⟨['"'], .quote .closing, blocks⟩]
      ⟨⟨blocks, .plain⟩, afterKey⟩ rest :=
  cuts_of_step rfl

/-- An escape is cut off by its own length. -/
theorem cuts_escape {own : List Char} (h : escapeLength? (own ++ rest) = some own.length) :
    Cuts ⟨⟨blocks, .string⟩, afterKey⟩ [⟨'\\' :: own, .escape, blocks⟩]
      ⟨⟨blocks, .string⟩, afterKey⟩ rest := by
  refine cuts_of_step ?_
  have hstep : ∀ cs n, escapeLength? cs = some n → string ⟨⟨blocks, .string⟩, afterKey⟩ '\\' cs =
      plainStep ⟨⟨blocks, .string⟩, afterKey⟩ .escape n .string afterKey := by
    intro cs n hn
    simp [string, hn]
  exact hstep _ _ h

/-- A run of other characters is cut in front of a quote or a backslash. -/
theorem cuts_stringText {c : Char} {own : List Char} (h : ∀ d ∈ c :: own, d ≠ '"' ∧ d ≠ '\\')
    (hr : ∀ d ∈ rest.head?, d = '"' ∨ d = '\\') :
    Cuts ⟨⟨blocks, .string⟩, afterKey⟩ [⟨c :: own, .stringText, blocks⟩]
      ⟨⟨blocks, .string⟩, afterKey⟩ rest := by
  have hrun : ((own ++ rest).takeWhile fun d => d != '"' && d != '\\') = own := by
    refine (takeWhile_append_of_stop (fun d hd => ?_) fun d hd => ?_).1
    · simpa using h d (mem_cons_of_mem c hd)
    · rcases hr d hd with rfl | rfl <;> rfl
  obtain ⟨hq, hb⟩ := h c (by simp)
  refine cuts_of_step ?_
  simp [step, string, hq, hb, hrun, plainStep]

end Strings

end Scanner

end TypedNotation
