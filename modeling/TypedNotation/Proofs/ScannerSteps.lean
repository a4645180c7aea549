import Mathlib.Data.List.TakeWhile
import TypedNotation.Proofs.LiteralLengths

/-!
# Steps of the scanner

`Scanner.Takes` is a step of the scanner to a lexeme of the language, whatever follows the lexeme.
What does follow matters in three cases: a key stands in front of a colon, the text of a string goes
on until a quote or a backslash, and a comment without an end takes the rest of its line
(`Scanner.Sound`).

Blanks, illegal lexemes and bad escapes are the other steps, and there are no more
(`Scanner.finds_step`). So what holds of every step is proved by the cases of `Scanner.Finds` and of
`Scanner.Takes`, and the scanner is opened here alone.
-/

namespace TypedNotation

open List Scan Text BlockKind

/-- Whether a lexeme is a comment. -/
def Category.isComment : Category → Bool
  | lineComment | blockComment => true
  | _ => false

/-- Comments are tokens without a meaning. -/
theorem Category.tokenKind_of_isComment {k : Category} (h : k.isComment = true) :
    k.tokenKind = .ignored := by
  cases k <;> first | rfl | cases h

/-- Taking the length of `takeWhile` gives it back. -/
theorem Text.take_length_takeWhile (p : Char → Bool) (cs : List Char) :
    cs.take (cs.takeWhile p).length = cs.takeWhile p :=
  (prefix_iff_eq_take.1 (List.takeWhile_prefix p)).symm

namespace Scanner

/-! ### What a step can do -/

/-- A step of the scanner, whatever follows the lexeme. -/
inductive Takes : Scanner → Lexeme → Scanner → Prop
  | comma {blocks : List BlockKind} {k : Bool} :
    Takes ⟨⟨blocks, .plain⟩, k⟩ ⟨[','], .comma, blocks⟩ ⟨⟨blocks, .plain⟩, false⟩
  | colon {blocks : List BlockKind} :
    Takes ⟨⟨blocks, .plain⟩, true⟩ ⟨[':'], .colon, blocks⟩ ⟨⟨blocks, .plain⟩, false⟩
  | openingQuote {blocks : List BlockKind} {k : Bool} :
    Takes ⟨⟨blocks, .plain⟩, k⟩ ⟨['"'], .quote .opening, blocks⟩ ⟨⟨blocks, .string⟩, false⟩
  | opening {blocks : List BlockKind} {k : Bool} (kind : BlockKind) :
    Takes ⟨⟨blocks, .plain⟩, k⟩ ⟨[kind.openChar], .bracket kind .opening, kind :: blocks⟩
      ⟨⟨kind :: blocks, .plain⟩, false⟩
  | closing {blocks outer : List BlockKind} {k : Bool} {kind : BlockKind}
      (h : blocks.dropWhile (· != kind) = kind :: outer) :
    Takes ⟨⟨blocks, .plain⟩, k⟩ ⟨[kind.closeChar], .bracket kind .closing, kind :: outer⟩
      ⟨⟨outer, .plain⟩, false⟩
  | tag {blocks : List BlockKind} {k : Bool} {name : List Char} (hne : name ≠ [])
      (hname : ∀ c ∈ name, isNameChar c = true) :
    Takes ⟨⟨blocks, .plain⟩, k⟩ ⟨'#' :: name, .tag, blocks⟩ ⟨⟨blocks, .plain⟩, false⟩
  | key {blocks : List BlockKind} {k : Bool} {c : Char} {own : List Char}
      (hc : c.isAlpha = true ∨ c = '_') (hown : ∀ d ∈ own, isNameChar d = true) :
    Takes ⟨⟨blocks, .plain⟩, k⟩ ⟨c :: own, .key, blocks⟩ ⟨⟨blocks, .plain⟩, true⟩
  | boolean {blocks : List BlockKind} {k : Bool} (v : Bool) :
    Takes ⟨⟨blocks, .plain⟩, k⟩
      ⟨if v then "true".toList else "false".toList, .boolean, blocks⟩ ⟨⟨blocks, .plain⟩, false⟩
  | number {blocks : List BlockKind} {k : Bool} {c : Char} {own rest : List Char} {isFloat : Bool}
      (hc : c.isDigit = true)
      (h : numberLength (c :: own ++ rest) = ((c :: own).length, isFloat)) :
    Takes ⟨⟨blocks, .plain⟩, k⟩ ⟨c :: own, if isFloat then .float else .integer, blocks⟩
      ⟨⟨blocks, .plain⟩, false⟩
  | negative {blocks : List BlockKind} {k : Bool} {c : Char} {own rest : List Char} {isFloat : Bool}
      (hc : c.isDigit = true)
      (h : numberLength (c :: own ++ rest) = ((c :: own).length, isFloat)) :
    Takes ⟨⟨blocks, .plain⟩, k⟩ ⟨'-' :: c :: own, if isFloat then .float else .integer, blocks⟩
      ⟨⟨blocks, .plain⟩, false⟩
  | lineComment {blocks : List BlockKind} {k : Bool} {own : List Char} :
    Takes ⟨⟨blocks, .plain⟩, k⟩ ⟨'/' :: '/' :: own, .lineComment, blocks⟩ ⟨⟨blocks, .plain⟩, false⟩
  | comment {blocks : List BlockKind} {k : Bool} {own : List Char}
      (h : commentLength? own = some own.length) :
    Takes ⟨⟨blocks, .plain⟩, k⟩ ⟨'/' :: '*' :: own, .blockComment, blocks⟩ ⟨⟨blocks, .plain⟩, false⟩
  | openComment {blocks : List BlockKind} {k : Bool} {own : List Char}
      (h : commentLength? own = none) :
    Takes ⟨⟨blocks, .plain⟩, k⟩ ⟨'/' :: '*' :: own, .blockComment, blocks⟩
      ⟨⟨blocks, .comment⟩, false⟩
  | commentEnd {blocks : List BlockKind} {k : Bool} {own : List Char}
      (h : commentLength? own = some own.length) :
    Takes ⟨⟨blocks, .comment⟩, k⟩ ⟨own, .blockComment, blocks⟩ ⟨⟨blocks, .plain⟩, k⟩
  | commentMore {blocks : List BlockKind} {k : Bool} {own : List Char} (hne : own ≠ [])
      (h : commentLength? own = none) :
    Takes ⟨⟨blocks, .comment⟩, k⟩ ⟨own, .blockComment, blocks⟩ ⟨⟨blocks, .comment⟩, k⟩
  | closingQuote {blocks : List BlockKind} {k : Bool} :
    Takes ⟨⟨blocks, .string⟩, k⟩ ⟨['"'], .quote .closing, blocks⟩ ⟨⟨blocks, .plain⟩, k⟩
  | escape {blocks : List BlockKind} {k : Bool} {own rest : List Char}
      (h : escapeLength? (own ++ rest) = some own.length) :
    Takes ⟨⟨blocks, .string⟩, k⟩ ⟨'\\' :: own, .escape, blocks⟩ ⟨⟨blocks, .string⟩, k⟩
  | stringText {blocks : List BlockKind} {k : Bool} {c : Char} {own : List Char}
      (h : ∀ d ∈ c :: own, d ≠ '"' ∧ d ≠ '\\') :
    Takes ⟨⟨blocks, .string⟩, k⟩ ⟨c :: own, .stringText, blocks⟩ ⟨⟨blocks, .string⟩, k⟩

/-- No lexeme is empty. -/
theorem Takes.text_ne_nil {s next : Scanner} {x : Lexeme} (h : s.Takes x next) : x.text ≠ [] := by
  cases h with
  | boolean v => cases v <;> exact cons_ne_nil _ _
  | commentMore hne => exact hne
  | @commentEnd _ _ own h =>
    rintro rfl
    cases h
  | _ => exact cons_ne_nil _ _

/-- Outside of strings and comments nothing is blank. -/
theorem Takes.solid {s next : Scanner} {x : Lexeme} (h : s.Takes x next)
    (hstring : x.category.inString = false) (hcomment : x.category.isComment = false) :
    ∀ d ∈ x.text, isBlank d = false := by
  have hname : ∀ {own : List Char}, (∀ d ∈ own, isNameChar d = true) →
      ∀ d ∈ own, isBlank d = false :=
    fun h d hd => isBlank_of_isNameChar (h d hd)
  have hnumber : ∀ {own rest : List Char} {isFloat : Bool},
      numberLength (own ++ rest) = (own.length, isFloat) →
        ∀ d ∈ own, isBlank d = false := by
    intro own rest isFloat hlength
    have hsolid := solid_numberLength (own ++ rest)
    rw [hlength] at hsolid
    simpa using hsolid.visible
  cases h with
  | comma | colon => simp [isBlank]
  | opening kind => cases kind <;> simp [openChar, isBlank]
  | @closing _ _ _ kind => cases kind <;> simp [closeChar, isBlank]
  | tag _ hown => exact forall_mem_cons.2 ⟨rfl, hname hown⟩
  | key hc hown =>
    refine forall_mem_cons.2 ⟨?_, hname hown⟩
    rcases hc with hc | rfl
    · exact isBlank_of_isNameChar (isNameChar_of_isAlpha hc)
    · rfl
  | boolean v => cases v <;> simp [isBlank]
  | number _ hlength => exact hnumber hlength
  | negative _ hlength => exact forall_mem_cons.2 ⟨rfl, hnumber hlength⟩
  | lineComment | comment | openComment | commentEnd | commentMore => cases hcomment
  | openingQuote | closingQuote | escape | stringText => cases hstring

/-- What a step says of its lexeme and of the rest of the line. -/
structure Sound (s : Scanner) (c : Char) (cs : List Char) (t : Step) : Prop where
  takes : s.Takes ⟨c :: cs.take t.extra, t.category, t.blocks⟩ t.next
  key : t.category = .key → colonFollows (cs.drop t.extra) = true
  text : t.category = .stringText → ∀ d ∈ (cs.drop t.extra).head?, d = '"' ∨ d = '\\'
  comment : t.category = .lineComment ∨ t.next.mode = .comment → cs.drop t.extra = []
  solid : t.category.inString = false → t.category.isComment = false →
    ∀ d ∈ c :: cs.take t.extra, isBlank d = false

/-- All that a step can do. -/
inductive Finds (s : Scanner) (c : Char) (cs : List Char) : Step → Prop
  | lexeme {t : Step} (hle : t.extra ≤ cs.length) (h : s.Sound c cs t) : Finds s c cs t
  | blank (hmode : s.mode = .plain) (hc : isBlank c = true) :
    Finds s c cs ⟨.blank, (indent cs).length, s.blocks, s⟩
  | illegal {extra : Nat} (hmode : s.mode = .plain) (hle : extra ≤ cs.length) :
    Finds s c cs (s.plainStep .illegal extra)
  | badEscape (hmode : s.mode = .string) :
    Finds s c cs (s.plainStep .badEscape (cs.take 1).length .string s.afterKey)

/-! ### Its cases -/

/-- Whether a step asks nothing of the rest of the line. -/
def Step.isFree (t : Step) : Bool :=
  t.category != .key && t.category != .stringText && t.category != .lineComment && t.next.mode !=
    .comment

section Cases

variable {s : Scanner} {c : Char} {cs : List Char}

/-- A lexeme is found if what follows it does not hide or extend it. -/
theorem finds_lexeme {t : Step} (hle : t.extra ≤ cs.length)
    (h : s.Takes ⟨c :: cs.take t.extra, t.category, t.blocks⟩ t.next)
    (hkey : t.category = .key → colonFollows (cs.drop t.extra) = true)
    (htext : t.category = .stringText → ∀ d ∈ (cs.drop t.extra).head?, d = '"' ∨ d = '\\')
    (hcomment : t.category = .lineComment ∨ t.next.mode = .comment → cs.drop t.extra = []) :
    s.Finds c cs t :=
  .lexeme hle ⟨h, hkey, htext, hcomment, h.solid⟩

/-- A free lexeme is found whatever follows it. -/
theorem finds_of_takes {t : Step} (hle : t.extra ≤ cs.length)
    (h : s.Takes ⟨c :: cs.take t.extra, t.category, t.blocks⟩ t.next) (hfree : t.isFree = true) :
    s.Finds c cs t := by
  simp only [Step.isFree, Bool.and_eq_true, bne_iff_ne] at hfree
  obtain ⟨⟨⟨hkey, htext⟩, hline⟩, hmode⟩ := hfree
  exact finds_lexeme hle h (fun h => absurd h hkey) (fun h => absurd h htext)
    fun h => h.elim (absurd · hline) (absurd · hmode)

/-- Both branches of a choice have to find a lexeme. -/
theorem finds_ite {p : Prop} [Decidable p] {step other : Step} (hstep : p → s.Finds c cs step)
    (hother : ¬p → s.Finds c cs other) : s.Finds c cs (if p then step else other) :=
  iteInduction hstep hother

variable {blocks : List BlockKind} {k : Bool}

/-- The start of a block comment, which may end on the line or go on. -/
theorem finds_blockComment :
    Finds ⟨⟨blocks, .plain⟩, k⟩ '/' ('*' :: cs)
      (match commentLength? cs with
        | some n => plainStep ⟨⟨blocks, .plain⟩, k⟩ .blockComment (n + 1)
        | none => plainStep ⟨⟨blocks, .plain⟩, k⟩ .blockComment (cs.length + 1) .comment) := by
  split
  next n hn =>
    have hle := (exists_of_commentLength? hn).1
    refine finds_of_takes (Nat.succ_le_succ hle) ?_ rfl
    exact .comment (commentLength?_take hn)
  next hnone =>
    refine finds_lexeme (Nat.le_refl _) ?_ (by simp [plainStep]) (by simp [plainStep])
      (by simp [plainStep])
    simp only [plainStep, take_succ_cons, take_length]
    exact .openComment hnone

/-- The length of a number at a digit. -/
theorem exists_numberLength (cs : List Char) (hc : c.isDigit = true) :
    ∃ n, (numberLength (c :: cs)).1 = n + 1 ∧ n ≤ cs.length ∧
      numberLength (c :: cs.take n ++ cs.drop n) =
        ((c :: cs.take n).length, (numberLength (c :: cs)).2) := by
  have hle := (solid_numberLength (c :: cs)).le
  have hpos : 0 < (numberLength (c :: cs)).1 := by
    have hrun : digitRun (c :: cs) = digitRun cs + 1 := by simp [digitRun, hc]
    simp only [numberLength, hrun]
    omega
  obtain ⟨n, hn⟩ := Nat.exists_eq_add_one_of_ne_zero hpos.ne'
  rw [hn] at hle
  refine ⟨n, hn, Nat.le_of_succ_le_succ hle, ?_⟩
  rw [cons_append, take_append_drop, length_cons, length_take,
    Nat.min_eq_left (Nat.le_of_succ_le_succ hle), ← hn]

/-- A digit starts a number. -/
theorem finds_number (hc : c.isDigit = true) :
    Finds ⟨⟨blocks, .plain⟩, k⟩ c cs (plainStep ⟨⟨blocks, .plain⟩, k⟩
      (if (numberLength (c :: cs)).2 then .float else .integer)
      ((numberLength (c :: cs)).1 - 1)) := by
  obtain ⟨n, hn, hle, hlength⟩ := exists_numberLength cs hc
  rw [hn, Nat.add_sub_cancel]
  refine finds_of_takes hle (.number hc hlength) ?_
  cases (numberLength (c :: cs)).2 <;> rfl

/-- A minus sign in front of a digit starts a number. -/
theorem finds_negative (hc : startsWithDigit cs = true) :
    Finds ⟨⟨blocks, .plain⟩, k⟩ '-' cs (plainStep ⟨⟨blocks, .plain⟩, k⟩
      (if (numberLength cs).2 then .float else .integer) (numberLength cs).1) := by
  cases cs with
  | nil => cases hc
  | cons c cs =>
    obtain ⟨n, hn, hle, hlength⟩ := exists_numberLength cs hc
    rw [hn]
    refine finds_of_takes (Nat.succ_le_succ hle) (.negative hc hlength) ?_
    cases (numberLength (c :: cs)).2 <;> rfl

/-- A hash sign starts a tag, or is illegal by itself. -/
theorem finds_tag :
    Finds ⟨⟨blocks, .plain⟩, k⟩ '#' cs (plainStep ⟨⟨blocks, .plain⟩, k⟩
      (if (cs.takeWhile isNameChar).length = 0 then .illegal else .tag)
      (cs.takeWhile isNameChar).length) := by
  have hle := (List.takeWhile_prefix (l := cs) isNameChar).length_le
  split
  next => exact .illegal rfl hle
  next hne =>
    refine finds_of_takes hle ?_ rfl
    simp only [plainStep, take_length_takeWhile]
    exact .tag (by simpa using hne) fun d => mem_takeWhile_imp

/-- A letter or an underscore starts a word. -/
theorem finds_wordStep (hc : c.isAlpha = true ∨ c = '_') :
    Finds ⟨⟨blocks, .plain⟩, k⟩ c cs (wordStep ⟨⟨blocks, .plain⟩, k⟩ c cs) := by
  have hle := (List.takeWhile_prefix (l := cs) isNameChar).length_le
  unfold wordStep
  refine finds_ite (fun hcolon => ?_) fun _ => finds_ite (fun hword => ?_) fun _ => .illegal rfl hle
  · refine finds_lexeme hle ?_ (fun _ => hcolon) (by simp [plainStep]) (by simp [plainStep])
    simp only [plainStep, take_length_takeWhile]
    exact .key hc fun d => mem_takeWhile_imp
  · have hbool : ∃ v : Bool, c :: cs.take (cs.takeWhile isNameChar).length =
        if v then "true".toList else "false".toList := by
      simp only [Bool.or_eq_true, decide_eq_true_eq] at hword
      rcases hword with hword | hword
      · exact ⟨true, by rw [← String.toList_ofList (l := c :: _), hword]; rfl⟩
      · exact ⟨false, by rw [← String.toList_ofList (l := c :: _), hword]; rfl⟩
    obtain ⟨v, hv⟩ := hbool
    refine finds_of_takes hle ?_ rfl
    simp only [plainStep, hv]
    exact .boolean v

/-- A bracket opens or closes a block; any other character is illegal. -/
theorem finds_bracket :
    Finds ⟨⟨blocks, .plain⟩, k⟩ c cs
      (match ofOpenChar? c, ofCloseChar? c with
        | some kind, _ =>
          ⟨.bracket kind .opening, 0, kind :: blocks, ⟨⟨kind :: blocks, .plain⟩, false⟩⟩
        | none, some kind => closeStep ⟨⟨blocks, .plain⟩, k⟩ kind
        | none, none => plainStep ⟨⟨blocks, .plain⟩, k⟩ .illegal 0) := by
  cases hopen : ofOpenChar? c with
  | some kind =>
    obtain rfl : kind.openChar = c := by simpa using find?_some hopen
    exact finds_of_takes (Nat.zero_le _) (.opening kind) rfl
  | none =>
    cases hclose : ofCloseChar? c with
    | none => exact .illegal rfl (Nat.zero_le _)
    | some kind =>
      obtain rfl : kind.closeChar = c := by simpa using find?_some hclose
      unfold closeStep
      dsimp only
      split
      next => exact .illegal rfl (Nat.zero_le _)
      next found outer h =>
        have hhead := head?_dropWhile_not (· != kind) blocks
        obtain rfl : found = kind := by simpa [h] using hhead
        exact finds_of_takes (Nat.zero_le _) (.closing h) rfl

/-- A mark of two characters is at the front of the text. -/
theorem eq_of_marks {a b : Char} (h : (c == a && cs.head? == some b) = true) :
    c = a ∧ ∃ rest, cs = b :: rest := by
  simp only [Bool.and_eq_true, beq_iff_eq] at h
  exact ⟨h.1, head?_eq_some_iff.1 h.2⟩

/-- The step outside strings and comments finds a lexeme. -/
theorem finds_plain : Finds ⟨⟨blocks, .plain⟩, k⟩ c cs (plain ⟨⟨blocks, .plain⟩, k⟩ c cs) := by
  unfold plain
  refine finds_ite (fun hc => .blank rfl hc) fun _ => ?_
  refine finds_ite (fun hc => ?_) fun _ => finds_ite (fun hc => ?_) fun _ => ?_
  · obtain ⟨rfl, rest, rfl⟩ := eq_of_marks hc
    refine finds_lexeme (Nat.le_refl _) ?_ (by simp [plainStep]) (by simp [plainStep])
      (by simp [plainStep])
    simp only [plainStep, take_length]
    exact .lineComment
  · obtain ⟨rfl, rest, rfl⟩ := eq_of_marks hc
    exact finds_blockComment
  refine finds_ite (fun hc => ?_) fun _ => finds_ite (fun hc => ?_) fun _ => ?_
  · obtain rfl := beq_iff_eq.1 hc
    exact finds_of_takes (Nat.zero_le _) .openingQuote rfl
  · obtain rfl := beq_iff_eq.1 hc
    exact finds_of_takes (Nat.zero_le _) .comma rfl
  refine finds_ite (fun hc => ?_) fun _ => finds_ite (fun hc => ?_) fun _ => ?_
  · simp only [Bool.and_eq_true, beq_iff_eq] at hc
    obtain ⟨rfl, rfl⟩ := hc
    exact finds_of_takes (Nat.zero_le _) .colon rfl
  · obtain rfl := beq_iff_eq.1 hc
    exact finds_tag
  refine finds_ite finds_number fun _ => finds_ite (fun hc => ?_) fun _ => ?_
  · simp only [Bool.and_eq_true, beq_iff_eq] at hc
    obtain ⟨rfl, hdigit⟩ := hc
    exact finds_negative hdigit
  exact finds_ite (fun hc => finds_wordStep (by simpa using hc)) fun _ => finds_bracket

/-- The step inside a string finds a lexeme. -/
theorem finds_string : Finds ⟨⟨blocks, .string⟩, k⟩ c cs (string ⟨⟨blocks, .string⟩, k⟩ c cs) := by
  unfold string
  refine finds_ite (fun hc => ?_) fun hquote => finds_ite (fun hc => ?_) fun hslash => ?_
  · obtain rfl := beq_iff_eq.1 hc
    exact finds_of_takes (Nat.zero_le _) .closingQuote rfl
  · obtain rfl := beq_iff_eq.1 hc
    split
    next n hn =>
      have hle := escapeLength?_le hn
      have htake : escapeLength? (cs.take n ++ cs.drop n) = some (cs.take n).length := by
        rw [take_append_drop, hn, length_take, Nat.min_eq_left hle]
      exact finds_of_takes hle (.escape htake) rfl
    next => exact .badEscape rfl
  · have hle := (List.takeWhile_prefix (l := cs) fun d => d != '"' && d != '\\').length_le
    refine finds_lexeme hle ?_ (by simp [plainStep]) (fun _ d hd => ?_) (by simp [plainStep])
    · simp only [plainStep, take_length_takeWhile]
      refine .stringText (forall_mem_cons.2 ⟨⟨by simpa using hquote, by simpa using hslash⟩,
        ?_⟩)
      intro d hd
      simpa using mem_takeWhile_imp hd
    · have hrest : cs.drop (cs.takeWhile fun d => d != '"' && d != '\\').length =
          cs.dropWhile fun d => d != '"' && d != '\\' := by
        have hall := take_append_drop (cs.takeWhile fun d => d != '"' && d != '\\').length cs
        rw [take_length_takeWhile] at hall
        exact append_cancel_left (hall.trans takeWhile_append_dropWhile.symm)
      simp only [plainStep, hrest] at hd
      have hhead := head?_dropWhile_not (fun d => d != '"' && d != '\\') cs
      rw [Option.mem_def.1 hd] at hhead
      simpa [or_iff_not_imp_left] using hhead

/-- The step inside a block comment finds a lexeme. -/
theorem finds_comment : Finds ⟨⟨blocks, .comment⟩,
    k⟩ c cs (comment ⟨⟨blocks, .comment⟩, k⟩ c cs) := by
  unfold comment
  split
  next n hn =>
    obtain ⟨hle, own, hown⟩ := exists_of_commentLength? hn
    obtain ⟨n, rfl⟩ : ∃ m, n = m + 1 := Nat.exists_eq_succ_of_ne_zero (by rintro rfl; simp at hown)
    exact finds_of_takes (Nat.le_of_succ_le_succ hle) (.commentEnd (commentLength?_take hn))
      rfl
  next hnone =>
    refine finds_lexeme (Nat.le_refl _) ?_ (by simp [plainStep]) (by simp [plainStep])
      (by simp [plainStep])
    simp only [plainStep, take_length]
    exact .commentMore (cons_ne_nil _ _) hnone

end Cases

/-- **There are no other steps.** -/
theorem finds_step (s : Scanner) (c : Char) (cs : List Char) : s.Finds c cs (s.step c cs) := by
  obtain ⟨⟨blocks, mode⟩, k⟩ := s
  cases mode with
  | plain => exact finds_plain
  | string => exact finds_string
  | comment => exact finds_comment

namespace Finds

variable {s : Scanner} {c : Char} {cs : List Char} {t : Step}

/-- Blanks, illegal lexemes and bad escapes apart, a step is sound. -/
theorem sound (h : s.Finds c cs t) (hlegal : t.category ≠ .illegal)
    (hescape : t.category ≠ .badEscape) (hblank : t.category ≠ .blank) : s.Sound c cs t := by
  cases h with
  | lexeme _ h => exact h
  | blank => exact absurd rfl hblank
  | illegal => exact absurd rfl hlegal
  | badEscape => exact absurd rfl hescape

end Finds

end Scanner

end TypedNotation
