import Mathlib.Data.List.TakeWhile
import TypedNotation.Proofs.Scanning
import TypedNotation.Value.Source

/-!
# Lexemes of source texts

`Value.lexemes` says which lexemes the source text of a value is made of, and `isPiece_lexemes`
that the scanner finds exactly these, wherever the text stands in front of a comma, a closing
bracket or the end of the line. The values are those that can be written at all,
`Value.isEncodable`: keys are identifiers and differ within a dict, tags are words, payloads are
blocks, and floats are finite.

A string is a run of plain characters and escapes in turn; the lexemes are built from its end, where
a plain character joins the run that follows it.
-/

namespace TypedNotation

open List Scanner Scan Text Lexeme

namespace Text

/-- A text on one line that starts and ends with something visible. -/
structure Tight (cs : List Char) : Prop where
  head : ∃ c rest, cs = c :: rest ∧ isBlank c = false
  last : ∃ start c, cs = start ++ [c] ∧ isBlank c = false
  feed : '\n' ∉ cs

theorem tight_of_visible {cs : List Char} (hne : cs ≠ []) (h : ∀ c ∈ cs, isBlank c = false) :
    Tight cs := by
  refine ⟨?_, ?_, fun hf => absurd (h _ hf) (by decide)⟩
  · obtain ⟨c, rest, rfl⟩ := exists_cons_of_ne_nil hne
    exact ⟨c, rest, rfl, h c (by simp)⟩
  · exact ⟨cs.dropLast, cs.getLast hne, (dropLast_concat_getLast hne).symm,
      h _ (getLast_mem hne)⟩

/-- What stands between two tight texts on their line may be anything. -/
theorem Tight.around {a b : List Char} (ha : Tight a) (mid : List Char) (hb : Tight b)
    (hmid : '\n' ∉ mid) : Tight (a ++ (mid ++ b)) := by
  obtain ⟨c, rest, hc, hvisible⟩ := ha.head
  obtain ⟨start, d, hd, hlast⟩ := hb.last
  refine ⟨⟨c, rest ++ (mid ++ b), by rw [hc]; rfl, hvisible⟩,
    ⟨a ++ (mid ++ start), d, by rw [hd]; simp, hlast⟩, ?_⟩
  simp only [mem_append, not_or]
  exact ⟨ha.feed, hmid, hb.feed⟩

theorem Tight.append {a b : List Char} (ha : Tight a) (hb : Tight b) : Tight (a ++ b) :=
  by
  simpa using ha.around [] hb (by simp)

end Text

/-! ### What can be written -/

namespace Value

/-- A letter or an underscore, and then letters, digits and underscores. -/
def isIdentifier (name : String) : Bool :=
  match name.toList with
  | [] => false
  | c :: cs => (c.isAlpha || c == '_') && cs.all isNameChar

/-- Letters, digits and underscores, at least one. -/
def isTagName (name : String) : Bool :=
  !name.toList.isEmpty && name.toList.all isNameChar

/-- Whether a value is written with brackets. -/
def isBlock : Value → Bool
  | dict _ | array _ | tuple _ => true
  | scalar _ | enum _ _ => false

mutual

/-- Whether a value can be written. -/
def isEncodable : Value → Bool
  | scalar (.float x) => x.isFinite
  | scalar _ => true
  | dict entries => decide (entries.map (·.1)).Nodup && entriesEncodable entries
  | array items => itemsEncodable items
  | tuple items => itemsEncodable items
  | enum tag none => isTagName tag
  | enum tag (some payload) => isTagName tag && payload.isBlock && payload.isEncodable

/-- Whether the keys and the values of a dict can be written. -/
def entriesEncodable : List (String × Value) → Bool
  | [] => true
  | (key, value) :: rest => isIdentifier key && value.isEncodable && entriesEncodable rest

/-- Whether items can be written. -/
def itemsEncodable : List Value → Bool
  | [] => true
  | value :: rest => value.isEncodable && itemsEncodable rest

end

end Value

/-! ### Lexemes -/

namespace Scalar

/-- Whether a character is written by an escape. -/
def isEscaped (c : Char) : Bool :=
  c == '"' || c == '\\' || c.toNat < 0x20 || c.toNat == 0x7F

/-- The lexemes inside a string. -/
def stringLexemes (blocks : List BlockKind) : List Char → List Lexeme
  | [] => []
  | c :: cs =>
    if isEscaped c then ⟨escaped c, .escape, blocks⟩ :: stringLexemes blocks cs
    else
      match stringLexemes blocks cs with
      | ⟨text, .stringText, _⟩ :: more => ⟨c :: text, .stringText, blocks⟩ :: more
      | more => ⟨[c], .stringText, blocks⟩ :: more

/-- The lexemes of a scalar. -/
def lexemes (blocks : List BlockKind) : Scalar → List Lexeme
  | int v => [⟨source (.int v), .integer, blocks⟩]
  | float v => [⟨source (.float v), .float, blocks⟩]
  | boolean v => [⟨source (.boolean v), .boolean, blocks⟩]
  | string v =>
    ⟨['"'], .quote .opening, blocks⟩ ::
      (stringLexemes blocks v.toList ++ [⟨['"'], .quote .closing, blocks⟩])

end Scalar

namespace Value

/-- Lexemes with a comma and a space between them. -/
def separated (blocks : List BlockKind) : List (List Lexeme) → List Lexeme
  | [] => []
  | [xs] => xs
  | xs :: rest =>
    xs ++ ⟨[','], .comma, blocks⟩ :: ⟨[' '], .blank, blocks⟩ :: separated blocks rest

/-- Lexemes between the brackets of a kind. -/
def bracketed (kind : BlockKind) (blocks : List BlockKind) (parts : List (List Lexeme)) :
    List Lexeme :=
  ⟨[kind.openChar], .bracket kind .opening, kind :: blocks⟩ ::
    (separated (kind :: blocks) parts ++
      [⟨[kind.closeChar], .bracket kind .closing, kind :: blocks⟩])

mutual

/-- The lexemes of a value inside some blocks. -/
def lexemes (blocks : List BlockKind) : Value → List Lexeme
  | scalar s => s.lexemes blocks
  | dict entries => bracketed .dict blocks (entryLexemes (.dict :: blocks) entries)
  | array items => bracketed .array blocks (itemLexemes (.array :: blocks) items)
  | tuple items => bracketed .tuple blocks (itemLexemes (.tuple :: blocks) items)
  | enum tag payload => ⟨'#' :: tag.toList, .tag, blocks⟩ :: payloadLexemes blocks payload

/-- The lexemes of the entries of a dict. -/
def entryLexemes (blocks : List BlockKind) : List (String × Value) → List (List Lexeme)
  | [] => []
  | (key, value) :: rest =>
    (⟨key.toList, .key, blocks⟩ :: ⟨[':'], .colon, blocks⟩ :: ⟨[' '], .blank, blocks⟩ ::
      value.lexemes blocks) :: entryLexemes blocks rest

/-- The lexemes of items. -/
def itemLexemes (blocks : List BlockKind) : List Value → List (List Lexeme)
  | [] => []
  | value :: rest => value.lexemes blocks :: itemLexemes blocks rest

/-- The lexemes of a payload. -/
def payloadLexemes (blocks : List BlockKind) : Option Value → List Lexeme
  | none => []
  | some value => value.lexemes blocks

end

end Value

/-! ### Strings -/

namespace Scalar

variable {c : Char}

theorem escaped_of_not_isEscaped (h : isEscaped c = false) : escaped c = [c] := by
  simp only [isEscaped, Bool.or_eq_false_iff, beq_eq_false_iff_ne, decide_eq_false_iff_not] at h
  obtain ⟨⟨⟨hq, hb⟩, hlow⟩, hdel⟩ := h
  have hne : ∀ d : Char, d.toNat < 32 → c ≠ d := by
    rintro d hd rfl
    exact hlow hd
  have hctl : (decide (c.toNat < 32) || decide (c.toNat = 127)) = false := by simp [hdel]; omega
  simp [escaped, hq, hb, hne '\n' (by decide), hne '\r' (by decide), hne '\t' (by decide), hctl]

theorem ne_of_not_isEscaped (h : isEscaped c = false) : c ≠ '"' ∧ c ≠ '\\' := by
  simp only [isEscaped, Bool.or_eq_false_iff, beq_eq_false_iff_ne] at h
  exact h.1.1

/-- The digits of a control character. -/
theorem hex4_of_lt : ∀ n < 128, (hex4 n).length = 4 ∧ startsWithHex 4 (hex4 n) = true := by
  decide +kernel

/-- An escape is a backslash and what its length tells, in front of anything. -/
theorem escaped_eq_cons (h : isEscaped c = true) :
    ∃ own, escaped c = '\\' :: own ∧ ∀ rest, escapeLength? (own ++ rest) = some
      own.length := by
  unfold escaped
  split
  · exact ⟨['"'], rfl, fun rest => rfl⟩
  split
  · exact ⟨['\\'], rfl, fun rest => rfl⟩
  split
  · exact ⟨['n'], rfl, fun rest => rfl⟩
  split
  · exact ⟨['r'], rfl, fun rest => rfl⟩
  split
  · exact ⟨['t'], rfl, fun rest => rfl⟩
  next hq hb _ _ _ =>
    have hctl : c.toNat < 32 ∨ c.toNat = 127 := by simpa [isEscaped, hq, hb] using h
    obtain ⟨hlen, hhex⟩ := hex4_of_lt c.toNat (by omega)
    have hif : (decide (c.toNat < 32) || decide (c.toNat = 127)) = true := by simpa using hctl
    refine ⟨'u' :: hex4 c.toNat, by rw [if_pos hif]; rfl, fun rest => ?_⟩
    have hstart : startsWithHex 4 (hex4 c.toNat ++ rest) = true := by
      rw [startsWithHex, List.take_append_of_le_length (Nat.le_of_eq hlen.symm)]
      exact hhex
    simp [escapeLength?, hstart, hlen]

theorem stringLexemes_of_not_isEscaped (blocks : List BlockKind) (cs : List Char)
    (hc : isEscaped c = false) :
    stringLexemes blocks (c :: cs) =
      ⟨c :: cs.takeWhile fun d => !isEscaped d, .stringText, blocks⟩ ::
        stringLexemes blocks (cs.dropWhile fun d => !isEscaped d) := by
  induction cs generalizing c with
  | nil => simp [stringLexemes, hc]
  | cons d ds ih =>
    rw [stringLexemes, if_neg (by simp [hc])]
    cases hd : isEscaped d with
    | true => simp [stringLexemes, hd]
    | false => simp [ih hd, hd]

theorem chars_stringLexemes (blocks : List BlockKind) (cs : List Char) :
    chars (stringLexemes blocks cs) = cs.flatMap escaped := by
  induction cs with
  | nil => rfl
  | cons c cs ih =>
    rw [stringLexemes, List.flatMap_cons]
    split
    next h => simp [ih]
    next h =>
      have hc : escaped c = [c] := escaped_of_not_isEscaped (by simpa using h)
      split
      next heq =>
        rw [heq] at ih
        simp only [chars_cons] at ih
        simp [hc, ih]
      next => simp [hc, ih]

/-- What follows a run of plain characters is an escape or the closing quote. -/
theorem head_chars_stringLexemes (blocks : List BlockKind) (rest cs : List Char)
    (h : ∀ c ∈ cs.head?, isEscaped c = true) :
    ∀ c ∈ (chars (stringLexemes blocks cs) ++ '"' :: rest).head?, c = '"' ∨ c = '\\' := by
  intro c hc
  rw [chars_stringLexemes] at hc
  cases cs with
  | nil => exact .inl (Option.some.inj hc).symm
  | cons d ds =>
    obtain ⟨own, hown, -⟩ := escaped_eq_cons (h d rfl)
    rw [List.flatMap_cons, hown] at hc
    exact .inr (Option.some.inj hc).symm

/-- The lexemes inside a string are escapes and runs of plain characters, each run as long as
possible. -/
theorem stringLexemes_induction {blocks : List BlockKind} {P : List Char → List Lexeme → Prop}
    (nil : P [] [])
    (escape : ∀ c cs xs, isEscaped c = true → P cs xs →
      P (c :: cs) (⟨escaped c, .escape, blocks⟩ :: xs))
    (text : ∀ c own cs, (∀ d ∈ c :: own, isEscaped d = false) →
      (∀ d ∈ cs.head?, isEscaped d = true) →
      P cs (stringLexemes blocks cs) →
      P (c :: own ++ cs) (⟨c :: own, .stringText, blocks⟩ :: stringLexemes blocks cs))
    (cs : List Char) : P cs (stringLexemes blocks cs) := by
  match cs with
  | [] => exact nil
  | c :: cs =>
    cases hc : isEscaped c with
    | true =>
      rw [stringLexemes, if_pos hc]
      exact escape c cs _ hc (stringLexemes_induction nil escape text cs)
    | false =>
      have hrun := text c (cs.takeWhile fun d => !isEscaped d) (cs.dropWhile fun d => !isEscaped d)
        ?_ ?_ (stringLexemes_induction nil escape text _)
      · rw [stringLexemes_of_not_isEscaped blocks cs hc]
        simpa using hrun
      · intro d hd
        rcases List.mem_cons.1 hd with rfl | hd
        · exact hc
        · simpa using List.mem_takeWhile_imp hd
      · intro d hd
        have hstop := List.head?_dropWhile_not (fun d => !isEscaped d) cs
        rw [hd] at hstop
        simpa using hstop
termination_by cs.length
decreasing_by
  · simp only [List.length_cons]
    exact Nat.lt_succ_of_le (List.dropWhile_sublist _).length_le
  · simp

/-- The inside of a string is cut up to its closing quote. -/
theorem cuts_stringLexemes (blocks : List BlockKind) (afterKey : Bool) (rest : List Char)
    (cs : List Char) :
    Cuts ⟨⟨blocks, .string⟩, afterKey⟩ (stringLexemes blocks cs)
      ⟨⟨blocks, .string⟩, afterKey⟩ ('"' :: rest) := by
  refine stringLexemes_induction (P := fun _ xs => Cuts ⟨⟨blocks, .string⟩, afterKey⟩ xs
    ⟨⟨blocks, .string⟩, afterKey⟩ ('"' :: rest)) ?_ ?_ ?_ cs
  · exact cuts_nil _ _
  · intro c cs xs hc hxs
    obtain ⟨own, hown, hlen⟩ := escaped_eq_cons hc
    rw [hown]
    exact (cuts_escape blocks afterKey _ (hlen _)).cons hxs
  · intro c own cs hplain hstop hcs
    refine Cuts.cons ?_ hcs
    exact cuts_stringText blocks afterKey _ (fun d hd => ne_of_not_isEscaped (hplain d hd))
      (head_chars_stringLexemes blocks rest cs hstop)

/-! ### Scalars -/

/-- The text of a finite float needs no point added. -/
theorem floatSource_eq {x : Double} (h : x.isFinite = true) :
    floatSource x = (x.text .document).toList ∧ ∃ p : Double.Parts, p.WellFormed ∧
      floatSource x = if x.isNegative then '-' :: p.chars else p.chars := by
  have hm : x.magnitude < Double.infinity := by simpa [Double.isFinite] using h
  obtain ⟨p, hp, -, hchars⟩ := Double.Parts.exists_magnitudeText .document hm
  have hmark : ∃ c ∈ p.chars, c = '.' ∨ c = 'e' := by
    rcases hp.isFloat with hplaces | hpower
    · refine ⟨'.', ?_, .inl rfl⟩
      simp [Double.Parts.chars, hplaces]
    · obtain hnil | ⟨sign, digits, heq, -⟩ := hp.power_eq
      · exact absurd hnil hpower
      · refine ⟨'e', ?_, .inr rfl⟩
        simp [Double.Parts.chars, heq]
  obtain ⟨c, hc, hmark⟩ := hmark
  have htext := Double.toList_text .document h
  rw [← hchars] at htext
  have hany : (x.text .document).toList.any (fun c => c == '.' || c == 'e' || c == 'E') = true := by
    refine List.any_eq_true.2 ⟨c, ?_, ?_⟩
    · rw [htext]
      split
      · exact List.mem_cons_of_mem _ hc
      · exact hc
    · rcases hmark with rfl | rfl <;> rfl
  have heq : floatSource x = (x.text .document).toList := by rw [floatSource, if_pos hany]
  exact ⟨heq, p, hp, heq.trans htext⟩

/-- The text of a scalar is that of its lexemes. -/
theorem chars_lexemes (blocks : List BlockKind) (s : Scalar) :
    chars (s.lexemes blocks) = s.source := by
  cases s with
  | string v => simp [lexemes, source, chars_stringLexemes]
  | int v => simp [lexemes]
  | float v => simp [lexemes]
  | boolean v => simp [lexemes]

theorem isBlank_of_isDigit (h : c.isDigit = true) : isBlank c = false :=
  isBlank_of_isNameChar (isNameChar_of_isDigit h)

theorem isBlank_of_mem_chars {p : Double.Parts} (h : p.WellFormed) (hc : c ∈ p.chars) :
    isBlank c = false := by
  rcases h.mem_chars hc with hdigit | hmark
  · exact isBlank_of_isDigit hdigit
  · have hmarks : ∀ d ∈ ['.', 'e', '+', '-'], isBlank d = false := by simp [isBlank]
    exact hmarks c hmark

theorem feed_not_mem_escaped (c : Char) : '\n' ∉ escaped c := by
  have hhex : ∀ n < 128, '\n' ∉ hex4 n := by decide +kernel
  unfold escaped
  split
  · decide
  split
  · decide
  split
  · decide
  split
  · decide
  split
  · decide
  split
  next hctl =>
    have hlt : c.toNat < 128 := by
      simp only [Bool.or_eq_true, decide_eq_true_eq] at hctl
      omega
    simpa using hhex c.toNat hlt
  next hn _ _ _ => simpa using Ne.symm hn

/-- The text of a scalar is tight. -/
theorem tight_source {s : Scalar} (hs : ∀ x, s = .float x → x.isFinite = true) :
    Tight s.source := by
  have hsign : ∀ cs : List Char, (∀ c ∈ cs, isBlank c = false) →
      ∀ c ∈ '-' :: cs, isBlank c = false := by
    intro cs hcs c hc
    rcases List.mem_cons.1 hc with rfl | hc
    · decide
    · exact hcs c hc
  cases s with
  | int v =>
    have hdigits : ∀ c ∈ Nat.toDigits 10 v.toInt.natAbs, isBlank c = false := fun c hc =>
      isBlank_of_isDigit (Numeral.isDigit_of_mem_toDigits hc)
    rw [source, Numeral.toList_toString_int]
    split
    · exact tight_of_visible (by simp) (hsign _ hdigits)
    · exact tight_of_visible Nat.toDigits_ne_nil hdigits
  | float x =>
    obtain ⟨-, p, hp, heq⟩ := floatSource_eq (hs x rfl)
    have hvisible : ∀ c ∈ p.chars, isBlank c = false := fun c => isBlank_of_mem_chars hp
    have hne : p.chars ≠ [] := by simp [Double.Parts.chars, hp.whole_ne_nil]
    rw [source, heq]
    split
    · exact tight_of_visible (by simp) (hsign _ hvisible)
    · exact tight_of_visible hne hvisible
  | boolean v =>
    cases v <;> exact tight_of_visible (by simp [source]) (by simp [source, isBlank])
  | string v =>
    have hquote : Tight ['"'] :=
      tight_of_visible (by simp) (by simp [isBlank])
    refine hquote.around _ hquote fun hmem => ?_
    obtain ⟨c, -, hc⟩ := mem_flatMap.1 hmem
    exact feed_not_mem_escaped c hc

section Numbers

variable (blocks : List BlockKind) {rest : List Char}

theorem cuts_int (v : Int) (hr : Delimits rest) :
    Cuts ⟨⟨blocks, .plain⟩, false⟩ [⟨(toString v).toList, .integer, blocks⟩]
      ⟨⟨blocks, .plain⟩, false⟩ rest := by
  have hdigits : ∀ c ∈ Nat.toDigits 10 v.natAbs, c.isDigit = true := fun c =>
    Numeral.isDigit_of_mem_toDigits
  have hlen := numberLength_digits hdigits hr
  rw [Numeral.toList_toString_int]
  split
  next h =>
    exact cuts_negative blocks false rest
      (startsWithDigit_append rest hdigits Nat.toDigits_ne_nil) hlen
  next h =>
    obtain ⟨c, cs, heq, hc⟩ := Numeral.exists_toDigits_eq_cons v.natAbs
    rw [heq] at hlen ⊢
    exact cuts_number blocks false rest hc hlen

theorem cuts_float {x : Double} (h : x.isFinite = true) (hr : Delimits rest) :
    Cuts ⟨⟨blocks, .plain⟩, false⟩ [⟨floatSource x, .float, blocks⟩]
      ⟨⟨blocks, .plain⟩, false⟩ rest := by
  obtain ⟨-, p, hp, heq⟩ := floatSource_eq h
  have hlen := numberLength_chars hp hr
  obtain ⟨c, cs, hcs⟩ := exists_cons_of_ne_nil hp.whole_ne_nil
  have hc : c.isDigit = true := hp.whole_digits c (by rw [hcs]; simp)
  obtain ⟨own, hown⟩ : ∃ own, p.chars = c :: own := ⟨_, by rw [Double.Parts.chars, hcs]; rfl⟩
  rw [heq]
  rw [hown] at hlen ⊢
  split
  next =>
    have hstart : startsWithDigit (c :: own ++ rest) = true := hc
    exact cuts_negative blocks false rest hstart hlen
  next => exact cuts_number blocks false rest hc hlen

end Numbers

/-- A scalar is cut in front of what delimits it. -/
theorem cuts_lexemes (blocks : List BlockKind) {rest : List Char} {s : Scalar}
    (hs : ∀ x, s = .float x → x.isFinite = true) (hr : Delimits rest) :
    Cuts ⟨⟨blocks, .plain⟩, false⟩ (s.lexemes blocks) ⟨⟨blocks, .plain⟩, false⟩ rest := by
  cases s with
  | int v => exact cuts_int blocks v.toInt hr
  | float x => exact cuts_float blocks (hs x rfl) hr
  | boolean v => exact cuts_boolean blocks false rest v hr
  | string v =>
    refine Cuts.cons (cuts_openingQuote blocks false _) ?_
    refine Cuts.append ?_ (cuts_closingQuote blocks false rest)
    exact cuts_stringLexemes blocks false rest v.toList

end Scalar

namespace Value

/-! ### Values -/

theorem chars_separated (blocks : List BlockKind) (parts : List (List Lexeme)) :
    chars (separated blocks parts) = commaSeparated (parts.map chars) := by
  fun_induction separated blocks parts with
  | case1 => rfl
  | case2 xs => rfl
  | case3 xs rest hne ih =>
    obtain ⟨ys, more, rfl⟩ := exists_cons_of_ne_nil hne
    simp [ih, commaSeparated]

theorem chars_bracketed (kind : BlockKind) (blocks : List BlockKind) (parts : List (List Lexeme)) :
    chars (bracketed kind blocks parts) =
      kind.openChar :: (commaSeparated (parts.map chars) ++ [kind.closeChar]) := by
  simp [bracketed, chars_separated]

mutual

/-- The text of a value is that of its lexemes. -/
theorem chars_lexemes (blocks : List BlockKind) (v : Value) :
    chars (v.lexemes blocks) = v.sourceChars := by
  cases v with
  | scalar s => exact s.chars_lexemes blocks
  | dict entries =>
    rw [lexemes, chars_bracketed, map_chars_entryLexemes, sourceChars]
    rfl
  | array items | tuple items =>
    rw [lexemes, chars_bracketed, map_chars_itemLexemes, sourceChars]
    rfl
  | enum tag payload =>
    cases payload with
    | none => simp [lexemes, payloadLexemes, sourceChars, payloadSource]
    | some v => simp [lexemes, payloadLexemes, sourceChars, payloadSource, chars_lexemes blocks v]

theorem map_chars_entryLexemes (blocks : List BlockKind) (entries : List (String × Value)) :
    (entryLexemes blocks entries).map chars = entrySources entries := by
  cases entries with
  | nil => rfl
  | cons entry rest =>
    obtain ⟨key, v⟩ := entry
    simp [entryLexemes, entrySources, chars_lexemes blocks v, map_chars_entryLexemes blocks rest]

theorem map_chars_itemLexemes (blocks : List BlockKind) (items : List Value) :
    (itemLexemes blocks items).map chars = itemSources items := by
  cases items with
  | nil => rfl
  | cons v rest =>
    simp [itemLexemes, itemSources, chars_lexemes blocks v, map_chars_itemLexemes blocks rest]

end

theorem exists_of_isIdentifier {name : String} (h : isIdentifier name = true) :
    ∃ c cs, name.toList = c :: cs ∧ (c.isAlpha = true ∨ c = '_') ∧
      ∀ d ∈ cs, isNameChar d = true := by
  unfold isIdentifier at h
  split at h
  next => cases h
  next c cs heq =>
    simp only [Bool.and_eq_true, Bool.or_eq_true, beq_iff_eq, all_eq_true] at h
    exact ⟨c, cs, heq, h.1, h.2⟩

theorem isNameChar_of_isTagName {name : String} (h : isTagName name = true) :
    name.toList ≠ [] ∧ ∀ c ∈ name.toList, isNameChar c = true := by
  simpa [isTagName] using h

theorem lexemes_of_isBlock (blocks : List BlockKind) {v : Value} (h : v.isBlock = true) :
    ∃ kind parts, v.lexemes blocks = bracketed kind blocks parts := by
  cases v with
  | scalar s => cases h
  | enum tag payload => cases h
  | dict entries => exact ⟨.dict, _, rfl⟩
  | array items => exact ⟨.array, _, rfl⟩
  | tuple items => exact ⟨.tuple, _, rfl⟩

/-- The lexemes of values are built from scalars, brackets, keys and tags. -/
theorem lexemes_induction {P : List BlockKind → List Lexeme → Prop}
    (scalar : ∀ blocks s, isEncodable (.scalar s) = true → P blocks (s.lexemes blocks))
    (block : ∀ blocks kind parts, (∀ xs ∈ parts, P (kind :: blocks) xs) →
      P blocks (bracketed kind blocks parts))
    (entry : ∀ blocks key xs, isIdentifier key = true → P blocks xs →
      P blocks (⟨key.toList, .key, blocks⟩ :: ⟨[':'], .colon, blocks⟩ ::
        ⟨[' '], .blank, blocks⟩ :: xs))
    (unit : ∀ blocks tag, isTagName tag = true → P blocks [⟨'#' :: tag.toList, .tag, blocks⟩])
    (payload : ∀ blocks tag kind parts, isTagName tag = true →
      P blocks (bracketed kind blocks parts) →
      P blocks (⟨'#' :: tag.toList, .tag, blocks⟩ :: bracketed kind blocks parts))
    (blocks : List BlockKind) (v : Value) (h : v.isEncodable = true) :
    P blocks (v.lexemes blocks) :=
  value blocks v h
where
  value (blocks : List BlockKind) (v : Value) (h : v.isEncodable = true) :
      P blocks (v.lexemes blocks) := by
    cases v with
    | scalar s => exact scalar blocks s h
    | dict fields =>
      simp only [isEncodable, Bool.and_eq_true] at h
      exact block blocks .dict _ (entries _ fields h.2)
    | array list => exact block blocks .array _ (items _ list h)
    | tuple list => exact block blocks .tuple _ (items _ list h)
    | enum tag content =>
      match content with
      | none => exact unit blocks tag h
      | some v =>
        simp only [isEncodable, Bool.and_eq_true] at h
        obtain ⟨⟨htag, hblock⟩, hv⟩ := h
        have hinner := value blocks v hv
        obtain ⟨kind, parts, heq⟩ := lexemes_of_isBlock blocks hblock
        rw [heq] at hinner
        rw [lexemes, payloadLexemes, heq]
        exact payload blocks tag kind parts htag hinner
  entries (blocks : List BlockKind) (fields : List (String × Value))
      (h : entriesEncodable fields = true) : ∀ xs ∈ entryLexemes blocks fields, P blocks xs := by
    match fields with
    | [] => exact fun xs hxs => absurd hxs (by simp [entryLexemes])
    | (key, v) :: rest =>
      simp only [entriesEncodable, Bool.and_eq_true] at h
      obtain ⟨⟨hkey, hv⟩, hrest⟩ := h
      intro xs hxs
      rcases mem_cons.1 hxs with rfl | hxs
      · exact entry blocks key _ hkey (value blocks v hv)
      · exact entries blocks rest hrest xs hxs
  items (blocks : List BlockKind) (list : List Value) (h : itemsEncodable list = true) :
      ∀ xs ∈ itemLexemes blocks list, P blocks xs := by
    match list with
    | [] => exact fun xs hxs => absurd hxs (by simp [itemLexemes])
    | v :: rest =>
      simp only [itemsEncodable, Bool.and_eq_true] at h
      intro xs hxs
      rcases mem_cons.1 hxs with rfl | hxs
      · exact value blocks v h.1
      · exact items blocks rest h.2 xs hxs

/-! ### Scanning values -/

/-- Lexemes on one line, with something visible at both ends, that are cut in front of what
delimits. -/
structure IsPiece (blocks : List BlockKind) (xs : List Lexeme) : Prop where
  tight : Tight (chars xs)
  cuts : ∀ rest, Delimits rest →
    Cuts ⟨⟨blocks, .plain⟩, false⟩ xs ⟨⟨blocks, .plain⟩, false⟩ rest

section Pieces

variable {blocks : List BlockKind} {parts : List (List Lexeme)} {tag : String}

/-- A single space is cut in front of a piece. -/
theorem IsPiece.cuts_space {xs : List Lexeme} (h : IsPiece blocks xs) (rest : List Char)
    (hr : Delimits rest) :
    Cuts ⟨⟨blocks, .plain⟩, false⟩ (⟨[' '], .blank, blocks⟩ :: xs)
      ⟨⟨blocks, .plain⟩, false⟩ rest := by
  obtain ⟨c, cs, hchars, hc⟩ := h.tight.head
  refine (cuts_blank blocks false _ (by decide) (by simp) ?_).cons (h.cuts rest hr)
  intro d hd
  rw [hchars] at hd
  obtain rfl : c = d := Option.some.inj hd
  exact hc

/-- Some pieces with commas and spaces between them are a piece. -/
theorem isPiece_separated (h : ∀ xs ∈ parts, IsPiece blocks xs)
    (hne : parts ≠ []) : IsPiece blocks (separated blocks parts) := by
  fun_induction separated blocks parts with
  | case1 => exact absurd rfl hne
  | case2 xs => exact h xs (by simp)
  | case3 xs more hmore ih =>
    have hxs := h xs (by simp)
    have hrest := ih (fun ys hys => h ys (mem_cons_of_mem xs hys)) hmore
    refine ⟨?_, fun rest hr => ?_⟩
    · rw [chars_append]
      exact hxs.tight.around [',', ' '] hrest.tight (by decide)
    · refine Cuts.append (hxs.cuts _ (delimits_comma _)) ?_
      exact (cuts_comma blocks false _).cons (hrest.cuts_space rest hr)

/-- Pieces between brackets are a piece. -/
theorem isPiece_bracketed (kind : BlockKind) (h : ∀ xs ∈ parts, IsPiece (kind :: blocks) xs) :
    IsPiece blocks (bracketed kind blocks parts) := by
  have hinner : '\n' ∉ chars (separated (kind :: blocks) parts) ∧
      ∀ rest, Delimits rest → Cuts ⟨⟨kind :: blocks, .plain⟩, false⟩
        (separated (kind :: blocks) parts) ⟨⟨kind :: blocks, .plain⟩, false⟩ rest := by
    by_cases hne : parts = []
    · rw [hne]
      exact ⟨by simp [separated], fun rest _ => cuts_nil _ rest⟩
    · have hpiece := isPiece_separated h hne
      exact ⟨hpiece.tight.feed, hpiece.cuts⟩
  have hbracket : ∀ c, c = kind.openChar ∨ c = kind.closeChar → Tight [c] := by
    intro c hc
    refine tight_of_visible (by simp) fun d hd => ?_
    rw [mem_singleton.1 hd]
    rcases hc with rfl | rfl <;> cases kind <;> decide
  refine ⟨?_, fun rest _ => ?_⟩
  · have htight := (hbracket kind.openChar (.inl rfl)).around _
      (hbracket kind.closeChar (.inr rfl)) hinner.1
    simpa [bracketed] using htight
  · refine (cuts_openingBracket blocks false _ kind).cons ?_
    refine Cuts.append ?_ (cuts_closingBracket blocks false rest kind)
    exact hinner.2 _ (delimits_closeChar kind _)

/-- A key, its colon, a space and a piece are a piece. -/
theorem isPiece_entry {key : String} (hkey : isIdentifier key = true) {xs : List Lexeme}
    (h : IsPiece blocks xs) :
    IsPiece blocks (⟨key.toList, .key, blocks⟩ :: ⟨[':'], .colon, blocks⟩ ::
      ⟨[' '], .blank, blocks⟩ :: xs) := by
  obtain ⟨c, cs, heq, hc, hcs⟩ := exists_of_isIdentifier hkey
  have hname : ∀ d ∈ c :: cs, isNameChar d = true := by
    intro d hd
    rcases mem_cons.1 hd with rfl | hd
    · rcases hc with hc | rfl
      · exact isNameChar_of_isAlpha hc
      · decide
    · exact hcs d hd
  rw [heq]
  refine ⟨?_, fun rest hr => ?_⟩
  · have htight := tight_of_visible (by simp) fun d hd =>
      isBlank_of_isNameChar (hname d hd)
    exact htight.around [':', ' '] h.tight (by decide)
  · refine (cuts_key blocks false _ hc hcs ?_ rfl).cons ?_
    · intro d hd
      obtain rfl : ':' = d := Option.some.inj hd
      decide
    · exact (cuts_colon blocks _).cons (h.cuts_space rest hr)

theorem tight_tag (htag : isTagName tag = true) : Tight ('#' :: tag.toList) := by
  refine tight_of_visible (by simp) fun c hc => ?_
  rcases mem_cons.1 hc with rfl | hc
  · decide
  · exact isBlank_of_isNameChar ((isNameChar_of_isTagName htag).2 c hc)

/-- A tag alone is a piece. -/
theorem isPiece_unit (htag : isTagName tag = true) :
    IsPiece blocks [⟨'#' :: tag.toList, .tag, blocks⟩] := by
  obtain ⟨hne, hall⟩ := isNameChar_of_isTagName htag
  refine ⟨?_, fun rest hr => cuts_tag blocks false rest hne hall hr.not_isNameChar⟩
  simpa using tight_tag htag

/-- A tag in front of brackets that are a piece is a piece. -/
theorem isPiece_payload (htag : isTagName tag = true) {kind : BlockKind}
    (h : IsPiece blocks (bracketed kind blocks parts)) :
    IsPiece blocks (⟨'#' :: tag.toList, .tag, blocks⟩ :: bracketed kind blocks parts) := by
  obtain ⟨hne, hall⟩ := isNameChar_of_isTagName htag
  refine ⟨(tight_tag htag).append h.tight, fun rest hr => ?_⟩
  refine (cuts_tag blocks false _ hne hall ?_).cons (h.cuts rest hr)
  intro c hc
  obtain rfl : kind.openChar = c := Option.some.inj hc
  cases kind <;> decide

theorem isPiece_scalar {s : Scalar} (hs : isEncodable (.scalar s) = true) :
    IsPiece blocks (s.lexemes blocks) := by
  refine ⟨?_, fun rest hr => Scalar.cuts_lexemes blocks ?_ hr⟩
  · rw [Scalar.chars_lexemes]
    exact Scalar.tight_source fun x hx => by subst hx; exact hs
  · rintro x rfl
    exact hs

end Pieces

/-- The scanner finds the lexemes of a value that can be written. -/
theorem isPiece_lexemes (blocks : List BlockKind) {v : Value} (h : v.isEncodable = true) :
    IsPiece blocks (v.lexemes blocks) := by
  refine lexemes_induction (P := IsPiece) ?_ ?_ ?_ ?_ ?_ blocks v h
  · exact fun blocks s hs => isPiece_scalar hs
  · exact fun blocks kind parts hparts => isPiece_bracketed kind hparts
  · exact fun blocks key xs hkey hxs => isPiece_entry hkey hxs
  · exact fun blocks tag htag => isPiece_unit htag
  · exact fun blocks tag kind parts htag hparts => isPiece_payload htag hparts

end Value

end TypedNotation
