import Mathlib.Data.Nat.Digits.Defs
import TypedNotation.Proofs.StringSegments

/-!
# The value of integer literals

An integer is written as groups of digits with underscores between them, behind a minus sign if it
is negative. It stands for the number whose decimal digits are those of the groups in a row, however
many zeros lead.

A document can hold the integers of 64 bits. Each text of this form is a document whose data is the
nearest of these, and there is a finding, one, exactly if the two are not the same
(`Document.integer_literal_is_read_exactly`). Four parts of the reader have to fit: the scanner
takes an underscore only in front of a digit (`digitRun_unsigned`) and the sign by itself
(`cuts_source`), the builder drops the underscores (`filter_chars`) and puts the end of the range in
the place of a number beyond it (`read_int_token`).
-/

namespace TypedNotation

open List Numeral Chunk

/-! ### Integers as they are written -/

/-- Some digits, at least one, the most significant first. -/
structure DigitGroup where
  first : Fin 10
  more : List (Fin 10)

namespace DigitGroup

/-- The digits of a group. -/
def digits (g : DigitGroup) : List (Fin 10) :=
  g.first :: g.more

/-- The character of a digit. -/
def char (d : Fin 10) : Char :=
  Char.ofNat ('0'.toNat + d)

/-- How a group is written. -/
def chars (g : DigitGroup) : List Char :=
  g.digits.map char

end DigitGroup

/-- An integer as it is written: groups of digits, perhaps behind a minus sign. -/
structure IntegerLiteral where
  negative : Bool
  first : DigitGroup
  more : List DigitGroup

namespace IntegerLiteral

/-- How the literal is written behind its sign, with underscores between the groups. -/
def unsigned (n : IntegerLiteral) : List Char :=
  n.first.chars ++ n.more.flatMap fun g => '_' :: g.chars

/-- How the literal is written. -/
def chars (n : IntegerLiteral) : List Char :=
  if n.negative then '-' :: n.unsigned else n.unsigned

/-- The text of the literal. -/
def source (n : IntegerLiteral) : String :=
  String.ofList n.chars

/-- The digits of all groups. -/
def digits (n : IntegerLiteral) : List (Fin 10) :=
  n.first.digits ++ n.more.flatMap DigitGroup.digits

/-- The number with these decimal digits. -/
def magnitude (n : IntegerLiteral) : Nat :=
  Nat.ofDigits 10 (n.digits.reverse.map Fin.val)

/-- The number that the literal stands for. -/
def value (n : IntegerLiteral) : Int :=
  if n.negative then -n.magnitude else n.magnitude

/-- The nearest integer of 64 bits. -/
def clamped (n : IntegerLiteral) : Int :=
  max (-2 ^ 63) (min (2 ^ 63 - 1) n.value)

end IntegerLiteral

/-! ### Digits -/

namespace DigitGroup

theorem char_spec (d : Fin 10) :
    (char d).isDigit = true ∧ digitValue (char d) = d.val := by
  revert d
  decide

theorem isDigit_of_mem {ds : List (Fin 10)} : ∀ c ∈ ds.map char, c.isDigit = true := by
  intro c h
  obtain ⟨d, -, rfl⟩ := mem_map.1 h
  exact (char_spec d).1

theorem isDigit_of_mem_chars (g : DigitGroup) : ∀ c ∈ g.chars, c.isDigit = true :=
  isDigit_of_mem

/-- The value of some digits is the number with these digits. -/
theorem value_map_char (ds : List (Fin 10)) :
    Numeral.value (ds.map char) = Nat.ofDigits 10 (ds.reverse.map Fin.val) := by
  induction ds using List.reverseRecOn with
  | nil => rfl
  | append_singleton ds d ih =>
    have hlast : Numeral.value [char d] = d.val := by simp [Numeral.value, char_spec]
    rw [map_append, map_singleton, value_append, hlast, ih, reverse_append,
      reverse_singleton, map_append, map_singleton, Nat.ofDigits_append,
      Nat.ofDigits_singleton, length_singleton, length_singleton, Nat.add_comm, Nat.mul_comm]
    rfl

end DigitGroup

/-! ### The token of a literal -/

/-- Digits are taken into the run that they start. -/
theorem Scan.digitRun_digits {ds : List Char} (h : ∀ c ∈ ds, c.isDigit = true) (rest : List Char) :
    digitRun (ds ++ rest) = ds.length + digitRun rest := by
  induction ds with
  | nil => simp
  | cons c ds ih =>
    rw [cons_append, digitRun, h c mem_cons_self, Bool.true_or, if_pos rfl,
      ih fun d hd => h d (mem_cons_of_mem c hd), length_cons]
    omega

namespace IntegerLiteral

open Scan (digitRun startsWithDigit numberLength)

variable (n : IntegerLiteral)

/-- Groups with an underscore in front of each are one run: a digit follows every underscore. -/
theorem digitRun_groups (groups : List DigitGroup) :
    digitRun (groups.flatMap fun g => '_' :: g.chars) =
      (groups.flatMap fun g => '_' :: g.chars).length := by
  induction groups with
  | nil => rfl
  | cons g groups ih =>
    have hstart : startsWithDigit (g.chars ++ groups.flatMap fun g => '_' :: g.chars) = true :=
      (DigitGroup.char_spec g.first).1
    rw [flatMap_cons, cons_append, digitRun, hstart,
      Scan.digitRun_digits g.isDigit_of_mem_chars, ih]
    simp

theorem digitRun_unsigned : digitRun n.unsigned = n.unsigned.length := by
  rw [unsigned, Scan.digitRun_digits n.first.isDigit_of_mem_chars, digitRun_groups,
    length_append]

theorem numberLength_unsigned : numberLength (n.unsigned ++ []) = (n.unsigned.length, false) := by
  simp [numberLength, digitRun_unsigned, Scan.fractionLength, Scan.powerLength]

/-- The literal is one integer lexeme if the line ends behind it. -/
theorem cuts_source :
    Scanner.Cuts ⟨{}, false⟩ [⟨n.chars, .integer, []⟩] ⟨{}, false⟩ [] := by
  have hdigit := (DigitGroup.char_spec n.first.first).1
  have hstart : startsWithDigit (n.unsigned ++ []) = true := hdigit
  rw [chars]
  split
  · exact Scanner.cuts_negative [] false [] hstart n.numberLength_unsigned
  · exact Scanner.cuts_number [] false [] hdigit n.numberLength_unsigned

/-- A literal has only digits, underscores and minus signs. -/
theorem mem_chars {c : Char} (h : c ∈ n.chars) : c.isDigit = true ∨ c = '_' ∨ c = '-' := by
  have hunsigned : c ∈ n.unsigned → c.isDigit = true ∨ c = '_' := by
    intro hc
    rcases mem_append.1 hc with hc | hc
    · exact .inl (DigitGroup.isDigit_of_mem_chars _ c hc)
    · obtain ⟨g, -, hc⟩ := mem_flatMap.1 hc
      rcases mem_cons.1 hc with rfl | hc
      · exact .inr rfl
      · exact .inl (DigitGroup.isDigit_of_mem_chars _ c hc)
  rw [chars] at h
  split at h
  · rcases mem_cons.1 h with rfl | h
    · exact .inr (.inr rfl)
    · exact (hunsigned h).imp_right .inl
  · exact (hunsigned h).imp_right .inl

/-- The token of the literal, when nothing stands before it. -/
def token : Token :=
  Lexeme.token 0 0 ⟨n.chars, .integer, []⟩

theorem units16_chars : Text.units16 n.chars = n.chars.length := by
  have hwidth : ∀ c ∈ n.chars, Text.unitWidth c = 1 := by
    intro c hc
    rcases n.mem_chars hc with hdigit | rfl | rfl
    · simp only [Char.isDigit, Bool.and_eq_true, decide_eq_true_eq,
        UInt32.le_iff_toNat_le] at hdigit
      exact if_pos (Nat.lt_of_le_of_lt hdigit.2 (by decide))
    · rfl
    · rfl
  generalize n.chars = cs at hwidth
  induction cs with
  | nil => rfl
  | cons c cs ih =>
    rw [Text.units16_cons, hwidth c mem_cons_self,
      ih fun d hd => hwidth d (mem_cons_of_mem c hd), length_cons, Nat.add_comm]

/-- The literal and the end of its line are all tokens of the document. -/
theorem tokensOf_source :
    Document.tokensOf n.source = [n.token, Token.newline 0 n.chars.length] := by
  have hends : ∀ c ∈ n.chars, c ≠ '\n' ∧ c ≠ '\r' := by
    intro c hc
    rcases n.mem_chars hc with hdigit | rfl | rfl
    · constructor <;>
      · rintro rfl
        exact absurd hdigit (by decide)
    · decide
    · decide
  have hcons := @Scanner.tokensOfText_cons ⟨{}, false⟩ ⟨{}, false⟩ 0 0 [] ⟨n.chars, .integer, []⟩
    (fun h => (hends _ h).1 rfl) (fun _ h => (hends _ (mem_of_getLast? h)).2 rfl) (by
      intro row rows hlines
      obtain ⟨rfl, -⟩ := List.cons.inj (show [[]] = row :: rows from hlines)
      exact n.cuts_source)
  rw [append_nil] at hcons
  rw [Document.tokensOf_eq_tokensOfText, source, String.toList_ofList, hcons, units16_chars,
    Nat.zero_add]
  simp [token, Scanner.tokensOfText, Text.lines, Text.pieces, Text.dropReturn, Scanner.scan,
    LineState.tokensOfLines]

/-! ### The number of a literal -/

theorem filter_digits {ds : List Char} (h : ∀ c ∈ ds, c.isDigit = true) :
    ds.filter (· != '_') = ds :=
  filter_eq_self.2 fun c hc => by simpa using Literal.ne_underscore_of_isDigit (h c hc)

/-- Without its underscores, the literal is its digits in a row behind the sign. -/
theorem filter_chars :
    n.chars.filter (· != '_') =
      if n.negative then '-' :: n.digits.map DigitGroup.char else n.digits.map DigitGroup.char := by
  have hgroups : ∀ groups : List DigitGroup,
      (groups.flatMap fun g => '_' :: g.chars).filter (· != '_') =
        (groups.flatMap DigitGroup.digits).map DigitGroup.char := by
    intro groups
    induction groups with
    | nil => rfl
    | cons g groups ih =>
      rw [flatMap_cons, flatMap_cons, filter_append, ih, map_append,
        filter_cons_of_neg (by decide), filter_digits g.isDigit_of_mem_chars]
      rfl
  have hunsigned : n.unsigned.filter (· != '_') = n.digits.map DigitGroup.char := by
    rw [unsigned, digits, filter_append, hgroups, filter_digits n.first.isDigit_of_mem_chars,
      map_append]
    rfl
  rw [chars]
  split
  · rw [filter_cons_of_pos (by decide), hunsigned]
  · exact hunsigned

theorem signedValue?_chars : signedValue? (n.chars.filter (· != '_')) = some n.value := by
  have hdigits : isDigits (n.digits.map DigitGroup.char) = true := by
    rw [isDigits, all_eq_true.2 DigitGroup.isDigit_of_mem]
    rfl
  have hvalue : Numeral.value (n.digits.map DigitGroup.char) = n.magnitude :=
    DigitGroup.value_map_char n.digits
  rw [filter_chars, value]
  split
  · rw [signedValue?, if_pos hdigits, hvalue]
  · have hcons : n.digits.map DigitGroup.char = DigitGroup.char n.first.first ::
        (n.digits.map DigitGroup.char).tail := rfl
    rw [hcons, signedValue?_of_isDigit (DigitGroup.char_spec n.first.first).1, ← hcons,
      if_pos hdigits, hvalue]

theorem clamped_bounds : -2 ^ 63 ≤ n.clamped ∧ n.clamped < 2 ^ 63 := by
  unfold clamped
  omega

theorem toInt_clamped : (Int64.ofInt n.clamped).toInt = n.clamped :=
  Int64.toInt_ofInt_of_le n.clamped_bounds.1 n.clamped_bounds.2

/-- The number is within the range exactly if it is its own nearest integer. -/
theorem clamped_eq_iff :
    n.clamped = n.value ↔ Int64.minValue.toInt ≤ n.value ∧ n.value ≤ Int64.maxValue.toInt := by
  rw [clamped, Int64.toInt_minValue, Int64.toInt_maxValue]
  omega

/-- A number beyond the range is beyond its end on the side of the sign. -/
theorem clamp_negative (h : n.clamped ≠ n.value) :
    Literal.clamp n.negative = Int64.ofInt n.clamped := by
  rw [Literal.clamp]
  have hclamped : n.clamped = if n.negative then -2 ^ 63 else 2 ^ 63 - 1 := by
    unfold clamped value at h ⊢
    split_ifs at h ⊢ <;> omega
  rw [hclamped]
  split <;> rfl

/-- What the token of the literal is read as, and what is found there. -/
theorem read_int_token :
    Literal.read .int n.token = (.int (Int64.ofInt n.clamped),
      if n.clamped = n.value then []
      else [.error .numberOutOfRange n.token.range "Integer literal out of range."]) := by
  have htext : n.token.text.toList = n.chars := String.toList_ofList
  simp only [Literal.read, htext, Literal.int?, signedValue?_chars]
  by_cases h : n.clamped = n.value
  · rw [if_pos (n.clamped_eq_iff.1 h), if_pos h, h]
  · have hhead : ((n.chars.filter (· != '_')).head? == some '-') = n.negative := by
      have hdigit : ∀ d, (some (DigitGroup.char d) == some '-') = false := by decide
      rw [filter_chars]
      cases n.negative with
      | true => rfl
      | false => exact hdigit n.first.first
    rw [if_neg (fun hrange => h (n.clamped_eq_iff.2 hrange)), if_neg h, hhead, n.clamp_negative h]

/-- The places of the literal. -/
def range : Range :=
  ⟨.origin, ⟨0, n.source.length⟩⟩

/-- What is found at the literal. -/
def findings : List Diagnostic :=
  if n.clamped = n.value then []
    else [.error .numberOutOfRange n.range "Integer literal out of range."]

theorem chunks_source :
    ∃ weak, ofTokens (Document.tokensOf n.source) =
      ([.value (.int (Int64.ofInt n.clamped)) n.range (.single 0),
        .separator true weak (.single 1)], ⟨n.findings⟩) := by
  have hrange : n.token.range = n.range := by
    simp [token, Lexeme.token, range, Range.onLine, source, units16_chars, Position.origin]
  have hkind : n.token.kind = .literal .int := rfl
  have hread := n.read_int_token
  rw [hrange, ← findings] at hread
  refine ⟨(Token.newline 0 n.chars.length).range, ?_⟩
  rw [tokensOf_source]
  simp [ofTokens, Builder.step, Builder.readNext, Builder.read, hkind,
    hread, Builder.foldl_report, Builder.push, Token.newline, hrange,
    Builder.finish, Builder.settle, Builder.result]

end IntegerLiteral

/-- **Integer literals are read exactly, and clamped at the ends of the range.** The text of an
integer literal is a document whose data is one integer, from the start to the end of the text: the
number of the literal if 64 bits hold it, else the end of their range on its side. There is one
finding if the two numbers differ, for a number out of range, and none otherwise. -/
theorem Document.integer_literal_is_read_exactly (n : IntegerLiteral) :
    (∃ v tokens, (parse n.source).data = some (.primitive (.int v) n.range tokens) ∧
      v.toInt = n.clamped) ∧
      (parse n.source).report.diagnostics =
        if n.clamped = n.value then []
        else [.error .numberOutOfRange n.range "Integer literal out of range."] := by
  obtain ⟨weak, hchunks⟩ := n.chunks_source
  have hfound : ∀ d ∈ n.findings, d.fatal = false := by
    intro d hd
    rw [mem_singleton.1 (mem_ite_nil_left.1 hd).2]
    rfl
  have hdata := @Data.ofChunks_scalar (.int (Int64.ofInt n.clamped)) n.range weak (.single 0)
    (.single 1)
    _ hfound
  simp only [parse, hchunks, hdata]
  exact ⟨⟨_, _, rfl, n.toInt_clamped⟩, rfl⟩

end TypedNotation
