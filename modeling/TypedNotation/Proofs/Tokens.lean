import Mathlib.Tactic.Common
import TypedNotation.Document

/-!
# Tokens of scanned lines

The grammar hands spans with byte offsets and scope names over, and the tokens are read off those.
Here the detour is removed: the tokens of a line are its lexemes, one behind the other, each with
the kind of its category, the columns that it covers and the number of blocks around it
(`tokensOf_eq`).
-/

namespace TypedNotation

open List Text Lexeme

namespace Text

/-- A split behind a prefix gives the prefix and the rest. -/
theorem splitAtByte?_bytes_append (a b : List Char) :
    splitAtByte? (a ++ b) (bytes a) = some (a, b) := by
  induction a with
  | nil => cases b <;> rfl
  | cons c a ih =>
    have hpos : 0 < c.utf8Size := Char.utf8Size_pos c
    obtain ⟨n, hn⟩ : ∃ n, bytes (c :: a) = n + 1 := ⟨bytes (c :: a) - 1, by simp; omega⟩
    have hrest : n + 1 - c.utf8Size = bytes a := by
      rw [← hn, bytes_cons]
      omega
    have hle : c.utf8Size ≤ n + 1 := by
      rw [← hn, bytes_cons]
      omega
    rw [hn, cons_append, splitAtByte?, if_pos hle, hrest, ih]
    rfl

end Text

namespace Scope

theorem isBlock_blockScope (kind : BlockKind) : isBlock (blockScope kind) = true := by
  cases kind <;> decide +kernel

theorem isBlock_scope (c : Category) : isBlock c.scope = false := by
  cases c with
  | quote side => cases side <;> decide +kernel
  | bracket kind side => cases kind <;> cases side <;> decide +kernel
  | _ => decide +kernel

/-- The scopes of a lexeme tell the number of blocks around it. -/
theorem depth_scopes (x : Lexeme) : depth x.scopes = x.blocks.length := by
  have hblocks : ∀ bs : List BlockKind, (bs.map blockScope).filter isBlock =
      bs.map blockScope := by
    intro bs
    rw [filter_eq_self]
    intro s hs
    obtain ⟨kind, -, rfl⟩ := mem_map.1 hs
    exact isBlock_blockScope kind
  have hown : ∀ own : List String, (∀ s ∈ own, isBlock s = false) → own.filter isBlock = [] := by
    intro own h
    rw [filter_eq_nil_iff]
    exact fun s hs => by simp [h s hs]
  have hstring : isBlock Category.stringScope = false := isBlock_scope .stringText
  have hsource : isBlock "source.thrd" = false := by decide +kernel
  have hscopes : ∀ own : List String, (∀ s ∈ own, isBlock s = false) →
      depth ("source.thrd" :: x.blocks.reverse.map blockScope ++ own) = x.blocks.length := by
    intro own h
    rw [depth, cons_append, filter_cons_of_neg (by simp [hsource]), filter_append,
      hblocks, hown own h, append_nil, length_map, length_reverse]
  unfold scopes
  refine hscopes _ fun s hs => ?_
  split at hs
  · rw [mem_singleton.1 hs]
    exact isBlock_scope x.category
  · split at hs
    · rw [mem_singleton.1 hs]
      exact hstring
    · rcases mem_cons.1 hs with rfl | hs
      · exact hstring
      · rw [mem_singleton.1 hs]
        exact isBlock_scope x.category

end Scope

namespace Lexeme

/-- The token of a lexeme at a column of a line. -/
def token (line column : Nat) (x : Lexeme) : Token :=
  ⟨x.category.tokenKind, .onLine line column (column + units16 x.text), String.ofList x.text,
    x.blocks.length⟩

/-- The tokens of adjacent lexemes, the first one at a column. -/
def tokensFrom (line column : Nat) : List Lexeme → List Token
  | [] => []
  | x :: xs => x.token line column :: tokensFrom line (column + units16 x.text) xs

@[simp] theorem tokensFrom_nil (line column : Nat) : tokensFrom line column [] = [] := rfl

@[simp] theorem tokensFrom_cons (line column : Nat) (x : Lexeme) (xs : List Lexeme) :
    tokensFrom line column (x :: xs) =
      x.token line column :: tokensFrom line (column + units16 x.text) xs := rfl

/-- The characters of adjacent lexemes. -/
def chars (xs : List Lexeme) : List Char :=
  xs.flatMap (·.text)

@[simp] theorem chars_nil : chars [] = [] := rfl

@[simp] theorem chars_cons (x : Lexeme) (xs : List Lexeme) :
    chars (x :: xs) = x.text ++ chars xs := rfl

@[simp] theorem chars_append (xs ys : List Lexeme) : chars (xs ++ ys) = chars xs ++ chars ys :=
  flatMap_append

/-- The tokens of two parts of a line. -/
theorem tokensFrom_append (line column : Nat) (xs ys : List Lexeme) :
    tokensFrom line column (xs ++ ys) =
      tokensFrom line column xs ++ tokensFrom line (column + units16 (chars xs)) ys := by
  induction xs generalizing column with
  | nil => simp
  | cons x xs ih => simp [ih, Nat.add_assoc]

/-- The span of a lexeme becomes its token. -/
theorem ofSpan?_eq (line : Nat) (before after : List Char) (x : Lexeme) :
    Token.ofSpan? line (before ++ (x.text ++ after))
        ⟨bytes before, bytes before + bytes x.text, x.scopes⟩ =
      some (x.token line (units16 before)) := by
  have hsub : bytes before + bytes x.text - bytes before = bytes x.text := by
    omega
  have hlt : ¬(bytes before + bytes x.text < bytes before) := by omega
  simp only [Token.ofSpan?, splitAtByte?_bytes_append, Option.bind_eq_bind, Option.bind_some,
    hlt, if_false, hsub, TokenKind.ofScopes_scopes, Scope.depth_scopes]
  rfl

/-- Spans of bytes give the tokens of a line. -/
theorem filterMap_spansFrom (line : Nat) (before : List Char) (xs : List Lexeme) :
    (spansFrom (bytes before) xs).filterMap (Token.ofSpan? line (before ++ chars xs)) =
      tokensFrom line (units16 before) xs := by
  induction xs generalizing before with
  | nil => rfl
  | cons x xs ih =>
    have hnext := ih (before ++ x.text)
    rw [append_assoc, bytes_append, units16_append] at hnext
    rw [spansFrom, chars_cons, filterMap_cons, ofSpan?_eq, hnext, tokensFrom_cons]

end Lexeme

namespace LineState

/-- The tokens of a line in a state, the newline included. -/
def tokens (s : LineState) (line : Nat) (text : List Char) : List Token :=
  tokensFrom line 0 (s.scan text).1 ++ [Token.newline line (units16 text)]

/-- The tokens of the lines from a given number on. -/
def tokensOfLines (s : LineState) (line : Nat) : List (List Char) → List Token
  | [] => []
  | text :: rest => s.tokens line text ++ (s.scan text).2.tokensOfLines (line + 1) rest

end LineState

/-- The tokens of lines are those of their lexemes. -/
theorem Token.lexFrom_standard (s : LineState) (line : Nat) (lines : List (List Char)) :
    Token.lexFrom .standard s line lines = s.tokensOfLines line lines := by
  induction lines generalizing s line with
  | nil => rfl
  | cons text rest ih =>
    have hspans : (spansFrom 0 (s.scan text).1).filterMap (Token.ofSpan? line text) =
        tokensFrom line 0 (s.scan text).1 := by
      have h := filterMap_spansFrom line [] (s.scan text).1
      rwa [nil_append, chars, s.scan_text text] at h
    simp only [Token.lexFrom, Grammar.standard, Token.ofLine, LineState.tokensOfLines,
      LineState.tokens, hspans, ← ih]

/-- The tokens of a text are those of its lines. -/
theorem Document.tokensOf_eq (text : String) :
    Document.tokensOf text = LineState.tokensOfLines {} 0 (Document.linesOf text) :=
  Token.lexFrom_standard {} 0 _

end TypedNotation
