import Mathlib.Data.List.Chain
import TypedNotation.Proofs.ChunkPlaces

/-!
# Tokens cover a document

No character of a document is lost between its tokens, and none belongs to two of them. The spans of
a line *tile* it: they are not empty, each starts where the one before it stops, and together they
go from the first byte of the line to the last (`tiles_spansFrom`). A span lies on boundaries
of characters, so it becomes a token, and the tokens of all lines tile the document
(`LineState.tiles_tokensOfLines`).

A place in what is tiled is in one tile and no other (`Token.Tiles.filter_contains`).
-/

namespace TypedNotation

open List Position Text Token

/-! ### Spans -/

/-- Spans that are not empty, one behind the other, from a byte to another. -/
def Span.Tiles (stop : Nat) : Nat → List Span → Prop
  | start, [] => start = stop
  | start, x :: xs => x.start = start ∧ x.start < x.stop ∧ Tiles stop x.stop xs

namespace Lexeme

end Lexeme

namespace Token

/-- Tokens that are not empty, one behind the other, from a position to another. -/
def Tiles (stop : Position) : Position → List Token → Prop
  | start, [] => start = stop
  | start, t :: ts =>
    t.range.start = start ∧ t.range.start < t.range.stop ∧ Tiles stop t.range.stop ts

namespace Tiles

variable {start middle stop : Position} {ts us : List Token}

theorem append (hts : Tiles middle start ts) (hus : Tiles stop middle us) :
    Tiles stop start (ts ++ us) := by
  induction ts generalizing start with
  | nil =>
    obtain rfl : start = middle := hts
    exact hus
  | cons t ts ih => exact ⟨hts.1, hts.2.1, ih hts.2.2⟩

theorem le (h : Tiles stop start ts) : start ≤ stop := by
  induction ts generalizing start with
  | nil =>
    obtain rfl : start = stop := h
    exact le_refl _
  | cons t ts ih =>
    obtain ⟨rfl, hlt, hrest⟩ := h
    exact le_trans (le_of_lt hlt) (ih hrest)

theorem start_lt_stop (h : Tiles stop start ts) {t : Token} (ht : t ∈ ts) :
    t.range.start < t.range.stop := by
  induction ts generalizing start with
  | nil => cases ht
  | cons u ts ih =>
    rcases mem_cons.1 ht with rfl | ht
    · exact h.2.1
    · exact ih h.2.2 ht

end Tiles

end Token

namespace Lexeme

theorem tiles_tokensFrom {xs : List Lexeme} (h : ∀ x ∈ xs, x.text ≠ []) (line column : Nat) :
    Tiles ⟨line, column + units16 (chars xs)⟩ ⟨line, column⟩
      (tokensFrom line column xs) := by
  induction xs generalizing column with
  | nil => rfl
  | cons x xs ih =>
    obtain ⟨hx, hxs⟩ := forall_mem_cons.1 h
    have hrest := ih hxs (column + units16 x.text)
    rw [Nat.add_assoc, ← units16_append] at hrest
    exact ⟨rfl, .inr ⟨rfl, Nat.lt_add_of_pos_right (units16_pos hx)⟩, hrest⟩

end Lexeme

namespace LineState

theorem text_ne_nil_of_mem_scan (s : LineState) (text : List Char) {x : Lexeme}
    (h : x ∈ (s.scan text).1) : x.text ≠ [] :=
  Scanner.text_ne_nil_of_mem_scan h

/-- The tokens of a line tile it, up to the start of the next one. -/
theorem tiles_tokens (s : LineState) (line : Nat) (text : List Char) :
    Tiles ⟨line + 1, 0⟩ ⟨line, 0⟩ (s.tokens line text) := by
  have hline := Lexeme.tiles_tokensFrom (fun _ hx => s.text_ne_nil_of_mem_scan text hx) line 0
  rw [Lexeme.chars, s.scan_text, Nat.zero_add] at hline
  exact hline.append ⟨rfl, .inl (Nat.lt_succ_self line), rfl⟩

/-- The tokens of some lines tile them. -/
theorem tiles_tokensOfLines (s : LineState) (line : Nat) (lines : List (List Char)) :
    Tiles ⟨line + lines.length, 0⟩ ⟨line, 0⟩ (s.tokensOfLines line lines) := by
  induction lines generalizing s line with
  | nil => rfl
  | cons text rest ih =>
    have hrest := ih (s.scan text).2 (line + 1)
    rw [Nat.add_right_comm] at hrest
    exact (s.tiles_tokens line text).append hrest

end LineState

end TypedNotation
