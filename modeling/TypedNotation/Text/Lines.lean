/-!
# Pieces and lines

A text is cut at every occurrence of a character. The pieces are what is between the cuts, so a text
has one piece more than it has cuts, and the empty text is one empty piece.

For lines it is cut at every line feed; one carriage return directly before the line feed, or at the
end of the text, belongs to the line ending.
-/

namespace TypedNotation.Text

/-- The pieces between the occurrences of a character. -/
def pieces (cut : Char) : List Char → List (List Char)
  | [] => [[]]
  | c :: cs =>
    match pieces cut cs with
    | [] => [[c]]
    | first :: rest => if c = cut then [] :: first :: rest else (c :: first) :: rest

theorem pieces_ne_nil (cut : Char) (cs : List Char) : pieces cut cs ≠ [] := by
  induction cs with
  | nil => simp [pieces]
  | cons c cs ih =>
    rw [pieces]
    split
    next h => simp
    next => split <;> simp

/-- A text has one piece more than it has cuts. -/
theorem length_pieces (cut : Char) (cs : List Char) :
    (pieces cut cs).length = cs.count cut + 1 := by
  induction cs with
  | nil => rfl
  | cons c cs ih =>
    rw [pieces]
    split
    next h => exact absurd h (pieces_ne_nil cut cs)
    next first rest h =>
      rw [h] at ih
      by_cases hc : c = cut
      · simp_all
      · simp_all

/-- A text without cuts is one piece. -/
theorem pieces_of_not_mem {cut : Char} {cs : List Char} (h : cut ∉ cs) : pieces cut cs = [cs] := by
  induction cs with
  | nil => rfl
  | cons c cs ih =>
    obtain ⟨hc, hcs⟩ := not_or.1 (mt List.mem_cons.2 h)
    rw [pieces, ih hcs]
    exact if_neg (Ne.symm hc)

/-- A piece without the carriage return that ends it. -/
def dropReturn (cs : List Char) : List Char :=
  if cs.getLast? = some '\r' then cs.dropLast else cs

/-- The lines of a text, without their endings. -/
def lines (cs : List Char) : List (List Char) :=
  (pieces '\n' cs).map dropReturn

/-- A text has one line more than it has line feeds. -/
theorem length_lines (cs : List Char) : (lines cs).length = cs.count '\n' + 1 := by
  rw [lines, List.length_map, length_pieces]

end TypedNotation.Text
