import TypedNotation.Proofs.Nesting

/-!
# The lines of a document and their tokens

The layout looks at a document line by line. Its lines are those that the scanner goes through, and
the tokens of a line are those of the lexemes that the scanner finds there (`LineState.rows_eq`).

Of a string that runs on from line to line the layout knows by the first and the last token of a
line, the scanner by its mode. The two agree, except at an invalid token: where the scanner is in a
string, the first token of the line is one of a string or invalid (`Scanner.exists_head_scan`), and
so is the last token if the scanner is in a string behind it (`Scanner.exists_last_scan`).
-/

namespace TypedNotation

open Layout (Row inString isInvalid)

/-- Tokens up to the end of a line are the tokens of the line. -/
theorem Layout.lineTokens_append {ts : List Token} (h : ∀ t ∈ ts, t.kind ≠ .newline)
    {newline : Token} (hnewline : newline.kind = .newline) (more : List Token) :
    lineTokens (ts ++ newline :: more) = ts :: lineTokens more := by
  induction ts with
  | nil => exact if_pos hnewline
  | cons t ts ih =>
    obtain ⟨ht, hts⟩ := List.forall_mem_cons.1 h
    rw [List.cons_append, lineTokens, if_neg ht, ih hts]

theorem Category.tokenKind_ne_newline (k : Category) : k.tokenKind ≠ .newline := by
  cases k <;> simp [tokenKind]

namespace Lexeme

theorem kind_ne_newline_of_mem_tokensFrom {line column : Nat} {xs : List Lexeme} {t : Token}
    (h : t ∈ tokensFrom line column xs) : t.kind ≠ .newline := by
  induction xs generalizing column with
  | nil => cases h
  | cons x xs ih =>
    rcases List.mem_cons.1 h with rfl | h
    · exact x.category.tokenKind_ne_newline
    · exact ih h

end Lexeme

namespace LineState

/-- The lines from a given number on, with their tokens. -/
def rows (s : LineState) (line : Nat) : List (List Char) → List Row
  | [] => []
  | text :: rest =>
    ⟨line, text, Lexeme.tokensFrom line 0 (s.scan text).1⟩ :: (s.scan text).2.rows (line + 1) rest

theorem mapIdx_rows (s : LineState) (line : Nat) (lines : List (List Char)) :
    (lines.mapIdx fun i text =>
      (⟨line + i, text, (Layout.lineTokens (s.tokensOfLines line lines)).getD i []⟩ : Row)) =
      s.rows line lines := by
  induction lines generalizing s line with
  | nil => rfl
  | cons text rest ih =>
    have htokens : Layout.lineTokens (s.tokensOfLines line (text :: rest)) =
        Lexeme.tokensFrom line 0 (s.scan text).1 ::
          Layout.lineTokens ((s.scan text).2.tokensOfLines (line + 1) rest) := by
      rw [tokensOfLines, tokens, List.append_assoc]
      exact Layout.lineTokens_append (fun t => Lexeme.kind_ne_newline_of_mem_tokensFrom) rfl _
    rw [List.mapIdx_cons, htokens, rows, ← ih]
    simp [Nat.add_assoc, Nat.add_comm 1]

/-- The lines that the layout looks at. -/
theorem rows_eq (s : LineState) (lines : List (List Char)) :
    Layout.rows lines (s.tokensOfLines 0 lines) = s.rows 0 lines := by
  rw [← mapIdx_rows]
  simp [Layout.rows]

end LineState

/-! ### Strings at the edges of a line -/

namespace Scanner

variable {s next : Scanner} {t : Token}

theorem Moves.of_next_string (h : s.Moves t next) (hnext : next.mode = .string) :
    t.kind = .quote .opening ∨ Chunk.Builder.keepsString t = true := by
  cases h with
  | ignored _ _ hmode => exact absurd hnext hmode
  | newline ht => exact .inr (by simp [Chunk.Builder.keepsString, ht])
  | openQuote _ ht => exact .inl ht
  | text _ ht => exact .inr ht
  | _ => cases hnext

/-- What stands in a string is one of its tokens or invalid. -/
theorem inString_of_keepsString (h : Chunk.Builder.keepsString t = true) (hne : t.kind ≠ .newline)
    (side : Side) : inString side t = true ∨ isInvalid t = true := by
  unfold Chunk.Builder.keepsString at h
  unfold inString isInvalid
  cases hk : t.kind <;> simp_all

/-- The token of a step, as the scanner moves. -/
theorem moves_step (s : Scanner) (c : Char) (cs : List Char) (line column : Nat) :
    ∃ t, t = Lexeme.token line column
        ⟨c :: cs.take (s.step c cs).extra, (s.step c cs).category, (s.step c cs).blocks⟩ ∧
      s.Moves t (s.step c cs).next ∧ t.kind ≠ .newline := by
  exact ⟨_, rfl, (s.finds_step c cs).leads _ rfl rfl, Category.tokenKind_ne_newline _⟩

/-- The first token of what is scanned in a string. -/
theorem exists_head_scan {s : Scanner} (hmode : s.mode = .string) {cs : List Char} (hne : cs ≠ [])
    (line column : Nat) :
    ∃ t, (Lexeme.tokensFrom line column (s.scan cs).1).head? = some t ∧
      (inString .closing t = true ∨ isInvalid t = true) := by
  obtain ⟨c, cs, rfl⟩ := List.exists_cons_of_ne_nil hne
  obtain ⟨t, ht, hmoves, hnewline⟩ := s.moves_step c cs line column
  rw [scan]
  refine ⟨t, congrArg some ht.symm, ?_⟩
  rcases hmoves.of_string hmode with hkeeps | hquote
  · exact inString_of_keepsString hkeeps hnewline .closing
  · exact .inl (by simp [inString, hquote])

/-- The last token of what is scanned up to a place in a string. -/
theorem exists_last_scan {s : Scanner} {cs : List Char} (hmode : (s.scan cs).2.mode = .string)
    (hne : cs ≠ []) (line column : Nat) :
    ∃ t, (Lexeme.tokensFrom line column (s.scan cs).1).getLast? = some t ∧
      (inString .opening t = true ∨ isInvalid t = true) := by
  fun_induction scan s cs generalizing column with
  | case1 => exact absurd rfl hne
  | case2 s c cs step more last h ih =>
    rw [h] at ih
    cases hrest : cs.drop step.extra with
    | cons d ds =>
      -- the last token is that of the rest
      obtain ⟨t, ht, hstring⟩ := ih hmode (by simp [hrest])
        (column + Text.units16 (c :: cs.take step.extra))
      refine ⟨t, ?_, hstring⟩
      rw [Lexeme.tokensFrom_cons, List.getLast?_cons, ht]
      rfl
    | nil =>
      rw [hrest, scan] at h
      obtain ⟨rfl, rfl⟩ := Prod.mk.inj h
      obtain ⟨t, ht, hmoves, hnewline⟩ := s.moves_step c cs line column
      refine ⟨t, congrArg some ht.symm, ?_⟩
      rcases hmoves.of_next_string hmode with hquote | hkeeps
      · exact .inl (by simp [inString, hquote])
      · exact inString_of_keepsString hkeeps hnewline .opening

end Scanner

end TypedNotation
