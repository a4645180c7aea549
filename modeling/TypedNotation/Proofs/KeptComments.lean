import TypedNotation.Proofs.LayoutFixes

/-!
# Comments are kept

Fixing a document without errors moves comments about, but leaves all that can be seen of them as it
is (`Analysis.fixing_keeps_comments`). Comments are stops of cells (`Cell.Shows.comments_eq`), and a
plan drops no stops but commas (`Cell.Plan.comments_rebuild`).

With errors in the document that is not so: where a comma is missing, it is written in place of all
that stands between the two items, comments as well (`Analysis.missing_comma_drops_comment`).
-/

namespace TypedNotation

open List Token
open Document

/-- What can be seen of the comments among some tokens, one by one. -/
def Token.comments (ts : List Token) : List (List Char) :=
  (ts.filter fun t => t.isIgnored && !t.isBlank).map fun t => Text.seen t.text.toList

/-- What can be seen of a stop that is a comment. -/
def Stop.comment (stop : Stop) : List (List Char) :=
  if stop.mark.kind = .ignored then [Text.seen stop.text] else []

namespace Cell

/-- What can be seen of the comments among some cells, one by one. -/
def comments (cells : List Cell) : List (List Char) :=
  cells.flatMap (·.stop.comment)

@[simp] theorem comments_nil : comments [] = [] := rfl

@[simp] theorem comments_cons (c : Cell) (cells : List Cell) :
    comments (c :: cells) = c.stop.comment ++ comments cells :=
  flatMap_cons

theorem comment_line (ret : Bool) : (Stop.line ret).comment = [] := rfl

theorem comment_lineEnd (gap : List Char) (ret : Bool) : (lineEnd gap ret).stop.comment = [] := by
  simp [Stop.comment, mark_lineEnd]

/-- The comments among some cells are those among their tokens. -/
theorem Shows.comments_eq {line column : Nat} {cells : List Cell} {ts : List Token}
    (h : Shows line column cells ts) :
    (ts.filter isIgnored).map (fun t => Text.seen t.text.toList) = comments cells := by
  induction h with
  | nil => rfl
  | @line line column gap ret rest t ts ht hrest ih =>
    have hkind : t.kind = .newline := congrArg Mark.kind ht
    rw [filter_cons_of_neg (by simp [isIgnored, hkind]), ih, comments_cons, comment_line,
      nil_append]
  | @core line column gap x y rest t ts ht hrest ih =>
    rw [comments_cons, Stop.comment]
    split
    next hx =>
      have hignored : t.isIgnored = true := by simpa [isIgnored, ht.kind, Stop.mark] using hx
      rw [filter_cons_of_pos hignored, map_cons, ih, ht.seen]
      rfl
    next hx =>
      have hignored : ¬t.isIgnored = true := by simpa [isIgnored, ht.kind, Stop.mark] using hx
      rw [filter_cons_of_neg hignored, ih, nil_append]

/-- A plan leaves the comments as they are. -/
theorem Plan.comments_rebuild {plan : Plan} (hdrop : plan.DropsCommas) (carry : List Char) :
    comments (plan.rebuild carry) = comments plan.cells := by
  induction plan generalizing carry with
  | nil => rfl
  | cons entry rest ih =>
    obtain ⟨⟨gap, stop⟩, change⟩ := entry
    have hcells : cells ((⟨gap, stop⟩, change) :: rest) = ⟨gap, stop⟩ :: cells rest := rfl
    rw [hcells, comments_cons]
    cases stop with
    | line ret => rw [rebuild, comments_cons, comment_lineEnd, ih hdrop.tail, comment_line]
    | core x =>
      have hparts : comments (change.fill.parts carry gap).1 = [] := by
        cases change.fill with
        | keep => rfl
        | blanks => rfl
        | wrap indent => simp [Fill.parts, comment_lineEnd]
      rw [rebuild, comments, flatMap_append, ← comments, hparts, nil_append, ← comments]
      split
      next hdropped =>
        obtain ⟨blocks, hcomma⟩ : ∃ blocks, Stop.core x = .core ⟨[','], .comma, blocks⟩ :=
          hdrop _ _ mem_cons_self hdropped
        rw [ih hdrop.tail, hcomma]
        rfl
      next => rw [comments_cons, ih hdrop.tail]

end Cell

/-- The comments of a text are those of its cells. -/
theorem Document.Cut.comments_eq {text : String} {cells : List Cell} (h : Cut text cells) :
    comments (parse text).tokens = Cell.comments cells := by
  rw [tokens_parse, ← h.shows.comments_eq, filter_filter, comments]

namespace Analysis

/-- **Fixing keeps the comments.** In a text that has data and no errors, all fixes that can be made
together leave everything that can be seen of the comments as it is, comment by comment: nothing of
them is deleted, and none is made. It does not matter what the document is checked against, or how
many findings a cap lets through. -/
theorem fixing_keeps_comments (name : String) (index : TypeIndex) (settings : Settings)
    {text : String} (hdata : (parse text).data.isSome = true)
    (herrors : ∀ d ∈ (parse text).report.diagnostics, d.isError = false) :
    comments (parse (Edit.applyAll text (run name text index settings).fixAll)).tokens =
      comments (parse text).tokens := by
  obtain ⟨cells, hcut⟩ := exists_cut (accepts_of_data hdata herrors)
  obtain ⟨horder, hallows⟩ := fixAll_spec hcut name index settings
  obtain ⟨plan, rfl, hfollows, -, hfixed⟩ := hcut.exists_plan hallows horder
  rw [hfixed.comments_eq, hcut.comments_eq, Cell.Plan.comments_rebuild hfollows.dropsCommas]

/-- A block comment and a line comment, among items, commas and blanks that do not fit. -/
theorem fixing_keeps_comments_of_two :
    let text := "[1 /*a b*/ ,2 // c \n ,]"
    (run "a.txt" text {} {}).diagnostics.length = 8 ∧
      comments (parse (Edit.applyAll text (run "a.txt" text {} {}).fixAll)).tokens =
        ["/*ab*/".toList, "//c".toList] := by
  intro text
  -- evaluated together, since they all read the same document
  have hrun : (run "a.txt" text {} {}).diagnostics.length = 8 ∧ (parse text).data.isSome = true ∧
      (∀ d ∈ (parse text).report.diagnostics, d.isError = false) ∧
      comments (parse text).tokens = ["/*ab*/".toList, "//c".toList] := by decide +kernel
  obtain ⟨hlength, hdata, herrors, hcomments⟩ := hrun
  exact ⟨hlength, (fixing_keeps_comments "a.txt" {} {} hdata herrors).trans hcomments⟩

/-- The comma that is missing between the numbers takes the place of the comment between them. -/
theorem missing_comma_drops_comment :
    let text := "[1 /*c*/ 2]"
    (parse text).data.isSome = true ∧ comments (parse text).tokens = ["/*c*/".toList] ∧
      comments (parse (Edit.applyAll text (run "a.txt" text {} {}).fixAll)).tokens = [] := by
  intro text
  have hfixes : Report.fixes ⟨(run "a.txt" text {} {}).diagnostics⟩ = [⟨.onLine 0 2 9, ", "⟩] := by
    decide +kernel
  have hall : (run "a.txt" text {} {}).fixAll = [⟨.onLine 0 2 9, ", "⟩] := by
    rw [fixAll, Report.fixAll, hfixes, Edit.compatible,
      Edit.inOrder_eq_self (pairwise_singleton ..)]
    rfl
  have hfixed : Edit.applyAll text [⟨.onLine 0 2 9, ", "⟩] = "[1, 2]" := by
    rw [Edit.applyAll, Edit.inOrder_eq_self (pairwise_singleton ..)]
    decide +kernel
  rw [hall, hfixed]
  decide +kernel

end Analysis

end TypedNotation
