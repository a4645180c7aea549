import Mathlib.Order.Monotone.Basic
import TypedNotation.Proofs.Nesting
import TypedNotation.Proofs.Renumbering
import TypedNotation.Proofs.Severities

/-!
# Blanks and comments carry no structure

Leave all blanks and comments out of the tokens of a document. What is left is built into the same
chunks and read as the same data, with the same findings in the same order; only the numbers by
which chunks and data know their tokens are others (`Document.ignored_tokens_carry_no_structure`).

`Token.keptIndex` gives the number that a token has among all tokens, from its number among those
that are left. Two builders read side by side, one with the ignored tokens and one without: as long
as no ignored token stands inside a string, the first is always the second under those numbers
(`Walk.moved_run`). That the scanner finds no ignored token inside a string, and that a document
ends in a newline and not in a blank, is what the grammar has to give.
-/

namespace TypedNotation

open List Chunk Token

/-! ### What is left of the tokens -/

namespace Token

/-- The tokens that are neither blanks nor comments. -/
def kept (ts : List Token) : List Token :=
  ts.filter fun t => !t.isIgnored

/-- The number among all tokens of the token that has a number among those kept. -/
def keptIndex : List Token → Nat → Nat
  | [], j => j
  | t :: ts, j =>
    if t.isIgnored then keptIndex ts j + 1
    else
      match j with
      | 0 => 0
      | j + 1 => keptIndex ts j + 1

@[simp] theorem kept_nil : kept [] = [] := rfl

theorem kept_cons_of_isIgnored {t : Token} (h : t.isIgnored = true) (ts : List Token) :
    kept (t :: ts) = kept ts :=
  filter_cons_of_neg (by simp [h])

theorem kept_cons_of_not_isIgnored {t : Token} (h : t.isIgnored = false) (ts : List Token) :
    kept (t :: ts) = t :: kept ts :=
  filter_cons_of_pos (by simp [h])

@[simp] theorem kept_append (ts us : List Token) : kept (ts ++ us) = kept ts ++ kept us :=
  filter_append ..

/-- Both numbers are of the same token. -/
theorem getElem?_keptIndex (ts : List Token) (j : Nat) : ts[keptIndex ts j]? = (kept ts)[j]? := by
  induction ts generalizing j with
  | nil => rfl
  | cons t ts ih =>
    cases h : t.isIgnored with
    | true => simp [keptIndex, h, kept_cons_of_isIgnored h, ih]
    | false => cases j <;> simp [keptIndex, h, kept_cons_of_not_isIgnored h, ih]

theorem keptIndex_strictMono (ts : List Token) : StrictMono (keptIndex ts) := by
  induction ts with
  | nil => exact strictMono_id
  | cons t ts ih =>
    intro i j hij
    cases h : t.isIgnored with
    | true => simpa [keptIndex, h] using ih hij
    | false =>
      obtain _ | j := j
      · exact absurd hij (Nat.not_lt_zero i)
      · cases i with
        | zero => simp [keptIndex, h]
        | succ i => simpa [keptIndex, h] using ih (Nat.lt_of_succ_lt_succ hij)

/-- A token that is kept has as many kept tokens before it as its number says. -/
theorem keptIndex_append {t : Token} (h : t.isIgnored = false) (front back : List Token) :
    keptIndex (front ++ t :: back) (kept front).length = front.length := by
  induction front with
  | nil => simp [keptIndex, kept, h]
  | cons u front ih =>
    cases hu : u.isIgnored with
    | true => simp [keptIndex, hu, kept_cons_of_isIgnored hu, ih]
    | false => simp [keptIndex, hu, kept_cons_of_not_isIgnored hu, ih]

end Token

/-! ### Two builders side by side -/

namespace Chunk.Builder

variable {b : Builder} {t : Token} {f : Nat → Nat} {i : Nat} {l : Option Token}

/-- A token that both read. -/
theorem moved_step (hi : f b.index = i) :
    (b.moved f i l).step t = (b.step t).moved f (i + 1) (some t) := by
  rw [step, moved_readNext f l t hi]
  rfl

/-- A token that only one reads, and that does not stand in a string. -/
theorem moved_step_ignored (ht : t.isIgnored = true) (hstring : ¬b.InString) :
    (b.moved f i l).step t = b.moved f (i + 1) (some t) := by
  have hkind : t.kind = .ignored := by simpa [isIgnored] using ht
  have hread : (b.moved f i l).readNext t = b.moved f i l := by
    cases hpending : b.pending with
    | string s => exact absurd ⟨s, hpending⟩ hstring
    | _ => simp [readNext, moved, hpending, Pending.renumber, read, hkind, keepsTag]
  rw [step, hread]
  rfl

theorem inString_moved : (b.moved f i l).InString ↔ b.InString := by
  cases hpending : b.pending <;> simp [InString, moved, hpending, Pending.renumber]

end Chunk.Builder

/-- Behind any number of tokens that a scanner has found, a builder that has read them all is the
builder that has read those that are kept, under other numbers. -/
theorem Walk.moved_run {s last : Scanner} {vs : List Visit} (h : Walk s vs last)
    {ts front : List Token} (hts : ts = front ++ vs.map (·.token)) {b : Builder}
    {l : Option Token} (hindex : b.index = (kept front).length)
    (hb : InStep s (b.moved (keptIndex ts) front.length l)) :
    ∃ l', (b.moved (keptIndex ts) front.length l).run (vs.map (·.token)) =
      (b.run (kept (vs.map (·.token)))).moved (keptIndex ts) ts.length l' := by
  induction h generalizing front b l with
  | nil => exact ⟨l, by simp [hts]⟩
  | @cons s next last t vs hmoves hwalk ih =>
    have hnext := hb.step hmoves
    have hfront : ts = (front ++ [t]) ++ vs.map (·.token) := by simpa using hts
    have hlength : front.length + 1 = (front ++ [t]).length := by simp
    rw [map_cons, Builder.run_cons]
    cases hignored : t.isIgnored with
    | true =>
      have hstring : ¬b.InString := by
        rw [← Builder.inString_moved, hb.string]
        intro hmode
        -- inside of a string the scanner finds neither blanks nor comments
        have hkind : t.kind = .ignored := by simpa [isIgnored] using hignored
        rcases hmoves.of_string hmode with hkeeps | hquote
        · simp [Builder.keepsString, hkind] at hkeeps
        · simp [hkind] at hquote
      rw [Builder.moved_step_ignored hignored hstring, hlength] at hnext ⊢
      rw [kept_cons_of_isIgnored hignored]
      exact ih hfront (by simp [hindex, kept_cons_of_isIgnored hignored]) hnext
    | false =>
      have hnumber : keptIndex ts b.index = front.length := by
        rw [hindex, hts]
        exact keptIndex_append hignored front _
      rw [Builder.moved_step hnumber, hlength] at hnext ⊢
      rw [kept_cons_of_not_isIgnored hignored, Builder.run_cons]
      exact ih hfront
        (by simp [Builder.step, hindex, kept_cons_of_not_isIgnored hignored]) hnext

namespace Document

/-- A document ends in a newline. -/
theorem exists_tokensOf_eq_concat (text : String) :
    ∃ front line width, tokensOf text = front ++ [newline line width] := by
  have hlines : linesOf text ≠ [] := by
    have := Text.length_lines text.toList
    rintro hnil
    rw [linesOf] at hnil
    simp [hnil] at this
  obtain ⟨front, row, hrow⟩ := eq_nil_or_concat (linesOf text) |>.resolve_left hlines
  rw [tokensOf_eq, hrow, concat_eq_append, LineState.tokensOfLines_append,
    LineState.tokensOfLines, LineState.tokens, LineState.tokensOfLines, append_nil,
    ← append_assoc]
  exact ⟨_, _, _, rfl⟩

/-- The chunks of a document are those of the tokens that are kept, under other numbers. -/
theorem ofTokens_tokensOf (text : String) :
    ofTokens (tokensOf text) =
      ((ofTokens (kept (tokensOf text))).1.map (renumber (keptIndex (tokensOf text))),
        (ofTokens (kept (tokensOf text))).2) := by
  obtain ⟨front, line, width, hts⟩ := exists_tokensOf_eq_concat text
  -- the last token is a newline, which is kept, so both builders end at it
  have hkept : kept (tokensOf text) = kept front ++ [newline line width] := by
    rw [hts, kept_append]
    rfl
  have hlast : (Builder.run {} (tokensOf text)).last =
      (Builder.run {} (kept (tokensOf text))).last := by
    rw [hkept, Builder.last_run_concat, hts, Builder.last_run_concat]
  have hnumber : keptIndex (tokensOf text)
      ((Builder.run {} (kept (tokensOf text))).index - 1) = (tokensOf text).length - 1 := by
    have hindex : (Builder.run {} (kept (tokensOf text))).index - 1 =
        (kept front).length := by
      rw [Builder.index_run, hkept, length_append]
      exact Nat.zero_add _
    rw [hindex, hts, keptIndex_append rfl, length_append]
    rfl
  have hvisits : tokensOf text = [] ++ (visits text).map (·.token) := by
    rw [map_token_visits, nil_append]
  obtain ⟨l, hrun⟩ := (walk_visits text).moved_run hvisits (b := {}) (l := none) rfl .start
  rw [map_token_visits] at hrun
  have hsame : Builder.run {} (tokensOf text) =
      (Builder.run {} (kept (tokensOf text))).moved (keptIndex (tokensOf text))
        (tokensOf text).length (Builder.run {} (kept (tokensOf text))).last := by
    have hl : (Builder.run {} (tokensOf text)).last = l := congrArg Builder.last hrun
    rw [← hlast, hl]
    exact hrun
  have hfinish := Builder.moved_finish _ hnumber
  rw [← hsame] at hfinish
  exact congrArg (fun b : Builder => (b.top, Report.mk b.diagnostics)) hfinish

/-- **Blanks and comments carry no structure.** Leave them out of the tokens of a document: the
chunks that are built, the data that they are read as and all findings in their order are those of
the document. Only the numbers by which chunks and data know their tokens change, each into the
number of the same token among those that are left. -/
theorem ignored_tokens_carry_no_structure (text : String) :
    let left := kept (parse text).tokens
    let number := keptIndex (parse text).tokens
    let chunked := ofTokens left
    let read := Data.ofChunks chunked.1 chunked.2
    (StrictMono number ∧ ∀ j, (parse text).tokens[number j]? = left[j]?) ∧
      ofTokens (parse text).tokens = (chunked.1.map (renumber number), chunked.2) ∧
      (parse text).chunks = chunked.1.map (renumber number) ∧
      (parse text).data = read.1.map (Data.renumber number) ∧
      (parse text).report = read.2 := by
  have hchunks : (parse text).chunks = (ofTokens (tokensOf text)).1 := by rw [parse]
  have hread := data_report_parse text
  rw [ofTokens_tokensOf, Data.ofChunks_renumber] at hread
  obtain ⟨hdata, hreport⟩ := Prod.mk.inj hread
  rw [hchunks, tokens_parse]
  exact ⟨⟨keptIndex_strictMono _, getElem?_keptIndex _⟩, ofTokens_tokensOf text,
    congrArg Prod.fst (ofTokens_tokensOf text), hdata, hreport⟩

end Document

end TypedNotation
