import TypedNotation.Proofs.FixPlaces
import TypedNotation.Proofs.TokenCover

/-!
# Layout and strings

The layout rules know of strings only by the tokens at the two ends of a line, and by the tokens
next to a separator or a bracket. This file says when one of their edits reaches into a string of
the data.

Between the quotes of a string there are no separators and no brackets (`Quoted.outside`), so an
edit from one token to the next, of which one is a separator or a bracket, has both quotes on one
side (`Quoted.not_enters`). A line is found among the tokens by the newline behind it
(`Layout.Row.Among`). If the newline is between the quotes, the token in front of it is the opening
quote, a part of the string or an invalid one, and only the invalid one does not tell that the line
ends in a string (`Quoted.enters_trailingBlanks_iff`); the start of a line is like its end
(`Quoted.enters_indentation_iff`).
-/

namespace TypedNotation

open List Position Text Layout Lexeme
open Chunk.Builder (keepsString)

/-- Two neighbours among the elements that are kept, and what stands between them. -/
theorem exists_getElem?_of_filter {ts front back : List Token} {p : Token → Bool} {a b : Token}
    (h : ts.filter p = front ++ a :: b :: back) :
    ∃ i j : Nat, ts[i]? = some a ∧ ts[j]? = some b ∧ i < j ∧
      ∀ k t, i < k → k < j → ts[k]? = some t → p t = false := by
  obtain ⟨before, rest, rfl, -, hrest⟩ := filter_eq_append_iff.1 h
  obtain ⟨skipped, rest, rfl, -, -, hrest⟩ := filter_eq_cons_iff.1 hrest
  obtain ⟨mid, after, rfl, hmid, -, -⟩ := filter_eq_cons_iff.1 hrest
  rw [← append_assoc]
  generalize before ++ skipped = pre
  refine ⟨pre.length, pre.length + (mid.length + 1), by simp, ?_, by omega, ?_⟩
  · rw [getElem?_append_right (by omega), Nat.add_sub_cancel_left]
    simp
  · intro k t hi hj ht
    obtain ⟨m, rfl⟩ := Nat.exists_eq_add_of_lt hi
    rw [getElem?_append_right (by omega), Nat.add_assoc, Nat.add_sub_cancel_left,
      getElem?_cons_succ, getElem?_append_left (by omega)] at ht
    simpa using hmid t (mem_of_getElem? ht)

/-- An edit changes something between the ends of a range, or inserts something there. -/
def Edit.Enters (e : Edit) (r : Range) : Prop :=
  r.start < e.range.stop ∧ e.range.start < r.stop

instance (e : Edit) (r : Range) : Decidable (e.Enters r) := inferInstanceAs (Decidable (_ ∧ _))

/-! ### Quoted tokens -/

theorem Data.Sits.quoted {ts : List Token} {s : String} {r : Range} {n : TokenRange}
    (h : Data.Sits ts (.primitive (.string s) r n)) : Quoted ts r n := by
  generalize hd : Data.primitive (.string s) r n = d at h
  cases h with
  | @literal i t l ht hkind =>
    have hread : (l.read t).1 = .string s := (Data.primitive.inj hd).1.symm
    unfold Literal.read at hread
    cases l <;> dsimp only at hread
    · split at hread <;> cases hread
    · split at hread <;> cases hread
    · cases hread
  | string hquoted =>
    obtain ⟨-, rfl, rfl⟩ := Data.primitive.inj hd
    exact hquoted
  | _ => cases hd

namespace Quoted

variable {ts : List Token} {r : Range} {n : TokenRange} {i j : Nat} {a b t : Token}
  {indent : Position → Nat} {d : Diagnostic} {e : Edit}

theorem exists_opening (h : Quoted ts r n) :
    ∃ t, ts[n.start]? = some t ∧ t.kind = .quote .opening ∧ r.start = t.range.start := by
  obtain ⟨t, ht, hstart⟩ := h.start
  exact ⟨t, ht, by simpa [ht] using h.opening, hstart⟩

theorem exists_closing (h : Quoted ts r n) :
    ∃ t, ts[n.stop - 1]? = some t ∧ t.kind = .quote .closing ∧ r.stop = t.range.stop := by
  obtain ⟨t, ht, hstop⟩ := h.stop
  exact ⟨t, ht, by simpa [ht] using h.closing, hstop⟩

/-- What stands between the quotes, and the quotes themselves. -/
theorem part (h : Quoted ts r n) (hlo : n.start ≤ i) (hhi : i ≤ n.stop - 1) (ht : ts[i]? = some t) :
    (∃ side, t.kind = .quote side) ∨ keepsString t = true := by
  rcases Nat.eq_or_lt_of_le hlo with rfl | hlo
  · exact .inl ⟨.opening, by simpa [ht] using h.opening⟩
  · rcases Nat.eq_or_lt_of_le hhi with rfl | hhi
    · exact .inl ⟨.closing, by simpa [ht] using h.closing⟩
    · exact .inr (h.inside i t hlo hhi ht)

/-- A separator or a bracket is in front of the quotes or behind them. -/
theorem outside (h : Quoted ts r n) (ht : ts[i]? = some t)
    (hkind : isSeparator t = true ∨ Chunk.isBracket t = true) :
    i < n.start ∨ n.stop - 1 < i := by
  by_contra hnot
  simp only [not_or, Nat.not_lt] at hnot
  rcases h.part hnot.1 hnot.2 ht with ⟨side, hquote⟩ | hkeeps
  · simp [isSeparator, Chunk.isBracket, hquote] at hkind
  · unfold keepsString at hkeeps
    split at hkeeps <;> simp_all [isSeparator, Chunk.isBracket]

/-- Behind the quotes, or in front of them, nothing of the string is changed. -/
theorem not_enters (h : Quoted ts r n) (hts : Token.InOrder ts) (ha : ts[i]? = some a)
    (hb : ts[j]? = some b) (hout : n.stop - 1 ≤ i ∨ j ≤ n.start) (text : String) :
    ¬Edit.Enters ⟨⟨a.range.stop, b.range.start⟩, text⟩ r := by
  rintro ⟨hstart, hstop⟩
  rcases hout with hi | hj
  · obtain ⟨t, ht, -, heq⟩ := h.exists_closing
    rw [heq] at hstop
    exact not_lt.2 (hts.stop_le_stop ht ha hi) hstop
  · obtain ⟨t, ht, -, heq⟩ := h.exists_opening
    rw [heq] at hstart
    exact not_lt.2 (hts.start_le_start hb ht hj) hstart

/-- The quotes can be seen. -/
theorem isItem_of_quote {side : Side} (ht : t.kind = .quote side) : isItem t = true := by
  simp [isItem, isVisible, isInvalid, Token.isBlank, Token.isIgnored, ht]

/-- A token that is hidden between two others is none of the quotes. -/
theorem between (h : Quoted ts r n) {p : Token → Bool}
    (hp : ∀ t side, t.kind = .quote side → p t = true)
    (hij : ∀ k t, i < k → k < j → ts[k]? = some t → p t = false) :
    (n.start ≤ i ∨ j ≤ n.start) ∧ (n.stop - 1 ≤ i ∨ j ≤ n.stop - 1) := by
  obtain ⟨o, ho, hopening, -⟩ := h.exists_opening
  obtain ⟨c, hc, hclosing, -⟩ := h.exists_closing
  constructor
  · by_contra hnot
    simp only [not_or, Nat.not_le] at hnot
    cases (hp o _ hopening).symm.trans (hij _ o hnot.1 hnot.2 ho)
  · by_contra hnot
    simp only [not_or, Nat.not_le] at hnot
    cases (hp c _ hclosing).symm.trans (hij _ c hnot.1 hnot.2 hc)

/-- What is found around separators does not enter a string. -/
theorem not_enters_of_mem_padding (h : Quoted ts r n) (hts : Token.InOrder ts)
    {lines : List (List Char)} (hd : d ∈ padding lines (ts.filter isVisible))
    (he : d.fix = some e) : ¬e.Enters r := by
  obtain ⟨front, a, b, c, back, hfilter, hb, hd⟩ := exists_of_mem_padding hd
  have hout {x y : Token} {front back : List Token}
      (hxy : ts.filter isVisible = front ++ x :: y :: back)
      (hsep : isSeparator x = true ∨ isSeparator y = true) (text : String) :
      ¬Edit.Enters ⟨⟨x.range.stop, y.range.start⟩, text⟩ r := by
    obtain ⟨i, j, hx, hy, hij, hbetween⟩ := exists_getElem?_of_filter hxy
    have hquotes := h.between (fun t side ht => (Bool.and_eq_true_iff.1 (isItem_of_quote ht)).1)
      hbetween
    refine h.not_enters hts hx hy ?_ text
    rcases hsep with hsep | hsep
    · have := h.outside hx (.inl hsep)
      omega
    · have := h.outside hy (.inl hsep)
      omega
  rcases cases_of_mem_gapsAround hd with ⟨-, -, rfl⟩ | ⟨-, -, rfl⟩
  · obtain rfl := Option.some.inj he
    exact hout hfilter (.inr hb) _
  · obtain rfl := Option.some.inj he
    exact hout (hfilter.trans (append_cons ..)) (.inl hb) _

/-- What is found at the brackets of a block does not enter a string. -/
theorem not_enters_of_mem_lineBreaks (h : Quoted ts r n) (hts : Token.InOrder ts)
    {block : Block Data} (hblock : Enclosed ts block.contents.kind block.range block.tokens)
    (hd : d ∈ lineBreaks indent ts.toArray block) (he : d.fix = some e) : ¬e.Enters r := by
  have hlacks := lacks_of_mem_lineBreaks hblock hd
  generalize hus : ts.filter isItem = us at hlacks
  cases hlacks with
  | closing hpair hkind _ _ =>
    obtain rfl := Option.some.inj he
    obtain ⟨i, j, hi, hj, hij, hbetween⟩ := exists_getElem?_of_filter (hus.trans hpair)
    have hquotes := h.between (fun t side => isItem_of_quote) hbetween
    have hout := h.outside hj (.inr (by simp [Chunk.isBracket, hkind]))
    exact h.not_enters hts hi hj (by omega) _
  | @opening front comments back opening anchor first hitems hkind hcomments hanchor hfirst _ =>
    obtain rfl := Option.some.inj he
    have hbracket : opening.isIgnored = false := by simp [Token.isIgnored, hkind]
    have hnone : comments.filter (fun t => !t.isIgnored) = [] :=
      filter_eq_nil_iff.2 fun t ht => by simp [hcomments t ht]
    -- without comments the first item is the neighbour of the bracket
    have hpair : ts.filter (fun t => !t.isIgnored && isItem t) =
        front.filter (fun t => !t.isIgnored) ++ opening :: first :: back.filter
          (fun t => !t.isIgnored) := by
      rw [← filter_filter, hus, hitems]
      simp [hfirst, hnone, hbracket]
    obtain ⟨i, j, hi, hj, hij, hbetween⟩ := exists_getElem?_of_filter hpair
    have hquotes := h.between (fun t side ht => by
      rw [isItem_of_quote ht]
      simp [Token.isIgnored, ht]) hbetween
    have hout := h.outside hi (.inr (by simp [Chunk.isBracket, hkind]))
    have hclear := h.not_enters hts hi hj (by omega)
      ("\n" ++ spaces (indent first.range.start))
    have hle : opening.range.stop ≤ anchor.range.stop := by
      obtain ⟨start, stop, hrun⟩ := hts
      have hordered := (hus.trans hitems) ▸ hrun.ordered.sublist filter_sublist
      rcases mem_cons.1 (mem_of_getLast? hanchor) with rfl | hu
      · exact le_refl _
      · have hnext := (pairwise_cons.1 (pairwise_append.1 hordered).2.1).1 anchor (by simp [hu])
        have hmem : anchor ∈ ts.filter isItem := by simp [hus, hitems, hu]
        exact le_trans hnext (hrun.within anchor (mem_of_mem_filter hmem)).2.1
    exact fun henters => hclear ⟨henters.1, lt_of_le_of_lt hle henters.2⟩

end Quoted

/-! ### Lines among the tokens -/

namespace Text

/-- A character that is not blank and all in front of it are kept. -/
theorem trimEnd_append_cons {c : Char} (hc : isBlank c = false) (pre post : List Char) :
    trimEnd (pre ++ c :: post) = pre ++ c :: trimEnd post := by
  have hdrop : (post.reverse ++ c :: pre.reverse).dropWhile isBlank =
      post.reverse.dropWhile isBlank ++ c :: pre.reverse := by
    rw [dropWhile_append]
    split
    · simp_all
    · rfl
  simp [trimEnd, hdrop]

/-- A character that is not blank is behind the indent. -/
theorem units16_indent_le {c : Char} (hc : isBlank c = false) (pre post : List Char) :
    units16 (indent (pre ++ c :: post)) ≤ units16 pre := by
  induction pre with
  | nil => simp [indent, hc]
  | cons d pre ih =>
    rw [indent, cons_append, takeWhile_cons]
    split
    · exact Nat.add_le_add_left ih _
    · exact Nat.zero_le _

end Text

theorem Scanner.Takes.text_of_quote {s next : Scanner} {x : Lexeme} (h : s.Takes x next)
    {side : Side} (hx : x.category = .quote side) : x.text = ['"'] := by
  cases h with
  | openingQuote => rfl
  | closingQuote => rfl
  | number | negative => split at hx <;> cases hx
  | _ => cases hx

/-- Quotes are spelled by their character. -/
theorem Scanner.text_of_quote {s : Scanner} {cs : List Char} {x : Lexeme} (h : x ∈ (s.scan cs).1)
    {side : Side} (hx : x.category = .quote side) : x.text = ['"'] := by
  fun_induction scan s cs with
  | case1 => cases h
  | case2 s c cs t more last hr ih =>
    rw [hr] at ih
    rcases mem_cons.1 h with rfl | h
    · have hcategory : (s.step c cs).category = .quote side := hx
      have hsound := (s.finds_step c cs).sound (by simp [hcategory]) (by simp [hcategory])
        (by simp [hcategory])
      exact hsound.takes.text_of_quote hcategory
    · exact ih h

namespace Lexeme

/-- A token is that of a lexeme, at the column behind the lexemes in front of it. -/
theorem exists_of_mem_tokensFrom {line column : Nat} {xs : List Lexeme} {t : Token}
    (h : t ∈ tokensFrom line column xs) :
    ∃ before x after, xs = before ++ x :: after ∧
      t = x.token line (column + units16 (chars before)) := by
  induction xs generalizing column with
  | nil => cases h
  | cons x xs ih =>
    rcases mem_cons.1 h with rfl | h
    · exact ⟨[], x, xs, rfl, rfl⟩
    · obtain ⟨before, y, after, rfl, rfl⟩ := ih h
      refine ⟨x :: before, y, after, rfl, ?_⟩
      simp [chars, Nat.add_assoc]

end Lexeme

namespace Token.Tiles

variable {start stop : Position} {ts : List Token} {t : Token}

theorem stop_le (h : Tiles stop start ts) (ht : t ∈ ts) : t.range.stop ≤ stop := by
  induction ts generalizing start with
  | nil => cases ht
  | cons u ts ih =>
    rcases mem_cons.1 ht with rfl | ht
    · exact h.2.2.le
    · exact ih h.2.2 ht

theorem start_of_head? (h : Tiles stop start ts) (ht : ts.head? = some t) :
    t.range.start = start := by
  cases ts with
  | nil => cases ht
  | cons u ts =>
    obtain rfl := Option.some.inj ht
    exact h.1

theorem stop_of_getLast? (h : Tiles stop start ts) (ht : ts.getLast? = some t) :
    t.range.stop = stop := by
  induction ts generalizing start with
  | nil => cases ht
  | cons u ts ih =>
    cases ts with
    | nil =>
      obtain rfl := Option.some.inj ht
      exact h.2.2
    | cons v ts => exact ih h.2.2 (by simpa using ht)

end Token.Tiles

/-- A line among the tokens of a document, with what is in front of it and behind it. -/
structure Layout.Row.Among (r : Row) (ts front back : List Token) : Prop where
  split : ts = front ++ (r.tokens ++ Token.newline r.number (units16 r.text) :: back)
  front_le : ∀ t ∈ front, t.range.stop ≤ ⟨r.number, 0⟩
  scanned : ∃ s : LineState, r.tokens = tokensFrom r.number 0 (s.scan r.text).1

theorem LineState.exists_among {s : LineState} {line : Nat} {lines : List (List Char)} {r : Row}
    (hr : r ∈ s.rows line lines) :
    ∃ front back, r.Among (s.tokensOfLines line lines) front back ∧ line ≤ r.number := by
  induction lines generalizing s line with
  | nil => cases hr
  | cons text lines ih =>
    rcases mem_cons.1 hr with rfl | hr
    · refine ⟨[], (s.scan text).2.tokensOfLines (line + 1) lines, ⟨?_, by simp, s, rfl⟩,
        Nat.le_refl _⟩
      rw [tokensOfLines, tokens]
      simp
    · obtain ⟨front, back, hamong, hle⟩ := ih hr
      refine ⟨s.tokens line text ++ front, back, ⟨?_, ?_, hamong.scanned⟩, Nat.le_of_succ_le hle⟩
      · rw [tokensOfLines, hamong.split, append_assoc]
      · intro t ht
        rcases mem_append.1 ht with ht | ht
        · refine le_trans ((s.tiles_tokens line text).stop_le ht) ?_
          simp only [le_def]
          omega
        · exact hamong.front_le t ht

namespace Layout.Row.Among

variable {r : Row} {ts front back : List Token} {t : Token}

theorem tiles (h : r.Among ts front back) :
    Token.Tiles ⟨r.number, units16 r.text⟩ ⟨r.number, 0⟩ r.tokens := by
  obtain ⟨s, hs⟩ := h.scanned
  have htiles :=
    tiles_tokensFrom (fun x hx => s.text_ne_nil_of_mem_scan r.text hx) r.number 0
  rwa [chars, s.scan_text, Nat.zero_add, ← hs] at htiles

/-- A quote on a line is a character of it. -/
theorem exists_quote (h : r.Among ts front back) (ht : t ∈ r.tokens) {side : Side}
    (hkind : t.kind = .quote side) :
    ∃ pre post, r.text = pre ++ '"' :: post ∧
      t.range = .onLine r.number (units16 pre) (units16 pre + 1) := by
  obtain ⟨s, hs⟩ := h.scanned
  obtain ⟨before, x, after, hxs, rfl⟩ := exists_of_mem_tokensFrom (hs ▸ ht)
  have hx : x.category = .quote side := by
    change x.category.tokenKind = _ at hkind
    cases hc : x.category <;> rw [hc] at hkind <;> cases hkind
    rfl
  have hmem : x ∈ (Scanner.scan ⟨s, false⟩ r.text).1 := by
    change x ∈ (s.scan r.text).1
    simp [hxs]
  have htext : x.text = ['"'] := Scanner.text_of_quote hmem hx
  have hrow : r.text = chars before ++ '"' :: chars after := by
    have hscan := s.scan_text r.text
    rw [hxs] at hscan
    simpa [chars, htext] using hscan.symm
  refine ⟨chars before, chars after, hrow, ?_⟩
  simp [token, htext, unitWidth]

theorem getElem?_newline (h : r.Among ts front back) :
    ts[front.length + r.tokens.length]? = some (Token.newline r.number (units16 r.text)) := by
  rw [h.split, ← List.append_assoc, ← List.length_append]
  simp

/-- A token in front of the end of a line is on the line or in front of it. -/
theorem mem_of_lt (h : r.Among ts front back) {i : Nat} (hi : i < front.length + r.tokens.length)
    (ht : ts[i]? = some t) : i < front.length ∧ t ∈ front ∨ front.length ≤ i ∧ t ∈ r.tokens := by
  rw [h.split] at ht
  rcases Nat.lt_or_ge i front.length with hlt | hge
  · rw [List.getElem?_append_left hlt] at ht
    exact .inl ⟨hlt, List.mem_of_getElem? ht⟩
  · rw [List.getElem?_append_right hge, List.getElem?_append_left (by omega)] at ht
    exact .inr ⟨hge, List.mem_of_getElem? ht⟩

theorem kind_ne_newline (h : r.Among ts front back) (ht : t ∈ r.tokens) : t.kind ≠ .newline := by
  obtain ⟨s, hs⟩ := h.scanned
  exact kind_ne_newline_of_mem_tokensFrom (hs ▸ ht)

theorem tokens_ne_nil (h : r.Among ts front back) (htext : r.text ≠ []) : r.tokens ≠ [] := by
  intro hnil
  have htiles := h.tiles
  rw [hnil] at htiles
  have hpos := units16_pos htext
  have hzero : 0 = units16 r.text := congrArg character htiles
  omega

end Layout.Row.Among

namespace Quoted

variable {ts front back : List Token} {q : Range} {n : TokenRange} {r : Row} {d : Diagnostic}
  {e : Edit}

/-- A token between the quotes. -/
theorem lt_of_inside (h : Quoted ts q n) (hts : Token.InOrder ts)
    (hlt : ∀ t ∈ ts, t.range.start < t.range.stop) {i : Nat} {t : Token} (ht : ts[i]? = some t)
    (hlo : n.start < i) (hhi : i < n.stop - 1) :
    q.start < t.range.start ∧ t.range.stop < q.stop := by
  obtain ⟨o, ho, -, hstart⟩ := h.exists_opening
  obtain ⟨c, hc, -, hstop⟩ := h.exists_closing
  rw [hstart, hstop]
  exact ⟨lt_of_lt_of_le (hlt o (List.mem_of_getElem? ho)) (hts.stop_le_start ho ht hlo),
    lt_of_le_of_lt (hts.stop_le_start ht hc hhi) (hlt c (List.mem_of_getElem? hc))⟩

/-- Where a line ends between the quotes, and not as if in a string, its last token is invalid. -/
theorem exists_invalid_last (h : Quoted ts q n) (hts : Token.InOrder ts)
    (hlt : ∀ t ∈ ts, t.range.start < t.range.stop) (hr : r.Among ts front back)
    (hlo : n.start < front.length + r.tokens.length)
    (hhi : front.length + r.tokens.length < n.stop - 1) (hends : r.endsInString = false)
    (htext : r.text ≠ []) :
    ∃ t ∈ ts, isInvalid t = true ∧ q.start < t.range.start ∧ t.range.stop < q.stop ∧
      t.range.stop = ⟨r.number, units16 r.text⟩ := by
  have hlast := List.getLast?_eq_some_getLast (hr.tokens_ne_nil htext)
  generalize r.tokens.getLast _ = last at hlast
  obtain ⟨init, hinit⟩ := List.getLast?_eq_some_iff.1 hlast
  have hindex : ts[front.length + init.length]? = some last := by
    rw [hr.split, hinit]
    simp
  have hlength : r.tokens.length = init.length + 1 := by simp [hinit]
  have hnot : inString .opening last = false := by
    simpa [Row.endsInString, hlast] using hends
  have hopen : n.start ≠ front.length + init.length := by
    obtain ⟨o, ho, hopening, -⟩ := h.exists_opening
    intro heq
    rw [heq, hindex] at ho
    rw [Option.some.inj ho] at hnot
    simp [inString, hopening] at hnot
  have hkeeps := h.inside _ last (by omega) (by omega) hindex
  have hinvalid : isInvalid last = true :=
    (Scanner.inString_of_keepsString hkeeps (hr.kind_ne_newline (List.mem_of_getLast? hlast))
      .opening).resolve_left (by simp [hnot])
  obtain ⟨hstart, hstop⟩ := h.lt_of_inside hts hlt hindex (by omega) (by omega)
  exact ⟨last, List.mem_of_getElem? hindex, hinvalid, hstart, hstop,
    hr.tiles.stop_of_getLast? hlast⟩

/-- Where a line starts between the quotes, and not as if in a string, its first token is
invalid. -/
theorem exists_invalid_first (h : Quoted ts q n) (hts : Token.InOrder ts)
    (hlt : ∀ t ∈ ts, t.range.start < t.range.stop) (hr : r.Among ts front back)
    (hlo : n.start < front.length) (hhi : front.length ≤ n.stop - 1)
    (hstarts : r.startsInString = false) (htext : r.text ≠ []) :
    ∃ t ∈ ts, isInvalid t = true ∧ q.start < t.range.start ∧ t.range.stop < q.stop ∧
      t.range.start = ⟨r.number, 0⟩ := by
  obtain ⟨first, rest, htokens⟩ := List.exists_cons_of_ne_nil (hr.tokens_ne_nil htext)
  have hindex : ts[front.length]? = some first := by
    rw [hr.split, htokens]
    simp
  have hnot : inString .closing first = false := by
    simpa [Row.startsInString, htokens] using hstarts
  have hclose : n.stop - 1 ≠ front.length := by
    obtain ⟨c, hc, hclosing, -⟩ := h.exists_closing
    intro heq
    rw [heq, hindex] at hc
    rw [Option.some.inj hc] at hnot
    simp [inString, hclosing] at hnot
  have hkeeps := h.inside _ first hlo (by omega) hindex
  have hinvalid : isInvalid first = true :=
    (Scanner.inString_of_keepsString hkeeps
      (hr.kind_ne_newline (by simp [htokens])) .closing).resolve_left
      (by simp [hnot])
  obtain ⟨hstart, hstop⟩ := h.lt_of_inside hts hlt hindex hlo (by omega)
  exact ⟨first, List.mem_of_getElem? hindex, hinvalid, hstart, hstop,
    hr.tiles.start_of_head? (by simp [htokens])⟩

/-- The end of a line that is followed by no string is behind all quotes on it. -/
theorem enters_trailingBlanks_iff (h : Quoted ts q n) (hts : Token.InOrder ts)
    (hlt : ∀ t ∈ ts, t.range.start < t.range.stop) (hr : r.Among ts front back)
    (hd : d ∈ trailingBlanks r) (he : d.fix = some e) :
    e.Enters q ↔ ∃ t ∈ ts, isInvalid t = true ∧ q.start < t.range.start ∧ t.range.stop < q.stop ∧
      t.range.stop = e.range.stop := by
  simp only [trailingBlanks, List.mem_ite_nil_left, Bool.or_eq_true, decide_eq_true_eq,
    not_or, List.mem_singleton] at hd
  obtain ⟨⟨hends, hlength⟩, rfl⟩ := hd
  obtain rfl := Option.some.inj he
  constructor
  · rintro ⟨hstart, hstop⟩
    obtain ⟨o, ho, hopening, hqstart⟩ := h.exists_opening
    obtain ⟨c, hc, hclosing, hqstop⟩ := h.exists_closing
    rw [hqstart] at hstart
    rw [hqstop] at hstop
    have hnewline := hr.getElem?_newline
    -- the line ends between the quotes
    have hlo : n.start < front.length + r.tokens.length := by
      by_contra hge
      exact not_lt.2 (hts.start_le_start hnewline ho (Nat.le_of_not_lt hge)) hstart
    have hhi : front.length + r.tokens.length < n.stop - 1 := by
      by_contra hge
      have hne : n.stop - 1 ≠ front.length + r.tokens.length := by
        intro heq
        rw [heq, hnewline] at hc
        rw [← Option.some.inj hc] at hclosing
        cases hclosing
      refine not_lt.2 ?_ hstop
      rcases hr.mem_of_lt (by omega) hc with ⟨-, hfront⟩ | ⟨-, hrow⟩
      · exact le_trans (hr.front_le c hfront) (by simp [le_def, Range.onLine])
      · obtain ⟨pre, post, htext, hrange⟩ := hr.exists_quote hrow hclosing
        have hquote : isBlank '"' = false := by decide
        rw [hrange, htext, trimEnd_append_cons hquote]
        simp [le_def, Range.onLine, unitWidth]
    refine h.exists_invalid_last hts hlt hr hlo hhi (by simpa using hends) ?_
    intro hnil
    simp [hnil, trimEnd] at hlength
  · rintro ⟨t, ht, -, hstart, hstop, heq⟩
    refine ⟨heq ▸ lt_of_lt_of_le hstart (le_of_lt (hlt t ht)), ?_⟩
    refine lt_of_lt_of_le ?_ (le_of_lt (heq ▸ hstop))
    have hsplit := trimEnd_append_trail r.text
    have htrail : trail r.text ≠ [] := by
      intro hnil
      rw [hnil, append_nil] at hsplit
      exact hlength (congrArg List.length hsplit)
    have hpos := units16_pos htrail
    have hunits := congrArg units16 hsplit
    rw [units16_append] at hunits
    refine .inr ⟨rfl, ?_⟩
    change units16 (trimEnd r.text) < units16 r.text
    omega

/-- The start of a line that is preceded by no string is in front of all quotes on it. -/
theorem enters_indentation_iff (h : Quoted ts q n) (hts : Token.InOrder ts)
    (hlt : ∀ t ∈ ts, t.range.start < t.range.stop) (hr : r.Among ts front back)
    {settings : LayoutSettings} {data : Data} (hd : d ∈ indentation settings data r)
    (he : d.fix = some e) :
    e.Enters q ↔ ∃ t ∈ ts, isInvalid t = true ∧ q.start < t.range.start ∧ t.range.stop < q.stop ∧
      t.range.start = e.range.start := by
  simp only [indentation, mem_ite_nil_left, Bool.or_eq_true, not_or, mem_singleton] at hd
  obtain ⟨⟨⟨hblank, hstarts⟩, -⟩, rfl⟩ := hd
  obtain rfl := Option.some.inj he
  constructor
  · rintro ⟨hstart, hstop⟩
    obtain ⟨o, ho, hopening, hqstart⟩ := h.exists_opening
    obtain ⟨c, hc, hclosing, hqstop⟩ := h.exists_closing
    rw [hqstart] at hstart
    rw [hqstop] at hstop
    -- the line starts between the quotes
    have hhi : front.length ≤ n.stop - 1 := by
      by_contra hge
      refine not_lt.2 ?_ hstop
      have hfront : c ∈ front := by
        rw [hr.split, getElem?_append_left (by omega)] at hc
        exact mem_of_getElem? hc
      exact hr.front_le c hfront
    have hlo : n.start < front.length := by
      by_contra hge
      refine not_lt.2 ?_ hstart
      rcases Nat.lt_or_ge n.start (front.length + r.tokens.length) with hin | hbehind
      · obtain ⟨-, hrow⟩ := (hr.mem_of_lt hin ho).resolve_left fun hfront => hge hfront.1
        obtain ⟨pre, post, htext, hrange⟩ := hr.exists_quote hrow hopening
        have hquote : isBlank '"' = false := by decide
        rw [hrange]
        exact .inr ⟨rfl, htext ▸ units16_indent_le hquote pre post⟩
      · have hindent := congrArg units16 (indent_append_trimStart r.text)
        rw [units16_append] at hindent
        have hle : units16 (indent r.text) ≤ units16 r.text := by omega
        refine le_trans ?_ (hts.start_le_start hr.getElem?_newline ho hbehind)
        exact .inr ⟨rfl, hle⟩
    refine h.exists_invalid_first hts hlt hr hlo hhi (by simpa using hstarts) ?_
    intro hnil
    simp [hnil, allBlank] at hblank
  · rintro ⟨t, ht, -, hstart, hstop, heq⟩
    refine ⟨lt_of_lt_of_le (heq ▸ hstart) (by simp [le_def, Range.onLine]), ?_⟩
    exact heq ▸ lt_of_lt_of_le (hlt t ht) (le_of_lt hstop)

end Quoted

namespace Layout

variable {lines : List (List Char)} {ts : List Token} {r : Row} {d : Diagnostic}

theorem kind_of_mem_trailingBlanks (h : d ∈ trailingBlanks r) : d.kind = .trailingWhitespace :=
  (style_of_mem_trailingBlanks r d h).2

theorem kind_of_mem_indentation {settings : LayoutSettings} {data : Data}
    (h : d ∈ indentation settings data r) : d.kind = .indentation :=
  (style_of_mem_indentation settings data r d h).2

theorem kind_of_mem_padding (h : d ∈ padding lines ts) : d.kind = .padding :=
  (style_of_mem_padding lines ts d h).2

theorem kind_of_mem_lineBreaks {indent : Position → Nat} {block : Block Data}
    (h : d ∈ lineBreaks indent ts.toArray block) : d.kind = .lineBreak :=
  (style_of_mem_lineBreaks indent ts.toArray block d h).2

end Layout

namespace Document

/-- **The layout enters a string only at a bad escape.** What the layout would change reaches into a
string if and only if it is at the end or at the start of a line, and an invalid token between the
quotes is the last or the first of that line. -/
theorem layout_fix_enters_string_iff {text : String} {data : Data}
    (hdata : (parse text).data = some data) {settings : LayoutSettings} {d : Diagnostic}
    (hd : d ∈ Analysis.layoutFindings (parse text) settings) {e : Edit} (he : d.fix = some e)
    {s : String} {range : Range} {tokens : TokenRange}
    (hs : Data.primitive (.string s) range tokens ∈ data.nodes) :
    e.Enters range ↔ ∃ t ∈ (parse text).tokens, isInvalid t = true ∧ range.start < t.range.start ∧
      t.range.stop < range.stop ∧
      (d.kind = .trailingWhitespace ∧ t.range.stop = e.range.stop ∨
        d.kind = .indentation ∧ t.range.start = e.range.start) := by
  obtain ⟨data', hdata', hd⟩ := Analysis.mem_lint_of_mem_layoutFindings hd
  obtain rfl : data = data' := Option.some.inj (hdata.symm.trans hdata')
  rw [tokens_parse, lines_parse] at hd
  rw [tokens_parse]
  have hquoted := (sits_of_mem_nodes hdata _ hs).quoted
  have hts := inOrder_tokensOf text
  have hlt : ∀ t ∈ tokensOf text, t.range.start < t.range.stop := by
    intro t ht
    rw [tokensOf_eq] at ht
    exact (LineState.tiles_tokensOfLines {} 0 (linesOf text)).start_lt_stop ht
  have hamong : ∀ r ∈ rows (linesOf text) (tokensOf text),
      ∃ front back, r.Among (tokensOf text) front back := by
    intro r hr
    rw [tokensOf_eq, LineState.rows_eq] at hr
    obtain ⟨front, back, h, -⟩ := LineState.exists_among hr
    exact ⟨front, back, by rwa [tokensOf_eq]⟩
  simp only [lint, List.mem_append, List.mem_flatMap, or_assoc] at hd
  obtain ⟨r, hr, hd⟩ | ⟨r, hr, hd⟩ | hd | ⟨block, hblock, hd⟩ := hd
  · obtain ⟨front, back, hr⟩ := hamong r hr
    simpa [kind_of_mem_trailingBlanks hd] using hquoted.enters_trailingBlanks_iff hts hlt hr
      hd he
  · obtain ⟨front, back, hr⟩ := hamong r hr
    simpa [kind_of_mem_indentation hd] using hquoted.enters_indentation_iff hts hlt hr hd he
  · simpa [kind_of_mem_padding hd] using hquoted.not_enters_of_mem_padding hts hd he
  · obtain ⟨n, hn, hinner⟩ := data.exists_of_mem_blocks block hblock
    have hsits := (sits_of_mem_nodes hdata n hn).innerBlock hinner
    simpa [kind_of_mem_lineBreaks hd] using
      hquoted.not_enters_of_mem_lineBreaks hts hsits.enclosed hd he

/-- The text and the place of a string that is the first item of an array. -/
def leadingString? : Data → Option (String × Range)
  | .block ⟨.array (.primitive (.string s) range _ :: _), _, _⟩ => some (s, range)
  | _ => none

theorem exists_of_leadingString? {data : Data} {s : String} {range : Range}
    (h : leadingString? data = some (s, range)) :
    ∃ tokens, Data.primitive (.string s) range tokens ∈ data.nodes := by
  unfold leadingString? at h
  split at h
  next s' range' tokens rest outer span =>
    obtain ⟨rfl, rfl⟩ := Prod.mk.inj (Option.some.inj h)
    exact ⟨tokens, Data.mem_nodes_iff.2
      (.inr ⟨_, rfl, _, List.mem_cons_self, Data.self_mem_nodes _⟩)⟩
  next => cases h

/-- A string of two lines without escapes. None of what is found around it enters it. -/
theorem layout_fix_enters_string_iff_of_two_lines :
    let document := parse "[\"a\n  b\",1]"
    ∃ data range tokens, document.data = some data ∧
      Data.primitive (.string "a\n  b") range tokens ∈ data.nodes ∧
      (Analysis.layoutFindings document {}).length = 3 ∧
      ∀ d ∈ Analysis.layoutFindings document {}, ∀ e, d.fix = some e → ¬e.Enters range := by
  intro document
  -- evaluated together, since they all read the same document
  have hrun : ((document.data.bind leadingString?).map (·.1) = some "a\n  b" ∧
      ∀ t ∈ document.tokens, isInvalid t = false) ∧
      (Analysis.layoutFindings document {}).length = 3 := by decide +kernel
  obtain ⟨⟨hstring, hvalid⟩, hlength⟩ := hrun
  obtain ⟨⟨_, range⟩, hleading, rfl⟩ := Option.map_eq_some_iff.1 hstring
  obtain ⟨data, hdata, hleading⟩ := Option.bind_eq_some_iff.1 hleading
  obtain ⟨tokens, hs⟩ := exists_of_leadingString? hleading
  refine ⟨data, range, tokens, hdata, hs, hlength, fun d hd e he henters => ?_⟩
  obtain ⟨t, ht, hinvalid, -⟩ := (layout_fix_enters_string_iff hdata hd he hs).1 henters
  exact Bool.false_ne_true ((hvalid t ht).symm.trans hinvalid)

/-- The bad escape `\q` is the first token of its line, and the line is indented, inside the
string. -/
theorem layout_fix_enters_string_with_bad_escape :
    let document := parse "[\"a\n\\q\"]"
    ∃ data s range tokens, document.data = some data ∧ Data.primitive (.string s) range tokens
      ∈ data.nodes ∧
      ∃ d ∈ Analysis.layoutFindings document {}, ∃ e, d.fix = some e ∧ e.Enters range := by
  intro document
  have hrun : (document.data.bind leadingString?).map (·.2) = some ⟨⟨0, 1⟩, ⟨1, 3⟩⟩ ∧
      ∃ d ∈ Analysis.layoutFindings document {}, ∃ e ∈ d.fix, e.Enters ⟨⟨0, 1⟩, ⟨1, 3⟩⟩ := by
    decide +kernel
  obtain ⟨hstring, henters⟩ := hrun
  obtain ⟨⟨s, _⟩, hleading, rfl⟩ := Option.map_eq_some_iff.1 hstring
  obtain ⟨data, hdata, hleading⟩ := Option.bind_eq_some_iff.1 hleading
  obtain ⟨tokens, hs⟩ := exists_of_leadingString? hleading
  exact ⟨data, s, _, tokens, hdata, hs, henters⟩

end Document

end TypedNotation
