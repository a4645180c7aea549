import TypedNotation.Proofs.Cells

/-!
# Editing cells

An edit that replaces the gap of a cell, or takes a comma away, is an edit of cells. A `Cell.Plan`
says for each cell what becomes of its gap and whether its stop is dropped. The edits of a plan,
made in the text of its cells, give the text of the plan (`Cell.Plan.splice_edits`): at every cell
the positions of the edits are offsets of the text, since the columns of a line count what is before
them (`Text.At.offset`).
-/

namespace TypedNotation

open List Text

/-! ### Offsets -/

namespace Text

/-- A text up to a position: it ends with the part `row` of a line. -/
def At (text row : List Char) (p : Position) : Prop :=
  ∃ lead, text = lead ++ row ∧ (lead = [] ∨ lead.getLast? = some '\n') ∧ '\n' ∉ row ∧
    p = ⟨lead.count '\n', units16 row⟩

theorem at_origin : At [] [] ⟨0, 0⟩ :=
  ⟨[], rfl, .inl rfl, not_mem_nil, rfl⟩

theorem At.append {text row : List Char} {p : Position} (h : At text row p) {more : List Char}
    (hmore : '\n' ∉ more) : At (text ++ more) (row ++ more)
      ⟨p.line, p.character + units16 more⟩ := by
  obtain ⟨lead, rfl, hlead, hrow, rfl⟩ := h
  exact ⟨lead, append_assoc .., hlead, by simp [hrow, hmore], by simp⟩

theorem At.feed {text row : List Char} {p : Position} (h : At text row p) {more : List Char}
    (hmore : '\n' ∉ more) : At (text ++ (more ++ ['\n'])) [] ⟨p.line + 1, 0⟩ := by
  obtain ⟨lead, rfl, hlead, hrow, rfl⟩ := h
  refine ⟨lead ++ (row ++ (more ++ ['\n'])), by simp, .inr (by simp), not_mem_nil, ?_⟩
  simp [count_append, count_eq_zero.2 hrow, count_eq_zero.2 hmore]

/-- Whole lines in front of a position. -/
theorem charOffset_lead {lead : List Char} (hlead : lead = [] ∨ lead.getLast? = some '\n')
    (cs : List Char) (column : Nat) :
    charOffset (lead ++ cs) (lead.count '\n') column = lead.length + charOffset cs 0 column := by
  induction lead with
  | nil => simp
  | cons c lead ih =>
    have hmem : '\n' ∈ c :: lead := by
      rcases hlead with hlead | hlead
      · cases hlead
      · exact mem_of_mem_getLast? hlead
    obtain ⟨n, hn⟩ := Nat.exists_eq_add_one_of_ne_zero (count_pos_iff.2 hmem).ne'
    have hrest : lead = [] ∨ lead.getLast? = some '\n' := by
      cases lead with
      | nil => exact .inl rfl
      | cons d lead => exact hlead.imp_left (fun h => by cases h)
    have hstep : charOffset (c :: (lead ++ cs)) (n + 1) column =
        charOffset (lead ++ cs) (if c = '\n' then n else n + 1) column + 1 := by rw [charOffset]
    have hline : (if c = '\n' then n else n + 1) = lead.count '\n' := by
      rw [count_cons] at hn
      by_cases hc : c = '\n'
      · simp [hc] at hn ⊢
        exact hn.symm
      · simp [hc] at hn ⊢
        exact hn.symm
    rw [hn, cons_append, hstep, hline, ih hrest, length_cons]
    omega

/-- A column of the first line, if it is not behind the carriage return of the line. -/
theorem charOffset_zero {row rest : List Char} (hrow : '\n' ∉ row)
    (hend : (rest ++ ['\n']).head? = some '\n' → row.getLast? ≠ some '\r') :
    charOffset (row ++ rest) 0 (units16 row) = row.length := by
  have htake : (row ++ rest).takeWhile (· != '\n') = row ++ rest.takeWhile (· != '\n') := by
    rw [takeWhile_append_of_pos]
    intro c hc
    simpa using fun h : c = '\n' => hrow (h ▸ hc)
  rw [charOffset, htake, dropReturn_append_of_ne, columnPrefix_units16_append]
  intro hnil
  apply hend
  cases rest with
  | nil => rfl
  | cons c rest =>
    rw [takeWhile_cons] at hnil
    split at hnil
    · cases hnil
    next hc =>
      obtain rfl : c = '\n' := by simpa using hc
      rfl

/-- The offset of a position. -/
theorem At.offset {text pre row rest : List Char} {p : Position} (h : At pre row p)
    (htext : text ++ ['\n'] = pre ++ rest) (hne : rest ≠ [])
    (hend : rest.head? = some '\n' → row.getLast? ≠ some '\r') :
    charOffset text p.line p.character = pre.length := by
  obtain ⟨lead, rfl, hlead, hrow, rfl⟩ := h
  obtain ⟨rest, last, rfl⟩ := (eq_nil_or_concat rest).resolve_left hne
  rw [concat_eq_append] at htext hend
  rw [← append_assoc] at htext
  obtain ⟨rfl, hlast⟩ := append_inj' htext rfl
  obtain rfl := (List.cons.inj hlast).1
  rw [append_assoc, charOffset_lead hlead, charOffset_zero hrow hend, length_append]

end Text

/-! ### Plans -/

namespace Cell

/-- What becomes of a gap. -/
inductive Fill where
  | keep
  | blanks (cs : List Char)
  /-- A line break, with the indent behind it. -/
  | wrap (indent : Nat)

/-- What becomes of a cell. -/
structure Change where
  fill : Fill := .keep
  /-- Whether the stop is taken away. -/
  drop : Bool := false

/-- What is written in place of a gap, if anything is. -/
def Fill.new? : Fill → Option (List Char)
  | keep => none
  | blanks cs => some cs
  | wrap indent => some ('\n' :: List.replicate indent ' ')

/-- What is written in place of a stop, if anything is. -/
def Change.new? (change : Change) : Option (List Char) :=
  if change.drop then some [] else none

/-- The edit that writes something in a range, if anything is written. -/
def editOf (range : Range) (new : Option (List Char)) : List Edit :=
  (new.map fun cs => ⟨range, String.ofList cs⟩).toList

/-- The place behind a cell. -/
def after (c : Cell) (p : Position) : Position :=
  match c.stop with
  | .core x => ⟨p.line, p.character + units16 c.gap + units16 x.text⟩
  | .line _ => ⟨p.line + 1, 0⟩

/-- The range of the gap of a cell. -/
def gapRange (c : Cell) (p : Position) : Range :=
  ⟨p, ⟨p.line, p.character + units16 c.gap⟩⟩

/-- The range of the stop of a cell on its line. -/
def stopRange (c : Cell) (p : Position) : Range :=
  ⟨⟨p.line, p.character + units16 c.gap⟩,
    ⟨p.line, p.character + units16 c.gap + units16 c.stop.text⟩⟩

/-- Cells, each with what becomes of it. -/
abbrev Plan := List (Cell × Change)

namespace Plan

/-- The cells as they are. -/
def cells (plan : Plan) : List Cell :=
  plan.map (·.1)

/-- The text that comes of a plan. -/
def text (plan : Plan) : List Char :=
  plan.flatMap fun (c, change) => change.fill.new?.getD c.gap ++ change.new?.getD c.stop.text

/-- The edits of a plan, whose first cell is at a position. -/
def edits (p : Position) : Plan → List Edit
  | [] => []
  | (c, change) :: rest =>
    editOf (c.gapRange p) change.fill.new? ++ (editOf (c.stopRange p) change.new? ++
      edits (c.after p) rest)

@[simp] theorem text_cons (c : Cell) (change : Change) (rest : Plan) :
    text ((c, change) :: rest) =
      change.fill.new?.getD c.gap ++ (change.new?.getD c.stop.text ++ text rest) := by
  simp [text]

end Plan

theorem Reads.stop_text_ne_nil {s : Scanner} {c : Cell} {cells : List Cell}
    (h : Reads s (c :: cells)) : c.stop.text ≠ [] := by
  cases h with
  | @line _ _ ret => cases ret <;> simp [Stop.text]
  | core _ htakes => exact htakes.text_ne_nil

/-- Edits are made one behind the other: an edit of a part of a text, if there is one, and then
those behind it. -/
theorem splice_editOf {text pre part rest more : List Char} {range : Range} {es : List Edit}
    {new : Option (List Char)} (htext : text ++ ['\n'] = pre ++ (part ++ rest)) (hne : rest ≠ [])
    (hstart : new.isSome = true →
      charOffset text range.start.line range.start.character = pre.length)
    (hstop : new.isSome = true →
      charOffset text range.stop.line range.stop.character = (pre ++ part).length)
    (hes : ∀ cursor ≤ (pre ++ part).length,
      Edit.splice text cursor es ++ ['\n'] = (pre ++ part).drop cursor ++ more)
    {cursor : Nat} (hcursor : cursor ≤ pre.length) :
    Edit.splice text cursor (editOf range new ++ es) ++ ['\n'] =
      pre.drop cursor ++ (new.getD part ++ more) := by
  cases new with
  | none =>
    have hrest := hes cursor (by rw [length_append]; omega)
    rw [drop_append_of_le_length hcursor, append_assoc] at hrest
    exact hrest
  | some new =>
    have hpre : ∃ tail, text = pre ++ tail := by
      obtain ⟨tail, last, rfl⟩ := (eq_nil_or_concat rest).resolve_left hne
      rw [concat_eq_append, ← append_assoc part, ← append_assoc pre] at htext
      exact ⟨part ++ tail, (append_inj' htext rfl).1⟩
    obtain ⟨tail, htail⟩ := hpre
    have hbefore : (text.drop cursor).take (pre.length - cursor) = pre.drop cursor := by
      rw [htail, drop_append_of_le_length hcursor, ← length_drop, take_left]
    have hle : pre.length ≤ (pre ++ part).length := by rw [length_append]; omega
    have hbehind := hes _ (Nat.le_refl _)
    rw [drop_length, nil_append] at hbehind
    simp only [editOf, Option.map_some, Option.toList_some, singleton_append, Option.getD_some,
      Edit.splice, hstart rfl, hstop rfl, Nat.max_eq_left hcursor, Nat.max_eq_left hle, hbefore,
      String.toList_ofList, append_assoc, hbehind]

namespace Plan

/-- Only commas are dropped. -/
def DropsCommas (plan : Plan) : Prop :=
  ∀ c change, (c, change) ∈ plan → change.drop = true →
    ∃ blocks, c.stop = .core ⟨[','], .comma, blocks⟩

theorem DropsCommas.tail {c : Cell} {change : Change} {rest : Plan}
    (h : DropsCommas ((c, change) :: rest)) : DropsCommas rest :=
  fun c change hmem => h c change (mem_cons_of_mem _ hmem)

theorem DropsCommas.new?_of_line {gap : List Char} {ret : Bool} {change : Change} {rest : Plan}
    (h : DropsCommas ((⟨gap, .line ret⟩, change) :: rest)) : change.new? = none := by
  rw [Change.new?, if_neg]
  intro hdropped
  obtain ⟨blocks, hcomma⟩ := h _ _ mem_cons_self hdropped
  cases hcomma

theorem DropsCommas.text_of_core {gap : List Char} {x : Lexeme} {change : Change} {rest : Plan}
    (h : DropsCommas ((⟨gap, .core x⟩, change) :: rest)) (hnew : change.new?.isSome = true) :
    x.text = [','] := by
  obtain ⟨blocks, hcomma⟩ := h _ _ mem_cons_self (by simpa [Change.new?] using hnew)
  rw [Stop.core.inj hcomma]

/-- The offsets around the gap of a cell. -/
theorem offset_gap {s : Scanner} {c : Cell} {cells : List Cell} (h : Reads s (c :: cells))
    {text pre row : List Char} {p : Position} (hat : At pre row p)
    (htext : text ++ ['\n'] = pre ++ chars (c :: cells))
    (hend : c.gap = [] → c.stop = .line false → row.getLast? ≠ some '\r') :
    charOffset text p.line p.character = pre.length ∧
      charOffset text p.line (p.character + units16 c.gap) = (pre ++ c.gap).length := by
  have hgap : s.GapFits c.gap := by cases h <;> assumption
  constructor
  · refine hat.offset htext ?_ fun hhead => ?_
    · obtain ⟨more, hmore⟩ := h.exists_text (cons_ne_nil _ _)
      simp [hmore]
    · obtain ⟨hnil, hline⟩ := h.eq_line_of_head? hhead
      exact hend hnil hline
  · have hbehind := hat.append hgap.noFeed
    rw [chars_cons, ← append_assoc] at htext
    refine hbehind.offset htext (by simp [h.stop_text_ne_nil]) fun hhead => ?_
    · cases h with
      | @line _ gap ret _ _ hret =>
        have hfalse : ret = false := by
          cases ret with
          | false => rfl
          | true => simp [Stop.text] at hhead
        subst hfalse
        rw [getLast?_append]
        cases hg : gap.getLast? with
        | some d =>
          rw [Option.some_or]
          rw [← hg]
          exact hret rfl
        | none => exact hend (getLast?_eq_none_iff.1 hg) rfl
      | @core _ _ _ x _ _ _ htakes hwhole =>
        exfalso
        obtain ⟨d, own, hx⟩ := exists_cons_of_ne_nil htakes.text_ne_nil
        rw [Stop.text, hx] at hhead
        obtain rfl : d = '\n' := by simpa using hhead
        exact hwhole.noFeed (hx ▸ mem_cons_self)

/-- **The edits of a plan give its text.** -/
theorem splice_edits {plan : Plan} {s : Scanner} (h : Reads s plan.cells) (hdrop : plan.DropsCommas)
    {text pre row : List Char} {p : Position} (hat : At pre row p)
    (htext : text ++ ['\n'] = pre ++ chars plan.cells)
    (hend : ∀ c ∈ plan.cells.head?, c.gap = [] → c.stop = .line false → row.getLast? ≠ some '\r')
    {cursor : Nat} (hcursor : cursor ≤ pre.length) (hlength : cursor ≤ text.length) :
    Edit.splice text cursor (plan.edits p) ++ ['\n'] = pre.drop cursor ++ plan.text := by
  -- `pre` has been read, and the edits up to `cursor` are made: what lies between is copied by the
  -- next one
  induction plan generalizing s pre row p cursor with
  | nil =>
    have hpre : pre = text ++ ['\n'] := by simpa [cells] using htext.symm
    rw [edits, Edit.splice, hpre, drop_append_of_le_length hlength]
    simp [Plan.text]
  | cons first rest ih =>
    obtain ⟨c, change⟩ := first
    have hread : Reads s (c :: cells rest) := h
    have htext' : text ++ ['\n'] = pre ++ chars (c :: cells rest) := htext
    obtain ⟨hstart, hstop⟩ := offset_gap hread hat htext' (hend c rfl)
    rw [edits, text_cons]
    rw [chars_cons] at htext'
    refine splice_editOf htext' (by simp [hread.stop_text_ne_nil]) (fun _ => hstart)
      (fun _ => hstop)
      (fun cursor hcursor => ?_) hcursor
    have hle : (pre ++ c.gap).length ≤ text.length := by
      have hcount := congrArg List.length htext'
      have hpos := length_pos_iff.2 hread.stop_text_ne_nil
      simp only [length_append, length_singleton] at hcount ⊢
      omega
    have hshift : (pre ++ c.gap).drop cursor ++ (c.stop.text ++ Plan.text rest) =
        (pre ++ (c.gap ++ c.stop.text)).drop cursor ++ Plan.text rest := by
      rw [← append_assoc, ← append_assoc, drop_append_of_le_length hcursor]
    rw [← append_assoc c.gap, ← append_assoc pre] at htext'
    generalize hcells : cells rest = others at hread htext' ih
    cases hread with
    | @line _ gap ret _ hgap hret hrest =>
      rw [hdrop.new?_of_line, Option.getD_none, hshift]
      have hnext := hat.feed (noFeed_line hgap ret)
      rw [append_assoc gap, ← Stop.text_line] at hnext
      refine ih hrest hdrop.tail hnext htext' (by simp) ?_ (hcursor.trans hle)
      simp only [length_append] at hcursor ⊢
      omega
    | @core _ next gap x y cs hgap htakes hwhole hmeets hrest =>
      have hbehind := (hat.append hgap.noFeed).append hwhole.noFeed
      have hne : chars (y :: cs) ≠ [] := by
        obtain ⟨more, hmore⟩ := hrest.exists_text (cons_ne_nil _ _)
        simp [hmore]
      have hfront : ∀ cursor ≤ (pre ++ gap ++ x.text).length,
          Edit.splice text cursor (edits (after ⟨gap, .core x⟩ p) rest) ++ ['\n'] =
            (pre ++ gap ++ x.text).drop cursor ++ Plan.text rest := by
        intro cursor hcursor
        refine ih hrest hdrop.tail hbehind ?_ ?_ hcursor ?_
        · rw [htext']
          simp [Stop.text]
        · rintro _ ⟨⟩ hygap hyline
          rw [getLast?_append, Option.or_of_isSome (by simpa using htakes.text_ne_nil)]
          exact hmeets.feed hygap hyline
        · have hcount := congrArg List.length htext'
          have hpos := length_pos_iff.2 hne
          simp only [length_append, length_singleton, Stop.text] at hcount hcursor
          omega
      have htext'' : text ++ ['\n'] = (pre ++ gap) ++ (x.text ++ chars (y :: cs)) := by
        rw [htext']
        simp [Stop.text]
      refine splice_editOf htext'' hne (fun _ => hstop) (fun hnew => ?_) hfront hcursor
      refine hbehind.offset (by rw [htext'']; simp) hne fun _ => ?_
      rw [hdrop.text_of_core hnew]
      simp

end Plan

end Cell

end TypedNotation
