import Mathlib.Order.MinMax
import TypedNotation.Proofs.KeptEdits

/-!
# Edits of the bytes of a text

`Edit.applyAll` cuts a list of characters. A text is stored as bytes, and there a cut can go wrong:
behind the end, inside a character, or with its ends in the wrong order. `Edit.applySlices?` works
on byte offsets and fails at the first such cut. It never fails, whatever the edits are, and gives
the text of `Edit.applyAll` (`Edit.applySlices?_eq`): the offset of every position is the size of a
part of the text in front (`Text.offset?_eq`), and the offsets at which the pass cuts do not
decrease.

For edits that are kept together the one pass is the same as many: each edit by itself replaces the
bytes between the offsets of its range in the given text, from the last edit to the first
(`Edit.foldr_onBytes`), which leaves the bytes in front of it alone.
-/

namespace TypedNotation

open List Text Edit

namespace Text

/-! ### Offsets grow with positions -/

theorem columnPrefix_starts_line (line : List Char) (column : Nat) :
    columnPrefix line column <+: line := by
  induction line generalizing column with
  | nil => exact prefix_rfl
  | cons c line ih =>
    cases column with
    | zero => exact nil_prefix
    | succ column => exact (prefix_cons_inj c).2 (ih _)

theorem length_columnPrefix_mono (line : List Char) {a b : Nat} (h : a ≤ b) :
    (columnPrefix line a).length ≤ (columnPrefix line b).length := by
  induction line generalizing a b with
  | nil => exact le_refl 0
  | cons c line ih =>
    cases a with
    | zero => exact Nat.zero_le _
    | succ a =>
      obtain ⟨b, rfl⟩ := Nat.exists_eq_add_of_lt (Nat.lt_of_lt_of_le a.zero_lt_succ h)
      simp only [columnPrefix, length_cons, Nat.zero_add]
      exact Nat.succ_le_succ (ih (by omega))

theorem dropReturn_starts_piece (cs : List Char) : dropReturn cs <+: cs := by
  rw [dropReturn]
  split
  · exact cs.dropLast_prefix
  · exact prefix_rfl

/-- A column of the first line is not behind the line. -/
theorem charOffset_first_le (cs : List Char) (column : Nat) :
    charOffset cs 0 column ≤ (cs.takeWhile (· != '\n')).length := by
  rw [charOffset]
  exact ((columnPrefix_starts_line _ column).trans (dropReturn_starts_piece _)).length_le

/-- The positions of the later lines are behind the first line. -/
theorem le_charOffset_later (cs : List Char) (line column : Nat) :
    (cs.takeWhile (· != '\n')).length ≤ charOffset cs (line + 1) column := by
  induction cs with
  | nil => exact le_refl 0
  | cons c cs ih =>
    by_cases hc : c = '\n'
    · simp [hc]
    · simpa [charOffset, hc] using ih

/-- Later positions have no smaller offsets. -/
theorem charOffset_mono (cs : List Char) {p q : Position} (h : p ≤ q) :
    charOffset cs p.line p.character ≤ charOffset cs q.line q.character := by
  obtain ⟨l, a⟩ := p
  obtain ⟨m, b⟩ := q
  simp only [Position.le_def] at h ⊢
  induction cs generalizing l m with
  | nil => cases l <;> cases m <;> simp [charOffset, dropReturn, columnPrefix]
  | cons c cs ih =>
    cases l with
    | zero =>
      cases m with
      | zero => exact length_columnPrefix_mono _ (by simpa using h)
      | succ m => exact (charOffset_first_le _ a).trans (le_charOffset_later _ m b)
    | succ l =>
      cases m with
      | zero => simp at h
      | succ m =>
        rw [charOffset, charOffset]
        by_cases hc : c = '\n'
        · simpa [hc] using ih l m (by omega)
        · simpa [hc] using ih (l + 1) (m + 1) h

/-- The byte offset of a position. -/
def offset (text : List Char) (p : Position) : Nat :=
  bytes (text.take (charOffset text p.line p.character))

theorem take_eq_append (text : List Char) {m n : Nat} (h : m ≤ n) :
    text.take n = text.take m ++ (text.drop m).take (n - m) := by
  rw [← take_add, Nat.add_sub_of_le h]

theorem max_bytes_take (text : List Char) (m n : Nat) :
    max (bytes (text.take m)) (bytes (text.take n)) = bytes (text.take (max m n)) := by
  have hmono : Monotone fun n => bytes (text.take n) := by
    intro m n h
    simp only [take_eq_append text h, bytes_append]
    exact Nat.le_add_right _ _
  exact (Monotone.map_max hmono).symm

/-! ### Cuts at byte offsets -/

/-- The part of a text between two byte offsets. There is none if an offset is behind the end or
inside a character, or if they are in the wrong order. -/
def slice? (text : List Char) (start stop : Nat) : Option (List Char) :=
  (splitAtByte? text stop).bind fun front => (splitAtByte? front.1 start).map (·.2)

/-- A cut gives a part exactly if both offsets are sizes of parts in front, in order. -/
theorem slice?_eq_some_iff {text part : List Char} {start stop : Nat} :
    slice? text start stop = some part ↔
      ∃ front back, text = front ++ part ++ back ∧ start = bytes front ∧
        stop = bytes front + bytes part := by
  constructor
  · intro h
    obtain ⟨⟨whole, back⟩, hstop, h⟩ := Option.bind_eq_some_iff.1 h
    obtain ⟨⟨front, part⟩, hstart, rfl⟩ := Option.map_eq_some_iff.1 h
    obtain ⟨rfl, rfl⟩ := append_of_splitAtByte? hstop
    obtain ⟨rfl, rfl⟩ := append_of_splitAtByte? hstart
    exact ⟨front, back, rfl, rfl, bytes_append front part⟩
  · rintro ⟨front, back, rfl, rfl, rfl⟩
    rw [slice?, ← bytes_append, splitAtByte?_bytes_append]
    simp [splitAtByte?_bytes_append]

/-- Cuts at offsets of characters succeed. -/
theorem slice?_take (text : List Char) {m n : Nat} (h : m ≤ n) :
    slice? text (bytes (text.take m)) (bytes (text.take n)) =
      some ((text.drop m).take (n - m)) := by
  refine slice?_eq_some_iff.2 ⟨text.take m, text.drop n, ?_, rfl, ?_⟩
  · rw [← take_eq_append text h, take_append_drop]
  · rw [take_eq_append text h, bytes_append]

theorem slice?_drop (text : List Char) (m : Nat) :
    slice? text (bytes (text.take m)) (bytes text) = some (text.drop m) := by
  refine slice?_eq_some_iff.2 ⟨text.take m, [], by simp, rfl, ?_⟩
  rw [← bytes_append, take_append_drop]

/-! ### Offsets from the starts of the lines -/

/-- The byte offsets behind the line feeds of a text that starts at an offset. -/
def startsFrom (n : Nat) : List Char → List Nat
  | [] => []
  | c :: cs =>
    if c = '\n' then (n + 1) :: startsFrom (n + 1) cs else startsFrom (n + c.utf8Size) cs

/-- The byte offsets of the lines of a text. -/
def lineStarts (text : List Char) : List Nat :=
  0 :: startsFrom 0 text

/-- The byte offset of a position, from the starts of the lines. The line is cut out of the text. -/
def offset? (text : List Char) (p : Position) : Option Nat :=
  match (lineStarts text)[p.line]? with
  | none => some (bytes text)
  | some start =>
    let stop := ((lineStarts text)[p.line + 1]?.map (· - 1)).getD (bytes text)
    (slice? text start stop).map fun line => start + byteOffset (dropReturn line) p.character

theorem length_startsFrom (n : Nat) (cs : List Char) :
    (startsFrom n cs).length = cs.count '\n' := by
  induction cs generalizing n with
  | nil => rfl
  | cons c cs ih =>
    rw [startsFrom]
    split
    next hc => simp [ih, hc]
    next hc => simp [ih, hc]

/-- The starts of lines in two parts of a text. -/
theorem startsFrom_append (n : Nat) (a b : List Char) :
    startsFrom n (a ++ b) = startsFrom n a ++ startsFrom (n + bytes a) b := by
  induction a generalizing n with
  | nil => rfl
  | cons c a ih =>
    rw [cons_append, startsFrom, startsFrom]
    split
    next hc =>
      subst hc
      rw [ih, cons_append, bytes_cons, ← Nat.add_assoc]
      rfl
    next => rw [ih, bytes_cons, Nat.add_assoc]

/-- The line behind some whole lines starts at their size. -/
theorem lineStarts_lead {lead : List Char} (hlead : lead = [] ∨ lead.getLast? = some '\n')
    (cs : List Char) : (lineStarts (lead ++ cs))[lead.count '\n']? = some (bytes lead) := by
  rcases hlead with rfl | hlead
  · rfl
  · obtain ⟨front, rfl⟩ := getLast?_eq_some_iff.1 hlead
    have hlen : (startsFrom 0 front).length = front.count '\n' := length_startsFrom 0 front
    rw [lineStarts, startsFrom_append, startsFrom_append, count_append]
    simp [startsFrom, ← hlen, Char.utf8Size]

/-- A line that the text has stands between whole lines and a line feed or the end. -/
theorem exists_line {cs : List Char} {line : Nat} (h : line ≤ cs.count '\n') :
    ∃ lead row rest, cs = lead ++ (row ++ rest) ∧ lead.count '\n' = line ∧
      (lead = [] ∨ lead.getLast? = some '\n') ∧ '\n' ∉ row ∧
      (rest = [] ∨ ∃ more, rest = '\n' :: more) := by
  induction cs generalizing line with
  | nil =>
    obtain rfl : line = 0 := by simpa using h
    exact ⟨[], [], [], rfl, rfl, .inl rfl, not_mem_nil, .inl rfl⟩
  | cons c cs ih =>
    cases line with
    | zero =>
      refine ⟨[], (c :: cs).takeWhile (· != '\n'), (c :: cs).dropWhile (· != '\n'),
        by simp, rfl, .inl rfl, fun hmem => ?_, ?_⟩
      · simpa using mem_takeWhile_imp hmem
      · cases hrest : (c :: cs).dropWhile (· != '\n') with
        | nil => exact .inl rfl
        | cons d more =>
          have hd := head_dropWhile_not (· != '\n') (l := c :: cs) (by simp [hrest])
          simp only [hrest, head_cons, bne_eq_false_iff_eq] at hd
          exact .inr ⟨more, by rw [hd]⟩
    | succ line =>
      obtain ⟨lead, row, rest, rfl, hline, hlead, hrow, hrest⟩ :=
        @ih (if c = '\n' then line else line + 1) (by split <;> simp_all)
      refine ⟨c :: lead, row, rest, rfl, ?_, .inr ?_, hrow, hrest⟩
      · rw [count_cons]
        split at hline <;> simp_all
      · rcases hlead with rfl | hlead
        · split at hline <;> simp_all
        · rw [getLast?_cons, hlead]
          rfl

theorem charOffset_of_count_lt {cs : List Char} {line : Nat} (h : cs.count '\n' < line)
    (column : Nat) : charOffset cs line column = cs.length := by
  induction cs generalizing line with
  | nil =>
    cases line with
    | zero => simp at h
    | succ line => rfl
  | cons c cs ih =>
    cases line with
    | zero => simp at h
    | succ line =>
      rw [charOffset, ih, length_cons]
      rw [count_cons] at h
      split <;> simp_all

/-- A line stops at the line feed in front of the next one, or at the end of the text. -/
theorem lineStarts_next (lead : List Char) {row rest : List Char} (hrow : '\n' ∉ row)
    (hrest : rest = [] ∨ ∃ more, rest = '\n' :: more) :
    ((lineStarts (lead ++ (row ++ rest)))[lead.count '\n' + 1]?.map (· - 1)).getD
        (bytes (lead ++ (row ++ rest))) = bytes lead + bytes row := by
  have hcount : row.count '\n' = 0 := count_eq_zero.2 hrow
  rcases hrest with rfl | ⟨more, rfl⟩
  · have hnone : (lineStarts (lead ++ (row ++ [])))[lead.count '\n' + 1]? = none := by
      rw [List.getElem?_eq_none_iff, lineStarts, length_cons, length_startsFrom]
      simp [hcount]
    rw [hnone]
    simp
  · have hnext := @lineStarts_lead (lead ++ row ++ ['\n']) (.inr (by simp)) more
    have hsplit : lead ++ (row ++ '\n' :: more) = lead ++ row ++ ['\n'] ++ more := by simp
    have hlines : (lead ++ row ++ ['\n']).count '\n' = lead.count '\n' + 1 := by simp [hcount]
    rw [← hlines, hsplit, hnext]
    simp [Char.utf8Size]

/-- The cut for a line never fails, and its offset is that of the position. -/
theorem offset?_eq (text : List Char) (p : Position) : offset? text p = some (offset text p) := by
  obtain ⟨line, column⟩ := p
  by_cases hline : text.count '\n' < line
  · have hnone : (lineStarts text)[line]? = none := by
      rw [List.getElem?_eq_none_iff, lineStarts, length_cons, length_startsFrom]
      omega
    simp only [offset?, hnone, offset]
    rw [charOffset_of_count_lt hline, take_length]
  · obtain ⟨lead, row, rest, rfl, rfl, hlead, hrow, hrest⟩ := exists_line (Nat.not_lt.1 hline)
    have hslice : slice? (lead ++ (row ++ rest)) (bytes lead) (bytes lead + bytes row) = some row :=
      slice?_eq_some_iff.2 ⟨lead, rest, by simp, rfl, rfl⟩
    have htake : (row ++ rest).takeWhile (· != '\n') = row := by
      rw [takeWhile_append_of_pos]
      · rcases hrest with rfl | ⟨more, rfl⟩ <;> simp
      · intro c hc
        simpa using fun h : c = '\n' => hrow (h ▸ hc)
    have hprefix : columnPrefix (dropReturn row) column <+: row ++ rest :=
      ((columnPrefix_starts_line _ column).trans (dropReturn_starts_piece row)).trans
        (prefix_append ..)
    simp only [offset?, lineStarts_lead hlead, lineStarts_next lead hrow hrest, hslice, offset]
    rw [charOffset_lead hlead, charOffset, htake, take_length_add_append,
      ← prefix_iff_eq_take.1 hprefix, bytes_append]
    rfl

end Text

namespace Edit

/-! ### The pass over byte offsets -/

/-- The text from a byte offset on after some edits, cut out of the given text. -/
def spliceSlices? (text : List Char) (cursor : Nat) : List Edit → Option (List Char)
  | [] => slice? text cursor (bytes text)
  | e :: rest => do
    let start := max (← offset? text e.range.start) cursor
    let stop := max (← offset? text e.range.stop) start
    let before ← slice? text cursor start
    let behind ← spliceSlices? text stop rest
    some (before ++ e.newText.toList ++ behind)

/-- The text after some edits, if no cut fails. -/
def applySlices? (text : String) (edits : List Edit) : Option String :=
  (spliceSlices? text.toList 0 (inOrder edits)).map String.ofList

/-- At the offset of a character the pass gives what the pass over characters gives. -/
theorem spliceSlices?_eq (text : List Char) (cursor : Nat) (es : List Edit) :
    spliceSlices? text (bytes (text.take cursor)) es = some (splice text cursor es) := by
  induction es generalizing cursor with
  | nil => exact slice?_drop text cursor
  | cons e es ih =>
    simp only [spliceSlices?, offset?_eq, offset, Option.bind_eq_bind, Option.bind_some,
      max_bytes_take, slice?_take text (Nat.le_max_right _ cursor), ih, splice]

/-- No cut fails, whatever the edits are. -/
theorem applySlices?_eq (text : String) (edits : List Edit) :
    applySlices? text edits = some (applyAll text edits) := by
  have hsplice := spliceSlices?_eq text.toList 0 (inOrder edits)
  rw [take_zero, bytes_nil] at hsplice
  rw [applySlices?, hsplice, applyAll, Option.map_some]

/-! ### One edit after the other -/

/-- The bytes with those between two offsets replaced. -/
def replaceBytes (bs : ByteArray) (start stop : Nat) (new : ByteArray) : ByteArray :=
  bs.extract 0 start ++ new ++ bs.extract stop bs.size

/-- The bytes after an edit whose range is one of the given text. -/
def onBytes (text : String) (e : Edit) (bs : ByteArray) : ByteArray :=
  replaceBytes bs (offset text.toList e.range.start) (offset text.toList e.range.stop)
    e.newText.toByteArray

/-- Replacing the bytes in the middle. -/
theorem replaceBytes_append (a b c new : ByteArray) :
    replaceBytes (a ++ b ++ c) a.size (a ++ b).size new = a ++ new ++ c := by
  have hfront : (a ++ b ++ c).extract 0 a.size = a := by
    rw [ByteArray.append_assoc, ByteArray.extract_append_eq_left rfl]
  rw [replaceBytes, hfront, ByteArray.extract_append_eq_right rfl ByteArray.size_append]

theorem size_utf8Encode (cs : List Char) : cs.utf8Encode.size = bytes cs := by
  induction cs with
  | nil => rfl
  | cons c cs ih =>
    rw [utf8Encode_cons, ByteArray.size_append, ih, utf8Encode_singleton,
      size_toByteArray, String.length_utf8EncodeChar, bytes_cons]

/-- Edits made from the last to the first give the text of the pass. -/
theorem foldr_onBytes (text : String) {es : List Edit} {cursor : Nat}
    (hle : ∀ e ∈ es, e.range.start ≤ e.range.stop)
    (hapart : es.Pairwise fun a b => a.range.stop ≤ b.range.start)
    (hcursor : ∀ e ∈ es, cursor ≤
      charOffset text.toList e.range.start.line e.range.start.character) :
    es.foldr (onBytes text) text.toByteArray =
      (text.toList.take cursor ++ splice text.toList cursor es).utf8Encode := by
  induction es generalizing cursor with
  | nil => simp [splice]
  | cons e es ih =>
    obtain ⟨hfirst, hrest⟩ := pairwise_cons.1 hapart
    obtain ⟨he, hleRest⟩ := forall_mem_cons.1 hle
    have hstart := hcursor e mem_cons_self
    have hstop := charOffset_mono text.toList he
    have hbehind := ih hleRest hrest fun f hf => charOffset_mono text.toList (hfirst f hf)
    rw [foldr_cons, hbehind, onBytes, offset, offset, splice]
    generalize charOffset text.toList e.range.start.line e.range.start.character = m at *
    generalize charOffset text.toList e.range.stop.line e.range.stop.character = n at *
    -- What the later edits have made of the text still starts with its first `n` characters.
    simp only [max_eq_left hstart, max_eq_left hstop]
    rw [← append_assoc, ← append_assoc, ← take_eq_append _ hstart,
      take_eq_append _ hstop, ← size_utf8Encode, ← size_utf8Encode, utf8Encode_append,
      utf8Encode_append, replaceBytes_append, utf8Encode_append, utf8Encode_append,
      String.utf8Encode_toList]

end Edit

namespace Report

/-- The edits that mend what was found are kept as far as they do not clash, and are made
faithfully. -/
theorem kept_fixes_are_made_faithfully :
    (∀ r : Report, (∀ e ∈ r.fixes, e.range.start ≤ e.range.stop) →
      (r.fixAll.Pairwise fun a b => a.range.Before b.range) ∧
      (r.fixAll.Pairwise fun a b => ¬Clash a b) ∧
      (∃ dropped, r.fixes.Perm (r.fixAll ++ dropped) ∧
        ∀ e ∈ dropped, ∃ k ∈ r.fixAll, Clash k e) ∧
      ∀ text : String,
        (applyAll text r.fixAll).toByteArray =
            r.fixAll.foldr (onBytes text) text.toByteArray ∧
          ∀ edits, edits.Perm r.fixAll → applyAll text edits = applyAll text r.fixAll) ∧
    (∀ (text : List Char) (p : Position), offset? text p = some (offset text p)) ∧
    ∀ (text : String) (edits : List Edit),
      applySlices? text edits = some (applyAll text edits) := by
  refine ⟨fun r hle => ?_, offset?_eq, applySlices?_eq⟩
  obtain ⟨hsorted, hmem⟩ := compatible_spec hle
  refine ⟨hsorted, pairwise_not_clash hle, exists_dropped hle, fun text => ⟨?_, ?_⟩⟩
  · rw [fixAll, applyAll, inOrder_eq_self hsorted, String.toByteArray_ofList,
      @foldr_onBytes text _ 0 (fun e he => hle e (hmem e he)) (compatible_apart hle)
        (fun _ _ => Nat.zero_le _), take_zero, nil_append]
  · intro edits hperm
    rw [applyAll, applyAll, inOrder_of_perm hsorted hperm, fixAll,
      inOrder_eq_self hsorted]

/-- Findings whose edits clash, start inside a surrogate pair and reach behind the text. -/
def crowded : Report :=
  ⟨[⟨⟨⟨0, 2⟩, ⟨0, 3⟩⟩, "y"⟩, ⟨⟨⟨0, 1⟩, ⟨0, 9⟩⟩, "z"⟩, ⟨⟨⟨1, 1⟩, ⟨1, 1⟩⟩, "-"⟩,
    ⟨⟨⟨1, 1⟩, ⟨1, 1⟩⟩, "+"⟩, ⟨⟨⟨5, 0⟩, ⟨7, 0⟩⟩, "!"⟩].map fun e : Edit =>
      (Diagnostic.warning .padding e.range "").withFix e⟩

/-- Fixes that clash: some of them are dropped. -/
theorem kept_fixes_are_made_faithfully_of_crowded :
    (∀ e ∈ crowded.fixes, e.range.start ≤ e.range.stop) ∧
      (crowded.fixAll.Pairwise fun a b => ¬Clash a b) ∧
      (∃ dropped, crowded.fixes.Perm (crowded.fixAll ++ dropped) ∧
        ∀ e ∈ dropped, ∃ k ∈ crowded.fixAll, Clash k e) ∧
      (applyAll "😀x\r\nab" crowded.fixAll).toByteArray =
        crowded.fixAll.foldr (onBytes "😀x\r\nab") "😀x\r\nab".toByteArray := by
  have hle : ∀ e ∈ crowded.fixes, e.range.start ≤ e.range.stop := by decide
  obtain ⟨-, hclash, hdropped, hmade⟩ := kept_fixes_are_made_faithfully.1 crowded hle
  exact ⟨hle, hclash, hdropped, (hmade _).1⟩

end Report

end TypedNotation
