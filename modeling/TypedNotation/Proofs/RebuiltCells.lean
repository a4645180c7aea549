import TypedNotation.Proofs.CellTokens
import TypedNotation.Proofs.LayoutPlans

/-!
# The cells of a changed text

What a plan makes of a text is cut into cells again (`Cell.Plan.rebuild`). A comma that is taken
away leaves its gap to the next cell, and a line break ends a line of its own.

If the plan follows the layout, the new cells are cut as the scanner cuts them
(`Cell.Plan.reads_rebuild`), and their stops are accepted if the old ones are
(`Cell.Plan.accepts_rebuild`). Both go along the plan with the old cells and the new ones side by
side. The scanner is in the same state on both sides, up to whether it is behind a key; and a config
is in the same state up to the phase of a block behind a comma that was taken away.
-/

namespace TypedNotation

open List Sequence.Level
open Sequence (Level Phase)

namespace Cell

/-- The end of a line behind a gap. A carriage return in front of a line feed belongs to it. -/
def lineEnd (gap : List Char) (ret : Bool) : Cell :=
  if ret = false ∧ gap.getLast? = some '\r' then ⟨gap.dropLast, .line true⟩ else ⟨gap, .line ret⟩

theorem chars_lineEnd (gap : List Char) (ret : Bool) :
    (lineEnd gap ret).gap ++ (lineEnd gap ret).stop.text = gap ++ (Stop.line ret).text := by
  unfold lineEnd
  split
  next h =>
    obtain ⟨rfl, hlast⟩ := h
    obtain ⟨front, rfl⟩ := getLast?_eq_some_iff.1 hlast
    simp [Stop.text]
  next => rfl

theorem isLine_lineEnd (gap : List Char) (ret : Bool) : (lineEnd gap ret).stop.isLine = true := by
  unfold lineEnd
  split <;> rfl

theorem mark_lineEnd (gap : List Char) (ret : Bool) :
    (lineEnd gap ret).stop.mark = ⟨.newline, "\n"⟩ := by
  unfold lineEnd
  split <;> rfl

/-- A line may end behind any gap. -/
theorem reads_lineEnd {s : Scanner} {gap : List Char} {ret : Bool} {rest : List Cell}
    (hgap : s.GapFits gap) (hrest : Reads s.nextLine rest) : Reads s (lineEnd gap ret :: rest) := by
  unfold lineEnd
  split
  next h =>
    refine .line ⟨fun c hc => hgap.blank c (gap.dropLast_subset hc),
      fun hmem => hgap.noFeed (gap.dropLast_subset hmem), fun hs => ?_⟩ (by simp) hrest
    rw [hgap.string hs]
    rfl
  next h => exact .line hgap (fun hret hlast => h ⟨hret, hlast⟩) hrest

/-- The lines that end in front of a stop, and the gap that is left before it. -/
def Fill.parts (carry gap : List Char) : Fill → List Cell × List Char
  | keep => ([], carry ++ gap)
  | blanks cs => ([], carry ++ cs)
  | wrap indent => ([lineEnd carry false], List.replicate indent ' ')

namespace Plan

/-- The cells of the text of a plan, behind blanks that are left from a comma before. -/
def rebuild (carry : List Char) : Plan → List Cell
  | [] => []
  | (⟨gap, .line ret⟩, change) :: rest =>
    lineEnd (carry ++ change.fill.new?.getD gap) ret :: rebuild [] rest
  | (⟨gap, .core x⟩, change) :: rest =>
    (change.fill.parts carry gap).1 ++
      if change.drop then rebuild (change.fill.parts carry gap).2 rest
      else ⟨(change.fill.parts carry gap).2, .core x⟩ :: rebuild [] rest

theorem chars_parts (carry gap : List Char) (f : Fill) :
    chars (f.parts carry gap).1 ++ (f.parts carry gap).2 = carry ++ f.new?.getD gap := by
  cases f with
  | keep => rfl
  | blanks cs => rfl
  | wrap indent =>
    have hline := chars_lineEnd carry false
    simp only [Fill.parts, chars_cons, chars_nil, append_nil, hline, Fill.new?, Option.getD_some]
    simp [Stop.text]

/-- The new cells spell the text of the plan. -/
theorem chars_rebuild {plan : Plan} {s : Scanner} (h : Reads s plan.cells) (hne : plan ≠ [])
    (hdrop : plan.DropsCommas) (carry : List Char) :
    chars (plan.rebuild carry) = carry ++ plan.text := by
  induction plan generalizing s carry with
  | nil => exact absurd rfl hne
  | cons first rest ih =>
    obtain ⟨⟨gap, stop⟩, change⟩ := first
    rw [text_cons]
    cases stop with
    | line ret =>
      have hrest : chars (rebuild [] rest) = Plan.text rest := by
        cases rest with
        | nil => rfl
        | cons second rest =>
          have hread : Reads s.nextLine (cells (second :: rest)) := by cases h; assumption
          exact ih hread (cons_ne_nil _ _) hdrop.tail []
      have hline := chars_lineEnd (carry ++ change.fill.new?.getD gap) ret
      rw [rebuild, chars_cons, ← append_assoc, hline, hrest, hdrop.new?_of_line]
      simp
    | core x =>
      have hread : ∃ next, Reads next (cells rest) ∧ rest ≠ [] := by
        cases rest with
        | nil => cases h
        | cons second rest =>
          cases h with
          | core _ _ _ _ hrest => exact ⟨_, hrest, cons_ne_nil _ _⟩
      obtain ⟨next, hread, hne⟩ := hread
      have hparts := chars_parts carry gap change.fill
      rw [rebuild, chars_append]
      split
      next hdropped =>
        rw [ih hread hne hdrop.tail, ← append_assoc, hparts, Change.new?, if_pos hdropped]
        simp
      next hkept =>
        rw [chars_cons, ih hread hne hdrop.tail, ← append_assoc, hparts, Change.new?, if_neg hkept]
        simp

end Plan

end Cell

/-! ### The scanner on the new cells -/

namespace Scanner

variable {s s' next : Scanner} {x : Lexeme}

/-- A step can be made in any state with the same open blocks in the same mode, except that a colon
asks for a key before it. -/
theorem Takes.transfer (h : s.Takes x next) (hstate : s'.toLineState = s.toLineState)
    (hcolon : x.category = .colon → s'.afterKey = true) :
    ∃ next', s'.Takes x next' ∧ next'.toLineState = next.toLineState ∧
      (next' = next ∨ next.afterKey = s.afterKey ∧ next'.afterKey = s'.afterKey) := by
  obtain ⟨state, k'⟩ := s'
  obtain rfl : state = s.toLineState := hstate
  cases h with
  | comma => exact ⟨_, .comma, rfl, .inl rfl⟩
  | colon =>
    obtain rfl : k' = true := hcolon rfl
    exact ⟨_, .colon, rfl, .inl rfl⟩
  | openingQuote => exact ⟨_, .openingQuote, rfl, .inl rfl⟩
  | opening kind => exact ⟨_, .opening kind, rfl, .inl rfl⟩
  | closing h => exact ⟨_, .closing h, rfl, .inl rfl⟩
  | tag hne hname => exact ⟨_, .tag hne hname, rfl, .inl rfl⟩
  | key hc hown => exact ⟨_, .key hc hown, rfl, .inl rfl⟩
  | boolean v => exact ⟨_, .boolean v, rfl, .inl rfl⟩
  | number hc h => exact ⟨_, .number hc h, rfl, .inl rfl⟩
  | negative hc h => exact ⟨_, .negative hc h, rfl, .inl rfl⟩
  | lineComment => exact ⟨_, .lineComment, rfl, .inl rfl⟩
  | comment h => exact ⟨_, .comment h, rfl, .inl rfl⟩
  | openComment h => exact ⟨_, .openComment h, rfl, .inl rfl⟩
  | commentEnd h => exact ⟨_, .commentEnd h, rfl, .inr ⟨rfl, rfl⟩⟩
  | commentMore hne h => exact ⟨_, .commentMore hne h, rfl, .inr ⟨rfl, rfl⟩⟩
  | closingQuote => exact ⟨_, .closingQuote, rfl, .inr ⟨rfl, rfl⟩⟩
  | escape h => exact ⟨_, .escape h, rfl, .inr ⟨rfl, rfl⟩⟩
  | stringText h => exact ⟨_, .stringText h, rfl, .inr ⟨rfl, rfl⟩⟩

/-- Only a key leaves its mark on what follows. -/
theorem Takes.afterKey_eq_true (h : s.Takes x next) (hnext : next.afterKey = true) :
    x.category = .key ∨ s.afterKey = true ∧ x.category.tokenKind.isClosing = false ∧
      (s.mode = .string ∨ x.category.isComment = true) := by
  cases h with
  | key => exact .inl rfl
  | commentEnd | commentMore => exact .inr ⟨hnext, rfl, .inr rfl⟩
  | closingQuote | escape | stringText => exact .inr ⟨hnext, rfl, .inl rfl⟩
  | _ => cases hnext

theorem Takes.afterKey_of_colon (h : s.Takes x next) (hx : x.category = .colon) :
    s.afterKey = true := by
  cases h with
  | colon => rfl
  | number | negative => split at hx <;> cases hx
  | _ => cases hx

/-- A comma changes nothing but that a key is no longer the last lexeme. -/
theorem Takes.next_of_comma (h : s.Takes x next) (hx : x.category = .comma) :
    s.mode = .plain ∧ x.text = [','] ∧ next = s.nextLine := by
  cases h with
  | comma => exact ⟨rfl, rfl, rfl⟩
  | number | negative => split at hx <;> cases hx
  | _ => cases hx

theorem Takes.mode_of_isClosing (h : s.Takes x next) (hx : x.category.tokenKind.isClosing = true) :
    s.mode = .plain := by
  cases h with
  | closing => rfl
  | number | negative => split at hx <;> cases hx
  | _ => cases hx

/-- Outside of strings no lexeme ends with a carriage return. -/
theorem Takes.getLast?_ne_return (h : s.Takes x next) (hx : x.Whole) (hmode : next.mode ≠ .string) :
    x.text.getLast? ≠ some '\r' := by
  intro hlast
  cases hstring : x.category.inString with
  | false => cases hx.last hstring _ hlast
  | true =>
    cases h with
    | closingQuote => simp at hlast
    | openingQuote => exact hmode rfl
    | escape => exact hmode rfl
    | stringText => exact hmode rfl
    | number | negative => split at hstring <;> cases hstring
    | _ => cases hstring

/-- Most lexemes ask nothing of the next cell. -/
theorem Takes.meets (h : s.Takes x next) (hx : x.Whole) (hmode : next.mode ≠ .string)
    (hkey : x.category ≠ .key) {y : Cell}
    (hcomment : x.category = .lineComment ∨ next.mode = .comment → y.stop.isLine = true) :
    x.Meets next y :=
  ⟨fun hk => absurd hk hkey, fun ht => absurd (h.mode_of_stringText ht) hmode, hcomment,
    fun _ _ => h.getLast?_ne_return hx hmode⟩

end Scanner

theorem Lexeme.Meets.congr {x : Lexeme} {next next' : Scanner} {y : Cell} (h : x.Meets next y)
    (hstate : next'.toLineState = next.toLineState) : x.Meets next' y :=
  ⟨h.key, h.text, fun hc => h.comment (hc.imp_right fun hm => by rw [← hm, hstate]), h.feed⟩

namespace Cell

/-- The scanner on the old cells, in state `s`, and on the new ones, in state `s'`. -/
structure Tracks (s s' : Scanner) (spot : Spot) : Prop where
  state : s'.toLineState = s.toLineState
  key : s.afterKey = true → s'.afterKey = true ∧ spot.opened = false
  quoted : spot.quoted = true ↔ s.mode = .string
  string : s.mode = .string → spot.separated = false ∧ spot.opened = false

namespace Tracks

variable {s s' next next' : Scanner} {spot : Spot} {x : Lexeme} {width : Nat} {f : Fill}

theorem mode_eq (h : Tracks s s' spot) : s'.mode = s.mode := by rw [h.state]

theorem line (h : Tracks s s' spot) : Tracks s.nextLine s'.nextLine (spot.next .newline) where
  state := h.state
  key hkey := by cases hkey
  quoted := h.quoted
  string _ := ⟨rfl, rfl⟩

/-- Behind a stop that is kept. -/
theorem core (h : Tracks s s' spot) (htakes : s.Takes x next)
    (hstate : next'.toLineState = next.toLineState)
    (hkey : next.afterKey = true → next'.afterKey = true) :
    Tracks next next' (spot.next x.category.tokenKind) := by
  refine ⟨hstate, fun hnext => ⟨hkey hnext, ?_⟩, ?_, ?_⟩
  · rcases htakes.afterKey_eq_true hnext with hx | ⟨hs, -, hx⟩
    · rw [hx]
      rfl
    · rcases hx with hx | hx
      · cases htakes <;> first | rfl | cases hx
      · rw [Category.tokenKind_of_isComment hx]
        exact (h.key hs).2
  · have hquoted := h.quoted
    have hfloat : ∀ isFloat : Bool, Spot.quotes spot.quoted
        (if isFloat = true then Category.float else .integer).tokenKind = false := by
      intro isFloat
      cases isFloat <;> rfl
    rw [Spot.next]
    cases htakes with
    | lineComment | comment | openComment | commentEnd | commentMore =>
      simp_all [Spot.quotes, Category.tokenKind]
    | number => simp [hfloat]
    | negative => simp [hfloat]
    | _ => simp [Spot.quotes, Category.tokenKind]
  · intro hmode
    cases htakes <;> first | exact ⟨rfl, rfl⟩ | cases hmode

/-- Where a gap is replaced, no string runs on. -/
theorem mode_of_fills (h : Tracks s s' spot) {c : Cell} (hf : spot.Fills width c f)
    (hc : ∀ x, c.stop = .core x → ∃ next, s.Takes x next) : s.mode ≠ .string := by
  intro hmode
  obtain ⟨hseparated, hopened⟩ := h.string hmode
  have hquoted := h.quoted.2 hmode
  cases hf with
  | tail hq | head hq => simp [hquoted] at hq
  | @before _ x _ hx =>
    obtain ⟨next, htakes⟩ := hc x rfl
    cases htakes <;> simp_all
  | behind _ hs => simp [hseparated] at hs
  | @wrap _ x _ _ hx =>
    obtain ⟨next, htakes⟩ := hc x rfl
    rcases hx with hx | ⟨hx, -⟩
    · simp [htakes.mode_of_isClosing hx] at hmode
    · simp [hopened] at hx

theorem isBlank_of_mem_spaces {n : Nat} {c : Char} (h : c ∈ List.replicate n ' ') :
    Text.isBlank c = true ∧ c ≠ '\n' := by
  rw [eq_of_mem_replicate h]
  decide

/-- What is written in place of a gap on its line is blank. -/
theorem blank_of_fills {c : Cell} {cs : List Char}
    (hf : spot.Fills width c (.blanks cs)) : ∀ d ∈ cs, Text.isBlank d = true ∧ d ≠ '\n' := by
  cases hf with
  | tail => simp
  | head => exact fun d => isBlank_of_mem_spaces
  | before => simp
  | behind => simp [Text.isBlank]

theorem gapFits_replaced (h : Tracks s s' spot) {carry gap : List Char} {stop : Stop}
    (hcarry : s'.GapFits carry) (hgap : s.GapFits gap)
    (hstop : ∀ x, stop = .core x → ∃ next, s.Takes x next)
    (hf : f = .keep ∨ spot.Fills width ⟨gap, stop⟩ f) (hwrap : ∀ n, f ≠ .wrap n) :
    s'.GapFits (carry ++ f.new?.getD gap) := by
  rcases hf with rfl | hf
  · by_cases hmode : s'.mode = .string
    · rw [hcarry.string hmode, nil_append]
      exact ⟨hgap.blank, hgap.noFeed, fun hs => hgap.string (h.mode_eq ▸ hs)⟩
    · exact hcarry.append hgap.blank hgap.noFeed hmode
  · have hmode := h.mode_of_fills hf hstop
    cases f with
    | keep => cases hf
    | wrap n => exact absurd rfl (hwrap n)
    | blanks cs =>
      have hblank := blank_of_fills hf
      exact hcarry.append (fun d hd => (hblank d hd).1) (fun hd => (hblank _ hd).2 rfl)
        (h.mode_eq ▸ hmode)

/-- The gap of a stop is rebuilt: a state in which the stop can be read, and a gap before it. -/
theorem reads_parts (h : Tracks s s' spot) {carry gap : List Char} (htakes : s.Takes x next)
    (hcarry : s'.GapFits carry) (hgap : s.GapFits gap)
    (hf : f = .keep ∨ spot.Fills width ⟨gap, .core x⟩ f) :
    ∃ mid : Scanner, mid.toLineState = s.toLineState ∧ mid.GapFits (f.parts carry gap).2 ∧
      (x.category = .colon → mid.afterKey = true) ∧
      (next.afterKey = true → x.category = .key ∨ mid.afterKey = true) ∧
      ∀ cells, Reads mid cells → Reads s' ((f.parts carry gap).1 ++ cells) := by
  have hstop : ∀ y, Stop.core x = .core y → ∃ next, s.Takes y next := by
    rintro y ⟨⟩
    exact ⟨next, htakes⟩
  have hcolon : x.category = .colon → s'.afterKey = true := fun hx =>
    (h.key (htakes.afterKey_of_colon hx)).1
  have hkey : next.afterKey = true → x.category = .key ∨ s'.afterKey = true := fun hnext =>
    (htakes.afterKey_eq_true hnext).imp_right fun hs => (h.key hs.1).1
  cases f with
  | keep | blanks cs =>
    exact ⟨s', h.state, h.gapFits_replaced hcarry hgap hstop hf (by simp), hcolon, hkey,
      fun _ hr => hr⟩
  | wrap n =>
    have hfills : spot.Fills width ⟨gap, .core x⟩ (.wrap n) := hf.resolve_left (by simp)
    have hmode := h.mode_of_fills hfills hstop
    -- behind a key neither is a block opened nor does one end
    have hnot : s.afterKey = true → x.category.tokenKind.isClosing = true := by
      intro hs
      cases hfills with
      | wrap _ _ hx => exact hx.resolve_right fun ho => by simp [(h.key hs).2] at ho
    refine ⟨s'.nextLine, h.state, ⟨fun c hc => (isBlank_of_mem_spaces hc).1,
      fun hc => (isBlank_of_mem_spaces hc).2 rfl, fun hs => ?_⟩, ?_, ?_, ?_⟩
    · exact absurd (h.mode_eq ▸ hs) hmode
    · intro hx
      have := hnot (htakes.afterKey_of_colon hx)
      rw [hx] at this
      cases this
    · intro hnext
      refine (htakes.afterKey_eq_true hnext).imp_right fun ⟨hs, hclosing, _⟩ => ?_
      rw [hnot hs] at hclosing
      cases hclosing
    · exact fun cells hr => reads_lineEnd hcarry hr

end Tracks

section

variable {s : Scanner} {y : Cell} {cells : List Cell}

theorem Reads.exists_takes (h : Reads s (y :: cells)) :
    ∀ x, y.stop = .core x → ∃ next, s.Takes x next := by
  rintro x hx
  cases h with
  | line => cases hx
  | core _ htakes =>
    obtain rfl := Stop.core.inj hx
    exact ⟨_, htakes⟩

/-- What is known of a cell that is no end of a line. -/
theorem Reads.of_core {gap : List Char} {x : Lexeme} (h : Reads s (⟨gap, .core x⟩ :: cells)) :
    ∃ next, s.Takes x next ∧ x.Whole ∧ Reads next cells := by
  cases h with
  | core _ htakes hwhole _ hrest => exact ⟨_, htakes, hwhole, hrest⟩

theorem Reads.exists_tail (h : Reads s (y :: cells)) : ∃ next, Reads next cells := by
  cases h <;> exact ⟨_, by assumption⟩

theorem Reads.gapFits (h : Reads s (y :: cells)) : s.GapFits y.gap := by
  cases h <;> assumption

end

namespace Plan

variable {width : Nat} {s s' : Scanner} {spot : Spot} {change : Change} {rest : Plan}

theorem rebuild_ne_nil {plan : Plan} (h : Reads s plan.cells) (hne : plan ≠ [])
    (carry : List Char) : plan.rebuild carry ≠ [] := by
  induction plan generalizing s carry with
  | nil => exact absurd rfl hne
  | cons first rest ih =>
    obtain ⟨⟨gap, stop⟩, change⟩ := first
    cases stop with
    | line ret => exact cons_ne_nil _ _
    | core x =>
      rw [rebuild]
      split
      · cases rest with
        | nil => cases h
        | cons second rest =>
          cases h with
          | core _ _ _ _ hrest => simp [ih hrest (cons_ne_nil _ _)]
      · simp

/-- Inside of strings nothing changes. -/
theorem rebuild_string {y : Cell} (ht : Tracks s s' spot) (hmode : s.mode = .string)
    (h : Reads s (y :: cells rest)) (hfollows : Follows width spot ((y, change) :: rest)) :
    rebuild [] ((y, change) :: rest) = y :: rebuild [] rest := by
  have hkeep : change.fill = .keep :=
    hfollows.1.resolve_right fun hf => ht.mode_of_fills hf h.exists_takes hmode
  obtain ⟨gap, stop⟩ := y
  obtain rfl : gap = [] := h.gapFits.string hmode
  cases stop with
  | line ret =>
    rw [rebuild, hkeep]
    simp [Fill.new?, lineEnd]
  | core x =>
    have hdrop : ¬change.drop = true := by
      intro hd
      obtain ⟨⟨blocks, hcomma⟩, -⟩ := hfollows.2.1 hd
      obtain ⟨next, htakes⟩ := h.exists_takes x rfl
      obtain rfl := Stop.core.inj hcomma
      simp [(htakes.next_of_comma rfl).1] at hmode
    rw [rebuild, hkeep, if_neg hdrop]
    rfl

/-- The colon of a key stays behind it. -/
theorem rebuild_colon {gap : List Char} {blocks : List BlockKind}
    (hfollows : Follows width (spot.next .key)
      ((⟨gap, .core ⟨[':'], .colon, blocks⟩⟩, change) :: rest)) :
    ∃ gap', rebuild [] ((⟨gap, .core ⟨[':'], .colon, blocks⟩⟩, change) :: rest) =
      ⟨gap', .core ⟨[':'], .colon, blocks⟩⟩ :: rebuild [] rest ∧ (gap' = gap ∨ gap' = []) := by
  have hdrop : ¬change.drop = true := by
    intro hd
    obtain ⟨⟨blocks, hcomma⟩, -⟩ := hfollows.2.1 hd
    cases hcomma
  rw [rebuild, if_neg hdrop]
  rcases hfollows.1 with hkeep | hf
  · rw [hkeep]
    exact ⟨gap, rfl, .inl rfl⟩
  · generalize change.fill = f at hf
    cases hf with
    | head _ hrow => cases hrow
    | before => exact ⟨[], rfl, .inr rfl⟩
    | behind _ hs => cases hs
    | wrap _ _ hx => rcases hx with hx | ⟨hx, -⟩ <;> cases hx

/-- What a lexeme asks of the next cell, it finds in the new one. -/
theorem meets_rebuild {x : Lexeme} {next next' : Scanner} {y : Cell}
    (ht : Tracks next next' (spot.next x.category.tokenKind)) (htakes : s.Takes x next)
    (hwhole : x.Whole) (hmeets : x.Meets next y) (h : Reads next (y :: cells rest))
    (hfollows : Follows width (spot.next x.category.tokenKind) ((y, change) :: rest)) {y' : Cell}
    {others : List Cell} (hy' : rebuild [] ((y, change) :: rest) = y' :: others) :
    x.Meets next y' := by
  by_cases hmode : next.mode = .string
  · rw [rebuild_string ht hmode h hfollows] at hy'
    obtain ⟨rfl, -⟩ := List.cons.inj hy'
    exact hmeets
  by_cases hkey : x.category = .key
  · obtain ⟨hblanks, blocks, hcolon⟩ := hmeets.key hkey
    obtain ⟨gap, stop⟩ := y
    obtain rfl : stop = _ := hcolon
    rw [hkey] at hfollows
    obtain ⟨gap', heq, hgap'⟩ := rebuild_colon hfollows
    rw [heq] at hy'
    obtain ⟨rfl, -⟩ := List.cons.inj hy'
    refine ⟨fun _ => ⟨?_, blocks, rfl⟩, fun hx => by simp [hkey] at hx, fun hx => ?_, by simp⟩
    · rcases hgap' with rfl | rfl
      · exact hblanks
      · simp
    · obtain ⟨blocks', hnext⟩ := htakes.next_of_key hkey
      simp [hkey, hnext] at hx
  · refine htakes.meets hwhole hmode hkey fun hcomment => ?_
    obtain ⟨gap, stop⟩ := y
    cases stop with
    | core z => cases hmeets.comment hcomment
    | line ret =>
      rw [rebuild] at hy'
      obtain ⟨rfl, -⟩ := List.cons.inj hy'
      exact isLine_lineEnd _ _

/-- **The new cells are cut as the scanner cuts them.** -/
theorem reads_rebuild {plan : Plan} (h : Reads s plan.cells) (hfollows : plan.Follows width spot)
    (ht : Tracks s s' spot) {carry : List Char} (hcarry : s'.GapFits carry) :
    Reads s' (plan.rebuild carry) := by
  -- two scanners run side by side, `s` over the old cells and `s'` over the new ones
  induction plan generalizing s s' spot carry with
  | nil => exact .nil
  | cons first rest ih =>
    obtain ⟨⟨gap, stop⟩, change⟩ := first
    obtain ⟨hfill, hdrop, hrests⟩ := hfollows
    cases stop with
    | line ret =>
      rw [rebuild]
      have hread : Reads s.nextLine (cells rest) := by cases h; assumption
      refine reads_lineEnd (ht.gapFits_replaced hcarry h.gapFits h.exists_takes hfill ?_)
        (ih hread hrests ht.line (Scanner.gapFits_nil _))
      intro n hn
      rw [hn] at hfill
      rcases hfill with hfill | hfill <;> cases hfill
    | core x =>
      cases rest with
      | nil => cases h
      | cons second rest =>
        obtain ⟨y, change'⟩ := second
        cases h with
        | @core _ next _ _ _ _ hgap htakes hwhole hmeets hread =>
          obtain ⟨mid, hmid, hfits, hcolon, hkey, hlead⟩ := ht.reads_parts htakes hcarry hgap hfill
          rw [rebuild]
          refine hlead _ ?_
          split
          next hdropped =>
            -- the gap in front of a comma that is dropped joins the one behind it
            obtain ⟨⟨blocks, hcomma⟩, -⟩ := hdrop hdropped
            obtain rfl := Stop.core.inj hcomma
            obtain ⟨hmode, -, rfl⟩ := htakes.next_of_comma rfl
            have hplain : s.nextLine.mode ≠ .string := by
              rw [Scanner.nextLine, hmode]
              simp
            refine ih hread hrests ⟨hmid, ?_, ⟨?_, ?_⟩, ?_⟩ hfits
            · rintro ⟨⟩
            · rintro ⟨⟩
            · exact fun hs => absurd hs hplain
            · exact fun hs => absurd hs hplain
          next hkept =>
            obtain ⟨next', htakes', hstate, hafter⟩ := htakes.transfer hmid hcolon
            have hkey' : next.afterKey = true → next'.afterKey = true := by
              intro hnext
              rcases hkey hnext with hx | hx
              · obtain ⟨blocks, hnext'⟩ := htakes'.next_of_key hx
                rw [hnext']
              · rcases hafter with rfl | ⟨-, hafter⟩
                · exact hnext
                · rw [hafter, hx]
            have ht' := ht.core htakes hstate hkey'
            have hread' := ih hread hrests ht' (Scanner.gapFits_nil _)
            obtain ⟨y', others, hy'⟩ := exists_cons_of_ne_nil
              (rebuild_ne_nil hread (cons_ne_nil _ _) [])
            have hmeets' := meets_rebuild ht' htakes hwhole hmeets hread hrests hy'
            rw [hy'] at hread' ⊢
            exact .core hfits htakes' hwhole (hmeets'.congr hstate) hread'

end Plan

end Cell

/-! ### Configs on the new cells -/

/-- The config of the old cells and that of the new ones, given whether a line or a block ends next.
They differ in the phase of the innermost block only: behind a comma that was taken away at its
start, and where the block or the line ends anyway. -/
inductive Config.Sim : Config → Config → Bool → Prop
  | same {c : Config} {ends : Bool} : Sim c c ends
  | fresh {l : Level} {outer : List Level} {ends : Bool} (hkind : l.kind.isSome = true) :
    Sim ⟨{ l with phase := .comma }, outer, .nothing⟩ ⟨{ l with phase := .fresh }, outer, .nothing⟩
      ends
  | ends {l : Level} {outer : List Level} {phase phase' : Phase} {wait wait' : Wait}
      (hkind : l.kind.isSome = true) (hphase : phase ≠ .key) (hphase' : phase' ≠ .key)
      (hwait : wait ≠ .quote) (hwait' : wait' ≠ .quote) :
    Sim ⟨{ l with phase := phase }, outer, wait⟩ ⟨{ l with phase := phase' }, outer, wait'⟩ true

/-- What a spot tells of a config. -/
structure Config.Knows (spot : Cell.Spot) (c : Config) : Prop where
  fresh : spot.fresh = true →
    c.wait = .quote ∨ c.level.kind = none ∨ c.wait = .nothing ∧
      (c.level.phase = .fresh ∨ c.level.phase = .key)
  opened : spot.opened = true → c.level.phase = .fresh ∧ c.wait = .nothing ∧
    c.level.kind.isSome = true

namespace Config

variable {c c' d : Config} {m : Mark}

/-- A mark outside of strings is read whatever else is awaited. -/
theorem step_of_wait (hwait : c.wait ≠ .quote) (hignored : m.kind ≠ .ignored)
    (hcolon : m.kind ≠ .colon) :
    c.step m = ({ c with wait := .nothing } : Config).read m ∨ c.wait = .payload ∧
      c.step m = c.read m := by
  obtain ⟨level, outer, wait⟩ := c
  rw [step, if_neg hignored]
  cases wait with
  | nothing => exact .inl rfl
  | payload => exact .inr ⟨rfl, rfl⟩
  | colon => exact .inl (if_neg hcolon)
  | quote => exact absurd rfl hwait

theorem step_newline (hwait : c.wait ≠ .quote) (hm : m.kind = .newline) :
    c.step m = some ⟨c.level.newline, c.outer, .nothing⟩ := by
  rcases step_of_wait hwait (by simp [hm]) (by simp [hm] : m.kind ≠ .colon) with h | ⟨-, h⟩ <;>
    simp [h, read, hm]

theorem step_closing (hwait : c.wait ≠ .quote) {kind : BlockKind}
    (hm : m.kind = .bracket kind .closing) : c.step m = c.leave kind := by
  rcases step_of_wait hwait (by simp [hm]) (by simp [hm] : m.kind ≠ .colon) with h | ⟨-, h⟩ <;>
    simp [h, read, hm, leave]

theorem wait_of_step (h : c.step m = some d) (hm : m.kind = .comma ∨ m.kind.isClosing = true) :
    c.wait ≠ .quote := by
  intro hwait
  rw [step, hwait] at h
  rcases hm with hm | hm
  · simp [hm, readInString] at h
  · cases hkind : m.kind with
    | bracket kind side => simp [hkind, readInString] at h
    | _ => simp [hkind, TokenKind.isClosing] at hm

/-- A comma stands in a block, at its start or behind an item. -/
theorem step_comma (h : c.step m = some d) (hm : m.kind = .comma) :
    c.level.kind.isSome = true ∧ (c.level.phase = .fresh ∨ c.level.phase = .item) ∧
      d = ⟨{ c.level with phase := .comma }, c.outer, .nothing⟩ := by
  have hput : c.put comma .nothing = some d := by
    rcases step_of_wait (wait_of_step h (.inl hm)) (by simp [hm])
      (by simp [hm] : m.kind ≠ .colon) with
      hs | ⟨-, hs⟩
    · rw [hs, read, hm] at h
      exact h
    · rw [hs, read, hm] at h
      exact h
  obtain ⟨l, hl, rfl⟩ := Option.map_eq_some_iff.1 hput
  simp only [comma, Option.ite_none_right_eq_some, Option.some.injEq, Bool.and_eq_true,
    Bool.or_eq_true, beq_iff_eq] at hl
  exact ⟨hl.1.1, hl.1.2, by rw [← hl.2]⟩

theorem step_opening (h : c.step m = some d) {kind : BlockKind}
    (hm : m.kind = .bracket kind .opening) : d.level = .inside kind ∧ d.wait = .nothing := by
  have hread {e : Config} (he : e.read m = some d) : d.level = .inside kind ∧
      d.wait = .nothing := by
    simp only [read, hm] at he
    split at he
    · cases he
      exact ⟨rfl, rfl⟩
    · obtain ⟨f, -, rfl⟩ := Option.map_eq_some_iff.1 he
      exact ⟨rfl, rfl⟩
  by_cases hwait : c.wait = .quote
  · simp [step, hwait, hm, readInString] at h
  · rcases step_of_wait hwait (by simp [hm]) (by simp [hm] : m.kind ≠ .colon) with hs | ⟨-, hs⟩
    · exact hread (hs ▸ h)
    · exact hread (hs ▸ h)

theorem knows_start : Knows {} {} :=
  ⟨fun h => (Bool.false_ne_true h).elim, fun h => (Bool.false_ne_true h).elim⟩

/-- A spot goes on telling of a config along the marks. -/
theorem Knows.step {spot : Cell.Spot} (h : Knows spot c) (hm : c.step m = some d) :
    Knows (spot.next m.kind) d := by
  have hother (hfresh : Cell.Spot.starts spot.fresh m.kind = false)
      (hopened : Cell.Spot.opens spot.opened m.kind = false) : Knows (spot.next m.kind) d :=
    ⟨fun hf => by simp [Cell.Spot.next, hfresh] at hf,
      fun ho => by simp [Cell.Spot.next, hopened] at ho⟩
  cases hkind : m.kind with
  | ignored =>
    rw [step_of_ignored _ hkind, Option.some.injEq] at hm
    subst hm
    exact ⟨h.fresh, h.opened⟩
  | newline =>
    refine ⟨fun _ => ?_, fun ho => by simp [Cell.Spot.next, Cell.Spot.opens] at ho⟩
    by_cases hwait : c.wait = .quote
    · rw [Config.step, hwait] at hm
      simp only [hkind, readInString, reduceCtorEq, if_false, Option.some.injEq] at hm
      exact .inl (hm ▸ hwait)
    · rw [step_newline hwait hkind, Option.some.injEq] at hm
      subst hm
      refine .inr ?_
      cases hlevel : c.level.kind with
      | none => exact .inl (by simp [newline, hlevel])
      | some kind =>
        refine .inr ⟨rfl, ?_⟩
        by_cases hkey : c.level.phase = .key <;> simp [newline, hlevel, hkey]
  | bracket kind side =>
    cases side with
    | closing => rw [← hkind]; exact hother (by rw [hkind]; rfl) (by rw [hkind]; rfl)
    | opening =>
      have henter := step_opening hm hkind
      have hlevel : d.level.phase = .fresh ∧ d.wait = .nothing ∧ d.level.kind.isSome = true := by
        rw [henter.1]
        exact ⟨rfl, henter.2, rfl⟩
      exact ⟨fun _ => .inr (.inr ⟨hlevel.2.1, .inl hlevel.1⟩), fun _ => hlevel⟩
  | _ => rw [← hkind]; exact hother (by rw [hkind]; rfl) (by rw [hkind]; rfl)

/-- Behind a comma all that may come may come at the start of a block as well. -/
theorem read_fresh_of_comma {l : Level} {outer : List Level} (hkind : l.kind.isSome = true)
    (h : read ⟨{ l with phase := .comma }, outer, .nothing⟩ m = some d) :
    read ⟨{ l with phase := .fresh }, outer, .nothing⟩ m = some d := by
  obtain ⟨kind, phase, keys⟩ := l
  obtain ⟨block, rfl⟩ := Option.isSome_iff_exists.1 hkind
  have hvalue : value ⟨some block, .fresh, keys⟩ =
      value ⟨some block, .comma, keys⟩ := by
    cases block <;> rfl
  have hkey (name : String) : key ⟨some block, .fresh, keys⟩ name =
      key ⟨some block, .comma, keys⟩ name := rfl
  cases hm : m.kind with
  | comma => simp [read, hm, put, comma] at h
  | newline => simpa [read, hm, newline] using h
  | quote side => cases side <;> simpa only [read, hm, put, hvalue] using h
  | bracket kind side =>
    cases side with
    | opening => simpa [read, hm, put, enter, hvalue] using h
    | closing => simpa [read, hm, leave, isComplete] using h
  | _ => simpa only [read, hm, put, hvalue, hkey] using h

namespace Sim

variable {y : Cell} {cells : List Cell}

/-- What the old config reads, the new one reads. -/
theorem step (h : Sim c c' (Cell.ends (y :: cells))) (hd : c.step y.stop.mark = some d) :
    ∃ d', c'.step y.stop.mark = some d' ∧ Sim d d' (Cell.ends cells) := by
  generalize hends : Cell.ends (y :: cells) = ends at h
  by_cases hignored : y.stop.mark.kind = .ignored
  · rw [step_of_ignored _ hignored, Option.some.injEq] at hd
    subst hd
    simp only [Cell.ends, hignored] at hends
    exact ⟨c', step_of_ignored _ hignored, hends ▸ h⟩
  cases h with
  | same => exact ⟨d, hd, .same⟩
  | fresh hkind =>
    rw [Config.step, if_neg hignored] at hd
    refine ⟨d, ?_, .same⟩
    rw [Config.step, if_neg hignored]
    exact read_fresh_of_comma hkind hd
  | ends hkind hphase hphase' hwait hwait' =>
    refine ⟨d, ?_, .same⟩
    cases hy : y.stop.mark.kind with
    | newline =>
      rw [step_newline hwait hy] at hd
      rw [step_newline hwait' hy, ← hd]
      simp [newline, hkind, hphase, hphase']
    | bracket kind side =>
      cases side with
      | opening => simp [Cell.ends, hy] at hends
      | closing =>
        rw [step_closing hwait hy] at hd
        rw [step_closing hwait' hy, ← hd]
        simp [leave, isComplete, hphase, hphase']
    | _ => simp_all [Cell.ends]

/-- A line may be ended in front of a closing bracket and behind an opening one. -/
theorem wrap {spot : Cell.Spot} (h : Sim c c' (Cell.ends (y :: cells))) (hknows : Knows spot c)
    (hd : c.step y.stop.mark = some d)
    (hy : y.stop.mark.kind.isClosing = true ∨ spot.opened = true) :
    ∃ d', c'.step ⟨.newline, "\n"⟩ = some d' ∧ Sim c d' (Cell.ends (y :: cells)) := by
  generalize hends : Cell.ends (y :: cells) = ends at h
  cases h with
  | fresh hkind =>
    refine ⟨_, step_newline (by simp) rfl, ?_⟩
    simpa [newline, hkind] using Sim.fresh hkind
  | ends hkind hphase hphase' hwait hwait' =>
    refine ⟨_, step_newline hwait' rfl, ?_⟩
    simpa [newline, hkind, hphase'] using Sim.ends hkind hphase (by simp) hwait (by simp)
  | same =>
    obtain ⟨⟨kind, phase, keys⟩, outer, wait⟩ := c
    rcases hy with hclosing | hopened
    · have hwait := wait_of_step hd (.inr hclosing)
      obtain ⟨block, hblock⟩ := TokenKind.isClosing_iff.1 hclosing
      obtain ⟨hkind, hphase⟩ : kind = some block ∧ phase ≠ .key := by
        rw [step_closing hwait hblock, leave] at hd
        split at hd
        · cases hd
        · simpa [isComplete] using (Option.ite_none_right_eq_some.1 hd).1
      have hends' : ends = true := by simpa [Cell.ends, hblock] using hends.symm
      subst hkind hends'
      exact ⟨_, step_newline hwait rfl, by
        simpa [newline, hphase] using
          Sim.ends (l := ⟨some block, .fresh, keys⟩) rfl hphase (by simp) hwait (by simp)⟩
    · obtain ⟨rfl, rfl, hkind⟩ := hknows.opened hopened
      refine ⟨_, step_newline (by simp) rfl, ?_⟩
      simpa [newline, hkind] using Sim.same

/-- A needless comma may be left out. -/
theorem skip {spot : Cell.Spot} (h : Sim c c' (Cell.ends (y :: cells))) (hknows : Knows spot c)
    (hd : c.step y.stop.mark = some d) (hy : spot.Needless y cells) :
    Sim d c' (Cell.ends cells) := by
  obtain ⟨⟨blocks, hstop⟩, hplace⟩ := hy
  have hcomma : y.stop.mark.kind = .comma := by rw [hstop]; rfl
  have hwait := wait_of_step hd (.inl hcomma)
  obtain ⟨hkind, hphase, rfl⟩ := step_comma hd hcomma
  have hends : Cell.ends (y :: cells) = false := by simp [Cell.ends, hcomma]
  rw [hends] at h
  cases h with
  | fresh => simp at hphase
  | same =>
    obtain ⟨⟨kind, phase, keys⟩, outer, wait⟩ := c
    dsimp only at hkind hphase hwait ⊢
    rcases hplace with hfresh | hends
    · rcases hknows.fresh hfresh with hquote | hnone | ⟨rfl, hstart⟩
      · exact absurd hquote hwait
      · simp only at hnone
        simp [hnone] at hkind
      · obtain rfl : phase = .fresh := by
          rcases hphase with hphase | rfl
          · exact hphase
          · simp at hstart
        exact Sim.fresh (l := ⟨kind, .fresh, keys⟩) hkind
    · have hkey : phase ≠ .key := by rcases hphase with rfl | rfl <;> simp
      rw [hends]
      exact Sim.ends (l := ⟨kind, phase, keys⟩) hkind (by simp) hkey (by simp) hwait

end Sim

end Config

namespace Cell

namespace Plan

variable {spot : Spot} {width : Nat} {c c' d last : Config}

/-- The lines that end in front of a stop are read. -/
theorem run_parts {gap : List Char} {x : Lexeme} {f : Fill} {behind : List Cell}
    (hf : f = .keep ∨ spot.Fills width ⟨gap, .core x⟩ f) (hknows : c.Knows spot)
    (hsim : c.Sim c' (ends (⟨gap, .core x⟩ :: behind))) (hd : c.step (Stop.core x).mark = some d)
    (carry : List Char) :
    ∃ d', c'.run (marks (f.parts carry gap).1) = some d' ∧
      c.Sim d' (ends (⟨gap, .core x⟩ :: behind)) := by
  cases f with
  | keep | blanks cs => exact ⟨c', rfl, hsim⟩
  | wrap indent =>
    rcases hf with hf | hf
    · cases hf
    · cases hf with
      | wrap _ hrow hx =>
        obtain ⟨d', hd', hsim'⟩ := hsim.wrap hknows hd (hx.imp_right And.left)
        refine ⟨d', ?_, hsim'⟩
        simp [Fill.parts, marks_cons, mark_lineEnd, Config.run_cons, hd']

/-- The stops of the new cells are read if those of the old ones are. -/
theorem run_rebuild {plan : Plan} (hfollows : plan.Follows width spot) (hknows : c.Knows spot)
    (hsim : c.Sim c' (ends plan.cells)) (hrun : c.run (marks plan.cells) = some last)
    (carry : List Char) :
    ∃ last', c'.run (marks (plan.rebuild carry)) = some last' ∧ last.Sim last' false := by
  induction plan generalizing spot c c' carry with
  | nil =>
    cases hrun
    exact ⟨c', rfl, hsim⟩
  | cons first rest ih =>
    obtain ⟨⟨gap, stop⟩, change⟩ := first
    obtain ⟨hfill, hdrop, hrest⟩ := hfollows
    have hmarks : marks (cells ((⟨gap, stop⟩, change) :: rest)) = stop.mark :: marks (cells rest) :=
      rfl
    rw [hmarks, Config.run_cons] at hrun
    obtain ⟨d, hd, hruns⟩ := Option.bind_eq_some_iff.1 hrun
    have hknows' := hknows.step hd
    cases stop with
    | line ret =>
      obtain ⟨d', hd', hsim'⟩ := hsim.step hd
      have hline : c'.step ⟨.newline, "\n"⟩ = some d' := hd'
      obtain ⟨last', hlast, hsame⟩ := ih hrest hknows' hsim' hruns []
      refine ⟨last', ?_, hsame⟩
      rw [rebuild, marks_cons, mark_lineEnd, Config.run_cons, hline]
      exact hlast
    | core x =>
      obtain ⟨e, he, hparts⟩ := run_parts hfill hknows hsim hd carry
      rw [rebuild, marks_append, Config.run_append, he, Option.bind_some]
      split
      next hdropped => exact ih hrest hknows' (hparts.skip hknows hd (hdrop hdropped)) hruns _
      next =>
        obtain ⟨d', hd', hsim'⟩ := hparts.step hd
        obtain ⟨last', hlast, hsame⟩ := ih hrest hknows' hsim' hruns []
        refine ⟨last', ?_, hsame⟩
        rw [marks_cons, Config.run_cons, hd']
        exact hlast

/-- What a plan that follows the layout makes of an accepted text is accepted. -/
theorem accepts_rebuild {plan : Plan} (hfollows : plan.Follows width {})
    (h : Config.accepts (marks plan.cells) = true) :
    Config.accepts (marks (plan.rebuild [])) = true := by
  obtain ⟨last, hrun, hfinal⟩ := (Option.any_eq_true _ _).1 h
  obtain ⟨last', hrun', hsim⟩ := run_rebuild hfollows Config.knows_start .same hrun []
  have hitem : last.level.phase = .item := by
    simp only [Config.isFinal, Bool.and_eq_true, beq_iff_eq] at hfinal
    exact hfinal.1.2
  cases hsim with
  | fresh => simp at hitem
  | same =>
    rw [Config.accepts, hrun']
    exact hfinal

end Plan

end Cell

end TypedNotation
