import TypedNotation.Proofs.BracketDepth
import TypedNotation.Proofs.CellEdits

/-!
# Plans that follow the layout

What the layout asks of a gap depends on the cell and on the stops before it, of which a `Cell.Spot`
keeps what counts: how many brackets are open, whether a string runs on, and what stands directly
before. `Cell.Spot.Fills` lists the replacements of a gap, and `Cell.Spot.Needless` says which comma
may be taken away. A plan *follows* the layout if all that it changes is one of these.

Of edits that each are one of these, the ones that are kept together are the edits of a plan that
follows the layout (`Cell.exists_follows`): in the order of their places no two of them have the
same range, and along the cells the ranges of gaps and stops come in that order.
-/

namespace TypedNotation

open List

namespace Cell

/-! ### Spots -/

/-- What of the stops in front of a cell its layout depends on. -/
structure Spot where
  /-- The number of open brackets. -/
  depth : Int := 0
  /-- Whether a string runs on. -/
  quoted : Bool := false
  /-- Whether something stands on the line already. -/
  inRow : Bool := false
  /-- Whether the last stop is a separator. -/
  separated : Bool := false
  /-- Whether the last stop is an opening bracket, comments left out. -/
  opened : Bool := false
  /-- Whether the last stop is an opening bracket or the end of a line, comments left out. -/
  fresh : Bool := false

namespace Spot

/-- Whether a string runs on behind a stop, given whether one runs on before it. -/
def quotes (before : Bool) : TokenKind → Bool
  | .quote .opening | .stringText _ => true
  | .newline | .ignored => before
  | _ => false

/-- Whether a block has just been opened behind a stop, given whether one has before it. -/
def opens (before : Bool) : TokenKind → Bool
  | .bracket _ .opening => true
  | .ignored => before
  | _ => false

/-- Whether a block or a line has just started behind a stop, given whether one has before it. -/
def starts (before : Bool) : TokenKind → Bool
  | .bracket _ .opening | .newline => true
  | .ignored => before
  | _ => false

/-- Behind one more stop. -/
def next (s : Spot) (k : TokenKind) : Spot where
  depth := s.depth + k.turn
  quoted := quotes s.quoted k
  inRow := k != .newline
  separated := k == .comma || k == .colon
  opened := opens s.opened k
  fresh := starts s.fresh k

/-- Behind some stops. -/
def run (s : Spot) (ks : List TokenKind) : Spot :=
  ks.foldl next s

@[simp] theorem run_nil (s : Spot) : s.run [] = s := rfl

@[simp] theorem run_cons (s : Spot) (k : TokenKind) (ks : List TokenKind) :
    s.run (k :: ks) = (s.next k).run ks := rfl

theorem run_append (s : Spot) (ks ls : List TokenKind) : s.run (ks ++ ls) = (s.run ks).run ls :=
  foldl_append

/-- The indent of a line that starts with a stop. -/
def indent (s : Spot) (width : Nat) (k : TokenKind) : Nat :=
  width * (s.depth - if k.isClosing then 1 else 0).toNat

/-- What the layout writes in place of a gap: nothing at the end of a line, the indent at its start,
nothing before a separator, one space behind it, and a line break before a closing bracket or behind
an opening one. -/
inductive Fills (s : Spot) (width : Nat) : Cell → Fill → Prop
  | tail {gap : List Char} {ret : Bool} (hquoted : s.quoted = false) (hgap : gap ≠ []) :
    Fills s width ⟨gap, .line ret⟩ (.blanks [])
  | head {gap : List Char} {x : Lexeme} (hquoted : s.quoted = false) (hrow : s.inRow = false)
      (hgap : gap ≠ List.replicate (s.indent width x.category.tokenKind) ' ') :
    Fills s width ⟨gap, .core x⟩
      (.blanks (List.replicate (s.indent width x.category.tokenKind) ' '))
  | before {gap : List Char} {x : Lexeme} (hrow : s.inRow = true)
      (hx : x.category = .comma ∨ x.category = .colon) (hgap : gap ≠ []) :
    Fills s width ⟨gap, .core x⟩ (.blanks [])
  | behind {gap : List Char} {x : Lexeme} (hrow : s.inRow = true) (hseparated : s.separated = true)
      (hx : x.category ≠ .comma ∧ x.category ≠ .colon) (hgap : Text.units16 gap ≠ 1) :
    Fills s width ⟨gap, .core x⟩ (.blanks [' '])
  | wrap {gap : List Char} {x : Lexeme} (indent : Nat) (hrow : s.inRow = true)
      (hx : x.category.tokenKind.isClosing = true ∨ s.opened = true ∧
        x.category.isComment = false) :
    Fills s width ⟨gap, .core x⟩ (.wrap indent)

end Spot

/-- Whether a line or a block ends, comments left out. -/
def ends : List Cell → Bool
  | [] => false
  | c :: cells =>
    match c.stop.mark.kind with
    | .ignored => ends cells
    | .newline | .bracket _ .closing => true
    | _ => false

/-- A comma separates nothing: no item is before it, or none behind it. -/
def Spot.Needless (s : Spot) (c : Cell) (behind : List Cell) : Prop :=
  (∃ blocks, c.stop = .core ⟨[','], .comma, blocks⟩) ∧ (s.fresh = true ∨ ends behind = true)

/-- A plan changes nothing but what the layout asks for. -/
def Plan.Follows (width : Nat) : Spot → Plan → Prop
  | _, [] => True
  | s, (c, change) :: rest =>
    (change.fill = .keep ∨ s.Fills width c change.fill) ∧
      (change.drop = true → s.Needless c (cells rest)) ∧
      Follows width (s.next c.stop.mark.kind) rest

/-- An edit is one that the layout asks for. -/
def Allows (width : Nat) : Spot → Position → List Cell → Edit → Prop
  | _, _, [], _ => False
  | s, p, c :: cells, e =>
    (∃ f, s.Fills width c f ∧ editOf (c.gapRange p) f.new? = [e]) ∨
      (s.Needless c cells ∧ editOf (c.stopRange p) (some []) = [e]) ∨
      Allows width (s.next c.stop.mark.kind) (c.after p) cells e

/-- The kinds of some stops. -/
def kinds (cells : List Cell) : List TokenKind :=
  cells.map (·.stop.mark.kind)

/-- The place behind some cells. -/
def place (p : Position) (cells : List Cell) : Position :=
  cells.foldl (fun p c => c.after p) p

@[simp] theorem place_nil (p : Position) : place p [] = p := rfl

@[simp] theorem place_cons (p : Position) (c : Cell) (cells : List Cell) :
    place p (c :: cells) = place (c.after p) cells := rfl

/-- A gap may be replaced where it stands. -/
theorem allows_of_fills {width : Nat} {s : Spot} {p : Position} {front behind : List Cell}
    {c : Cell} {f : Fill} {e : Edit} (hf : (s.run (kinds front)).Fills width c f)
    (he : editOf (c.gapRange (place p front)) f.new? = [e]) :
    Allows width s p (front ++ c :: behind) e := by
  induction front generalizing s p with
  | nil => exact .inl ⟨f, hf, he⟩
  | cons d front ih => exact .inr (.inr (ih hf he))

/-- A comma may be taken away where it stands. -/
theorem allows_of_needless {width : Nat} {s : Spot} {p : Position} {front behind : List Cell}
    {c : Cell} {e : Edit} (hc : (s.run (kinds front)).Needless c behind)
    (he : editOf (c.stopRange (place p front)) (some []) = [e]) :
    Allows width s p (front ++ c :: behind) e := by
  induction front generalizing s p with
  | nil => exact .inr (.inl ⟨hc, he⟩)
  | cons d front ih => exact .inr (.inr (ih hc he))

end Cell

/-! ### The order of ranges -/

/-- Ranges in the order of their starts, and of their stops if they start together. -/
def Range.Before (a b : Range) : Prop :=
  a.start < b.start ∨ a.start = b.start ∧ a.stop < b.stop

namespace Range

theorem not_before_self (a : Range) : ¬a.Before a := by
  simp [Before, Position.lt_def]

theorem Before.trans {a b c : Range} (hab : a.Before b) (hbc : b.Before c) : a.Before c := by
  obtain ⟨⟨al, ac⟩, ⟨al', ac'⟩⟩ := a
  obtain ⟨⟨bl, bc⟩, ⟨bl', bc'⟩⟩ := b
  obtain ⟨⟨cl, cc⟩, ⟨cl', cc'⟩⟩ := c
  simp only [Before, Position.lt_def, Position.mk.injEq] at *
  omega

end Range

namespace Edit

/-- The order in which edits are made. -/
theorem le_iff (a b : Edit) :
    (decide (a.range.start < b.range.start) ||
        (a.range.start == b.range.start && decide (a.range.stop ≤ b.range.stop))) = true ↔
      a.range = b.range ∨ a.range.Before b.range := by
  obtain ⟨⟨⟨al, ac⟩, ⟨al', ac'⟩⟩, atext⟩ := a
  obtain ⟨⟨⟨bl, bc⟩, ⟨bl', bc'⟩⟩, btext⟩ := b
  simp only [Range.Before, Position.lt_def, Position.le_def, Bool.or_eq_true, Bool.and_eq_true,
    decide_eq_true_eq, beq_iff_eq, Range.mk.injEq, Position.mk.injEq]
  omega

theorem pairwise_inOrder (es : List Edit) :
    (inOrder es).Pairwise fun a b => a.range = b.range ∨ a.range.Before b.range := by
  refine (pairwise_mergeSort (fun a b c hab hbc => ?_) (fun a b => ?_) es).imp (le_iff _ _).1
  · rw [le_iff] at hab hbc ⊢
    rcases hab with hab | hab <;> rcases hbc with hbc | hbc
    · exact .inl (hab.trans hbc)
    · exact .inr (hab ▸ hbc)
    · exact .inr (hbc ▸ hab)
    · exact .inr (hab.trans hbc)
  · rw [Bool.or_eq_true, le_iff, le_iff]
    obtain ⟨⟨⟨al, ac⟩, ⟨al', ac'⟩⟩, atext⟩ := a
    obtain ⟨⟨⟨bl, bc⟩, ⟨bl', bc'⟩⟩, btext⟩ := b
    simp only [Range.Before, Position.lt_def, Range.mk.injEq, Position.mk.injEq]
    omega

/-- Edits in order stay as they are. -/
theorem inOrder_eq_self {es : List Edit} (h : es.Pairwise fun a b => a.range.Before b.range) :
    inOrder es = es :=
  mergeSort_of_pairwise (h.imp fun hab => (le_iff _ _).2 (.inr hab))

/-- Two edits that can be made together have different ranges. -/
theorem before_of_not_conflicts {a b : Edit} (h : conflicts a b = false)
    (hb : b.range.start ≤ b.range.stop) (hab : a.range = b.range ∨ a.range.Before b.range) :
    a.range.Before b.range := by
  refine hab.resolve_left fun heq => ?_
  have hconflict : conflicts a b = true := by
    rw [conflicts, heq]
    by_cases hpoint : b.range.start < b.range.stop
    · simp [hpoint]
    · have hstop := Position.le_antisymm hb (Position.not_lt.1 hpoint)
      simp [hstop]
  rw [hconflict] at h
  cases h

/-- The edits that are kept are some of those that are given, in order and with different ranges. -/
theorem keep_spec {es : List Edit} {previous : Option Edit}
    (hes : es.Pairwise fun a b => a.range = b.range ∨ a.range.Before b.range)
    (hle : ∀ e ∈ es, e.range.start ≤ e.range.stop)
    (hprevious : ∀ a ∈ previous, ∀ b ∈ es, a.range = b.range ∨ a.range.Before b.range) :
    (keep previous es).Pairwise (fun a b => a.range.Before b.range) ∧
      (∀ e ∈ keep previous es, e ∈ es ∧ ∀ a ∈ previous, a.range.Before e.range) := by
  induction es generalizing previous with
  | nil => exact ⟨.nil, by simp [keep]⟩
  | cons e es ih =>
    obtain ⟨hfirst, hrest⟩ := pairwise_cons.1 hes
    have hleRest := fun f hf => hle f (mem_cons_of_mem e hf)
    rw [keep]
    split
    next =>
      obtain ⟨hsorted, hmem⟩ := ih hrest hleRest
        fun a ha b hb => hprevious a ha b (mem_cons_of_mem _ hb)
      exact ⟨hsorted, fun f hf => ⟨mem_cons_of_mem _ (hmem f hf).1, (hmem f hf).2⟩⟩
    next hkeep =>
      have hbefore : ∀ a ∈ previous, a.range.Before e.range := by
        intro a ha
        obtain rfl : previous = some a := ha
        exact before_of_not_conflicts (by simpa using hkeep) (hle e mem_cons_self)
          (hprevious a rfl e mem_cons_self)
      have hprevious' : ∀ a ∈ some e, ∀ b ∈ es, a.range = b.range ∨ a.range.Before b.range := by
        simpa using hfirst
      obtain ⟨hsorted, hmem⟩ := ih hrest hleRest hprevious'
      refine ⟨pairwise_cons.2 ⟨fun f hf => (hmem f hf).2 e rfl, hsorted⟩, fun f hf => ?_⟩
      rcases mem_cons.1 hf with rfl | hf
      · exact ⟨mem_cons_self, hbefore⟩
      · exact ⟨mem_cons_of_mem _ (hmem f hf).1,
          fun a ha => (hbefore a ha).trans ((hmem f hf).2 e rfl)⟩

theorem compatible_spec {es : List Edit} (hle : ∀ e ∈ es, e.range.start ≤ e.range.stop) :
    (compatible es).Pairwise (fun a b => a.range.Before b.range) ∧ ∀ e ∈ compatible es, e ∈ es := by
  obtain ⟨hsorted, hmem⟩ := @keep_spec _ none (pairwise_inOrder es)
    (fun e he => hle e (mem_mergeSort.1 he)) (by simp)
  exact ⟨hsorted, fun e he => mem_mergeSort.1 (hmem e he).1⟩

/-- Of some edits at least one is kept. -/
theorem compatible_ne_nil {es : List Edit} (h : es ≠ []) : compatible es ≠ [] := by
  have hne : inOrder es ≠ [] := by
    intro hnil
    exact h (eq_nil_of_length_eq_zero (by rw [← length_mergeSort, ← inOrder, hnil]; rfl))
  obtain ⟨e, rest, hrest⟩ := exists_cons_of_ne_nil hne
  rw [compatible, hrest, keep, if_neg (by simp)]
  exact cons_ne_nil _ _

end Edit

/-! ### Kept edits as a plan -/

namespace Cell

theorem gapRange_before_stopRange {c : Cell} (p : Position) (h : c.stop.text ≠ []) :
    (c.gapRange p).Before (c.stopRange p) := by
  have hpos := Text.units16_pos h
  by_cases hgap : Text.units16 c.gap = 0
  · refine .inr ⟨by simp [gapRange, stopRange, hgap], .inr ⟨rfl, ?_⟩⟩
    exact Nat.lt_add_of_pos_right hpos
  · exact .inl (.inr ⟨rfl, Nat.lt_add_of_pos_right (Nat.pos_of_ne_zero hgap)⟩)

/-- The stop of a cell is in front of the place behind the cell. -/
theorem start_stopRange_lt_after {c : Cell} (p : Position) (h : c.stop.text ≠ []) :
    (c.stopRange p).start < c.after p := by
  have hpos := Text.units16_pos h
  cases hstop : c.stop with
  | line ret => simp [stopRange, after, hstop, Position.lt_def]
  | core x =>
    rw [hstop] at hpos
    rw [after, hstop]
    exact .inr ⟨rfl, Nat.lt_add_of_pos_right hpos⟩

theorem le_start_stopRange (c : Cell) (p : Position) : p ≤ (c.stopRange p).start := by
  simp [stopRange, Position.le_def]

variable {width : Nat} {s : Spot} {p : Position} {cells : List Cell} {e : Edit}

theorem range_of_editOf {range : Range} {new : Option (List Char)} (h : editOf range new = [e]) :
    e.range = range := by
  cases new with
  | none => cases h
  | some cs =>
    obtain ⟨rfl, -⟩ := List.cons.inj h
    rfl

/-- An edit of some cells is behind the place where they start, and its range is one. -/
theorem Allows.le (h : Allows width s p cells e) (hcells : ∀ c ∈ cells, c.stop.text ≠ []) :
    p ≤ e.range.start ∧ e.range.start ≤ e.range.stop := by
  induction cells generalizing s p with
  | nil => cases h
  | cons c cells ih =>
    rcases h with ⟨f, -, he⟩ | ⟨-, he⟩ | h
    · rw [range_of_editOf he]
      exact ⟨Position.le_refl p, by simp [gapRange, Position.le_def]⟩
    · rw [range_of_editOf he]
      exact ⟨c.le_start_stopRange p, by simp [stopRange, Position.le_def]⟩
    · obtain ⟨hstart, hstop⟩ := ih h fun d hd => hcells d (mem_cons_of_mem c hd)
      have hlt := start_stopRange_lt_after p (hcells c mem_cons_self)
      have hle := c.le_start_stopRange p
      refine ⟨?_, hstop⟩
      simp only [Position.lt_def, Position.le_def] at hlt hle hstart ⊢
      omega

/-- Of edits in order, the first has the first range, or none has. -/
theorem peel (range : Range) {es : List Edit}
    (hes : es.Pairwise fun a b => a.range.Before b.range)
    (hrange : ∀ e ∈ es, e.range = range ∨ range.Before e.range) :
    ∃ own rest, es = own ++ rest ∧ (own = [] ∨ ∃ e, own = [e] ∧ e.range = range) ∧
      rest.Pairwise (fun a b => a.range.Before b.range) ∧ ∀ e ∈ rest, range.Before e.range := by
  cases es with
  | nil => exact ⟨[], [], rfl, .inl rfl, .nil, by simp⟩
  | cons e es =>
    obtain ⟨hfirst, hrest⟩ := pairwise_cons.1 hes
    rcases hrange e mem_cons_self with he | he
    · exact ⟨[e], es, rfl, .inr ⟨e, rfl, he⟩, hrest, fun f hf => he ▸ hfirst f hf⟩
    · refine ⟨[], e :: es, rfl, .inl rfl, hes, fun f hf => ?_⟩
      rcases mem_cons.1 hf with rfl | hf
      · exact he
      · exact he.trans (hfirst f hf)

/-- **Kept edits are a plan.** Edits that the layout asks for, in order and with different ranges,
are the edits of a plan that follows the layout. -/
theorem exists_follows {es : List Edit} (hes : es.Pairwise fun a b => a.range.Before b.range)
    (hallows : ∀ e ∈ es, Allows width s p cells e) (hcells : ∀ c ∈ cells, c.stop.text ≠ []) :
    ∃ plan : Plan, plan.cells = cells ∧ plan.edits p = es ∧ plan.Follows width s := by
  induction cells generalizing s p es with
  | nil =>
    cases es with
    | nil => exact ⟨[], rfl, rfl, trivial⟩
    | cons e es => exact absurd (hallows e mem_cons_self) id
  | cons c cells ih =>
    have hstop := hcells c mem_cons_self
    have hrest := fun d hd => hcells d (mem_cons_of_mem c hd)
    have hgapStop := gapRange_before_stopRange p hstop
    -- an edit behind the cell is behind the range of its stop
    have hbehind : ∀ e, Allows width (s.next c.stop.mark.kind) (c.after p) cells e →
        (c.stopRange p).Before e.range := by
      intro e he
      have hlt := start_stopRange_lt_after p hstop
      have hle := (he.le hrest).1
      refine .inl ?_
      simp only [Position.lt_def, Position.le_def] at hlt hle ⊢
      omega
    obtain ⟨gaps, es, rfl, hgaps, hes, hafterGap⟩ := peel (c.gapRange p) hes fun e he => by
      rcases hallows e he with ⟨f, -, hedit⟩ | ⟨-, hedit⟩ | h
      · exact .inl (range_of_editOf hedit)
      · exact .inr (range_of_editOf hedit ▸ hgapStop)
      · exact .inr (hgapStop.trans (hbehind e h))
    have hallows' := fun e he => hallows e (mem_append_right gaps he)
    obtain ⟨stops, es, rfl, hstops, hes, hafterStop⟩ := peel (c.stopRange p) hes fun e he => by
      rcases hallows' e he with ⟨f, -, hedit⟩ | ⟨-, hedit⟩ | h
      · have hself := hafterGap e he
        rw [range_of_editOf hedit] at hself
        exact absurd hself (Range.not_before_self _)
      · exact .inl (range_of_editOf hedit)
      · exact .inr (hbehind e h)
    have hothers : ∀ e ∈ es, Allows width (s.next c.stop.mark.kind) (c.after p) cells e := by
      intro e he
      have hbefore := hafterStop e he
      rcases hallows' e (mem_append_right stops he) with ⟨f, -, hedit⟩ | ⟨-, hedit⟩ | h
      · rw [range_of_editOf hedit] at hbefore
        exact absurd (hgapStop.trans hbefore) (Range.not_before_self _)
      · rw [range_of_editOf hedit] at hbefore
        exact absurd hbefore (Range.not_before_self _)
      · exact h
    obtain ⟨plan, rfl, rfl, hplan⟩ := ih hes hothers hrest
    -- what is done to the cell itself
    have hfill : ∃ f : Fill, editOf (c.gapRange p) f.new? = gaps ∧
        (f = .keep ∨ s.Fills width c f) := by
      rcases hgaps with rfl | ⟨e, rfl, he⟩
      · exact ⟨.keep, rfl, .inl rfl⟩
      · rcases hallows e (by simp) with ⟨f, hf, hedit⟩ | ⟨-, hedit⟩ | h
        · exact ⟨f, hedit, .inr hf⟩
        · rw [range_of_editOf hedit] at he
          exact absurd (he ▸ hgapStop) (Range.not_before_self _)
        · exact absurd (he ▸ hgapStop.trans (hbehind e h)) (Range.not_before_self _)
    have hdrop : ∃ drop : Bool, editOf (c.stopRange p) (Change.new? ⟨.keep, drop⟩) = stops ∧
        (drop = true → s.Needless c plan.cells) := by
      rcases hstops with rfl | ⟨e, rfl, he⟩
      · exact ⟨false, rfl, by simp⟩
      · rcases hallows' e (by simp) with ⟨f, -, hedit⟩ | ⟨hneedless, hedit⟩ | h
        · rw [range_of_editOf hedit] at he
          exact absurd (he ▸ hgapStop) (Range.not_before_self _)
        · exact ⟨true, hedit, fun _ => hneedless⟩
        · exact absurd (he ▸ hbehind e h) (Range.not_before_self _)
    obtain ⟨f, hf, hfills⟩ := hfill
    obtain ⟨drop, hd, hneedless⟩ := hdrop
    refine ⟨(c, ⟨f, drop⟩) :: plan, rfl, ?_, hfills, hneedless, hplan⟩
    rw [Plan.edits, hf]
    exact congrArg (gaps ++ ·) (congrArg (· ++ plan.edits (c.after p)) hd)

end Cell

end TypedNotation
