import Mathlib.Algebra.GroupWithZero.Nat
import TypedNotation.Proofs.RebuiltCells

/-!
# What fixing uses up

Two numbers go down as the layout of a text is mended. The *weight* of a text counts the characters
that are not blank, and counts a character twice if another one stands before it on its line. A line
break or the loss of a comma makes a text lighter, and no other change makes it heavier
(`Cell.Plan.weight_text`). What is left are gaps that are written anew on their line. A gap is
*fine* if the layout asks for nothing there (`Cell.Spot.isFine`), and where a plan neither breaks a
line nor takes a comma away, every gap that it changes was not fine before and is fine afterwards
(`Cell.Plan.misfits_rebuild`).
-/

namespace TypedNotation

open List Text

/-! ### Weights -/

namespace Text

variable {cs : List Char} {seen seen' : Bool}

/-- What a character weighs, given whether another one that is not blank is before it on its
line. -/
def weighs (seen : Bool) (c : Char) : Nat :=
  if isBlank c then 0 else if seen then 2 else 1

/-- Whether a character that is not blank is on the line behind a character, given whether one is
before it. -/
def sees (seen : Bool) (c : Char) : Bool :=
  c != '\n' && (seen || !isBlank c)

/-- What a text weighs. -/
def weight (seen : Bool) : List Char → Nat
  | [] => 0
  | c :: cs => weighs seen c + weight (sees seen c) cs

theorem weight_append (seen : Bool) (a b : List Char) :
    weight seen (a ++ b) = weight seen a + weight (a.foldl sees seen) b := by
  induction a generalizing seen with
  | nil => simp [weight]
  | cons c a ih =>
    rw [cons_append, weight, weight, ih, foldl_cons, Nat.add_assoc]

theorem sees_mono (h : seen' = true → seen = true) (c : Char) :
    sees seen' c = true → sees seen c = true := by
  cases seen' <;> simp_all [sees]

theorem foldl_sees_mono (h : seen' = true → seen = true) (cs : List Char) :
    cs.foldl sees seen' = true → cs.foldl sees seen = true := by
  induction cs generalizing seen seen' with
  | nil => exact h
  | cons c cs ih => exact ih (sees_mono h c)

theorem weight_mono (h : seen' = true → seen = true) (cs : List Char) :
    weight seen' cs ≤ weight seen cs := by
  induction cs generalizing seen seen' with
  | nil => exact Nat.le_refl _
  | cons c cs ih =>
    have hc : weighs seen' c ≤ weighs seen c := by
      cases seen' <;> cases seen <;> simp_all [weighs]
      split <;> omega
    exact Nat.add_le_add hc (ih (sees_mono h c))

theorem weight_of_blank (h : ∀ c ∈ cs, isBlank c = true) (seen : Bool) : weight seen cs = 0 := by
  induction cs generalizing seen with
  | nil => rfl
  | cons c cs ih =>
    obtain ⟨hc, hcs⟩ := forall_mem_cons.1 h
    simp [weight, weighs, hc, ih hcs]

theorem foldl_sees_of_blank (h : ∀ c ∈ cs, isBlank c = true) (hfeed : '\n' ∉ cs)
    (seen : Bool) : cs.foldl sees seen = seen := by
  induction cs generalizing seen with
  | nil => rfl
  | cons c cs ih =>
    obtain ⟨hc, hcs⟩ := forall_mem_cons.1 h
    rw [mem_cons, not_or] at hfeed
    have hstep : sees seen c = seen := by simp [sees, hc, Ne.symm hfeed.1]
    rw [foldl_cons, hstep, ih hcs hfeed.2]

theorem foldl_sees_true (hfeed : '\n' ∉ cs) : cs.foldl sees true = true := by
  induction cs with
  | nil => rfl
  | cons c cs ih =>
    rw [mem_cons, not_or] at hfeed
    have hstep : sees true c = true := by simp [sees, Ne.symm hfeed.1]
    rw [foldl_cons, hstep, ih hfeed.2]

/-- Behind a character that is not blank another one is seen. -/
theorem foldl_sees_of_head (hfeed : '\n' ∉ cs) (hne : cs ≠ [])
    (h : ∀ c ∈ cs.head?, isBlank c = false) (seen : Bool) : cs.foldl sees seen = true := by
  obtain ⟨c, cs, rfl⟩ := exists_cons_of_ne_nil hne
  rw [mem_cons, not_or] at hfeed
  have hstep : sees seen c = true := by simp [sees, h c rfl, Ne.symm hfeed.1]
  rw [foldl_cons, hstep, foldl_sees_true hfeed.2]

/-- A text weighs less at the start of a line. -/
theorem weight_false_lt (hfeed : '\n' ∉ cs) (hne : cs ≠ [])
    (h : ∀ c ∈ cs.head?, isBlank c = false) : weight false cs + 1 ≤ weight true cs := by
  obtain ⟨c, cs, rfl⟩ := exists_cons_of_ne_nil hne
  rw [mem_cons, not_or] at hfeed
  have hfalse : sees false c = true := by simp [sees, h c rfl, Ne.symm hfeed.1]
  have htrue : sees true c = true := by simp [sees, Ne.symm hfeed.1]
  simp only [weight, weighs, h c rfl, hfalse, htrue, Bool.false_eq_true, if_false, if_true]
  omega

end Text

namespace Scanner

variable {s next : Scanner} {x : Lexeme}

/-- Outside of strings a lexeme starts with what is not blank. -/
theorem Takes.head_of_ne_string (h : s.Takes x next) (hx : x.Whole) (hmode : s.mode ≠ .string) :
    ∀ c ∈ x.text.head?, isBlank c = false := by
  cases hs : s.mode with
  | plain => exact h.head_of_plain hs hx
  | string => exact absurd hs hmode
  | comment =>
    have hcomment := h.isComment_of_mode (.inl hs)
    exact hx.head (by cases hc : x.category <;> simp_all [Category.isComment, Category.inString])

/-- A lexeme starts and ends with what is not blank, unless a string runs on behind it. -/
theorem Takes.ends_of_next (h : s.Takes x next) (hx : x.Whole) (hnext : next.mode ≠ .string) :
    (∀ c ∈ x.text.head?, isBlank c = false) ∧
      ∀ c ∈ x.text.getLast?, isBlank c = false := by
  cases hstring : x.category.inString with
  | false => exact ⟨hx.head hstring, hx.last hstring⟩
  | true =>
    cases h with
    | closingQuote => simp [isBlank]
    | number | negative => split at hstring <;> cases hstring
    | _ => first | exact absurd rfl hnext | cases hstring

end Scanner

namespace Cell

/-- Whether something is seen on the line behind what is written in place of a gap, given whether it
is before the gap. -/
def Fill.sees (seen : Bool) : Fill → Bool
  | wrap _ => false
  | keep | blanks _ => seen

/-- How many lines are broken and how many stops are taken away. -/
def Change.cuts (change : Change) : Nat :=
  (match change.fill with
    | .wrap _ => 1
    | _ => 0) + if change.drop then 1 else 0

namespace Plan

/-- How many lines a plan breaks and how many stops it takes away. -/
def cuts (plan : Plan) : Nat :=
  (plan.map (·.2.cuts)).sum

theorem cuts_cons (c : Cell) (change : Change) (rest : Plan) :
    cuts ((c, change) :: rest) = change.cuts + cuts rest := by
  simp [cuts]

variable {width : Nat} {s next : Scanner} {spot : Spot} {gap : List Char} {x : Lexeme}

/-- What is written in place of a gap weighs nothing, and nothing is seen behind it that was not
seen before it. -/
theorem weight_fill {c : Cell} {f : Fill} (hgap : s.GapFits c.gap)
    (hf : f = .keep ∨ spot.Fills width c f) (seen : Bool) :
    weight seen (f.new?.getD c.gap) = 0 ∧
      (f.new?.getD c.gap).foldl sees seen = f.sees seen := by
  cases f with
  | keep =>
    exact ⟨weight_of_blank hgap.blank _, foldl_sees_of_blank hgap.blank hgap.noFeed _⟩
  | blanks cs =>
    have hblank := Tracks.blank_of_fills (hf.resolve_left (by simp))
    exact ⟨weight_of_blank (fun d hd => (hblank d hd).1) _,
      foldl_sees_of_blank (fun d hd => (hblank d hd).1) (fun hd => (hblank _ hd).2 rfl) _⟩
  | wrap n =>
    have hblank : ∀ d ∈ List.replicate n ' ', isBlank d = true := fun d hd =>
      (Tracks.isBlank_of_mem_spaces hd).1
    have hfeed : '\n' ∉ List.replicate n ' ' := fun hd => (Tracks.isBlank_of_mem_spaces hd).2 rfl
    refine ⟨weight_of_blank (forall_mem_cons.2 ⟨by decide, hblank⟩) _, ?_⟩
    simp only [Fill.new?, Option.getD_some, foldl_cons]
    rw [foldl_sees_of_blank hblank hfeed]
    rfl

/-- A stop weighs less by each cut that is made at it. -/
theorem weight_core {change : Change} {behind : List Cell} {seen seen' : Bool}
    (htakes : s.Takes x next) (hx : x.Whole) (ht : Tracks s s spot)
    (hf : change.fill = .keep ∨ spot.Fills width ⟨gap, .core x⟩ change.fill)
    (hdrop : change.drop = true → spot.Needless ⟨gap, .core x⟩ behind)
    (hseen : spot.inRow = true → seen = true ∨ s.mode = .string)
    (hle : seen' = true → seen = true) :
    weight (change.fill.sees seen') (change.new?.getD x.text) + change.cuts ≤
      weight seen x.text := by
  obtain ⟨fill, drop⟩ := change
  dsimp only at hf hdrop ⊢
  -- where a line is broken something is seen before the stop, and the stop starts with what is not
  -- blank
  have hwrap : ∀ n, fill = .wrap n → seen = true ∧ ∀ c ∈ x.text.head?, isBlank c = false := by
    rintro n rfl
    have hfills := hf.resolve_left (by simp)
    have hmode : s.mode ≠ .string := ht.mode_of_fills hfills (by rintro y ⟨⟩; exact ⟨next, htakes⟩)
    cases hfills with
    | wrap _ hrow => exact ⟨(hseen hrow).resolve_right hmode, htakes.head_of_ne_string hx hmode⟩
  cases drop with
  | false =>
    cases fill with
    | wrap n =>
      obtain ⟨rfl, hhead⟩ := hwrap n rfl
      exact weight_false_lt hx.noFeed htakes.text_ne_nil hhead
    | _ => exact weight_mono hle _
  | true =>
    obtain ⟨⟨blocks, hcomma⟩, -⟩ := hdrop rfl
    obtain rfl := Stop.core.inj hcomma
    have hweight : weight seen [','] = if seen then 2 else 1 := by cases seen <;> decide
    rw [hweight]
    cases fill with
    | wrap n =>
      obtain ⟨rfl, -⟩ := hwrap n rfl
      simp [Change.new?, Change.cuts, weight]
    | _ =>
      simp only [Change.new?, Change.cuts, weight, if_true, Option.getD_some]
      split <;> omega

/-- A plan makes a text lighter by each cut. -/
theorem weight_text {plan : Plan} (h : Reads s plan.cells) (hfollows : plan.Follows width spot)
    (ht : Tracks s s spot) {seen seen' : Bool}
    (hseen : spot.inRow = true → seen = true ∨ s.mode = .string)
    (hle : seen' = true → seen = true) :
    weight seen' plan.text + plan.cuts ≤ weight seen (chars plan.cells) := by
  -- behind a line break that is added, less is seen on the line than in the old text
  induction plan generalizing s spot seen seen' with
  | nil => simp [text, cuts, cells, weight]
  | cons first rest ih =>
    obtain ⟨⟨gap, stop⟩, change⟩ := first
    obtain ⟨hfill, hdrop, hrests⟩ := hfollows
    obtain ⟨hnew, hmid⟩ := weight_fill h.gapFits hfill seen'
    have hblank : weight seen gap = 0 := weight_of_blank h.gapFits.blank _
    have hstay : gap.foldl sees seen = seen :=
      foldl_sees_of_blank h.gapFits.blank h.gapFits.noFeed _
    have hcells : cells ((⟨gap, stop⟩, change) :: rest) = ⟨gap, stop⟩ :: cells rest := rfl
    rw [hcells] at h
    rw [hcells, text_cons, chars_cons, cuts_cons]
    simp only [weight_append, hnew, hmid, hblank, hstay, Nat.zero_add]
    cases stop with
    | line ret =>
      have hkept : change.drop = false := by
        rw [← Bool.not_eq_true]
        intro hdropped
        obtain ⟨⟨blocks, hcomma⟩, -⟩ := hdrop hdropped
        cases hcomma
      have hcuts : change.cuts = 0 := by
        rw [Change.cuts, hkept]
        rcases hfill with hfill | hfill
        · rw [hfill]; rfl
        · cases hf : change.fill <;> rw [hf] at hfill <;> first | rfl | cases hfill
      have hfeed : ∀ seen, weight seen (Stop.line ret).text = 0 ∧
          (Stop.line ret).text.foldl sees seen = false := by
        intro seen
        cases ret <;> cases seen <;> decide
      have hread : Reads s.nextLine (cells rest) := by cases h; assumption
      simp only [Change.new?, hkept, Bool.false_eq_true, if_false, Option.getD_none, hfeed, hcuts,
        Nat.zero_add]
      exact ih hread hrests ht.line (fun hrow => by cases hrow) id
    | core x =>
      obtain ⟨next, htakes, hx, hread⟩ := h.of_core
      have hcore := weight_core htakes hx ht hfill hdrop hseen hle
      have hsees : next.mode ≠ .string → x.text.foldl sees seen = true := fun hnext =>
        foldl_sees_of_head hx.noFeed htakes.text_ne_nil (htakes.ends_of_next hx hnext).1 _
      have hseen' : (spot.next x.category.tokenKind).inRow = true →
          x.text.foldl sees seen = true ∨ next.mode = .string := fun _ =>
        or_iff_not_imp_right.2 hsees
      have hle' : (change.new?.getD x.text).foldl sees (change.fill.sees seen') = true →
          x.text.foldl sees seen = true := by
        cases hdropped : change.drop with
        | true =>
          obtain ⟨⟨blocks, hcomma⟩, -⟩ := hdrop hdropped
          obtain rfl := Stop.core.inj hcomma
          obtain ⟨hmode, -, rfl⟩ := htakes.next_of_comma rfl
          exact fun _ => hsees (by simp [Scanner.nextLine, hmode])
        | false =>
          have hmidle : change.fill.sees seen' = true → seen = true := by
            cases change.fill with
            | wrap n => simp [Fill.sees]
            | _ => exact hle
          simpa [Change.new?, hdropped] using foldl_sees_mono hmidle x.text
      have hrest := ih hread hrests (ht.core htakes rfl id) hseen' hle'
      simp only [Stop.text]
      omega

end Plan

/-! ### Misfits -/

/-- Whether the layout asks for nothing in place of a gap, line breaks apart. -/
def Spot.isFine (s : Spot) (width : Nat) (c : Cell) : Bool :=
  match c.stop with
  | .line _ => s.quoted || c.gap.isEmpty
  | .core x =>
    if s.inRow then
      if x.category = .comma ∨ x.category = .colon then c.gap.isEmpty
      else !s.separated || units16 c.gap == 1
    else s.quoted || c.gap == List.replicate (s.indent width x.category.tokenKind) ' '

/-- How many gaps are not fine. -/
def misfits (width : Nat) : Spot → List Cell → Nat
  | _, [] => 0
  | s, c :: cells =>
    (if s.isFine width c then 0 else 1) + misfits width (s.next c.stop.mark.kind) cells

/-- A gap that is written anew on its line was not fine, and is fine afterwards. -/
theorem Spot.isFine_of_fills {s : Spot} {width : Nat} {gap cs : List Char} {stop : Stop}
    (hf : s.Fills width ⟨gap, stop⟩ (.blanks cs)) :
    s.isFine width ⟨gap, stop⟩ = false ∧ s.isFine width ⟨cs, stop⟩ = true := by
  cases hf with
  | tail hquoted hgap => simp [isFine, hquoted, hgap]
  | head hquoted hrow hgap => simp [isFine, hquoted, hrow, hgap]
  | before hrow hx hgap => simp [isFine, hrow, hx, hgap]
  | behind hrow hseparated hx hgap =>
    have hspace : units16 [' '] = 1 := by decide
    simp [isFine, hrow, hseparated, hx.1, hx.2, hgap, hspace]

namespace Plan

variable {width : Nat} {s : Spot} {scanner : Scanner}

/-- Without cuts a cell stays where it is. -/
theorem rebuild_of_cuts {gap : List Char} {stop : Stop} {change : Change} {rest : Plan}
    (h : Reads scanner (⟨gap, stop⟩ :: cells rest))
    (hf : change.fill = .keep ∨ s.Fills width ⟨gap, stop⟩ change.fill) (hcuts : change.cuts = 0) :
    rebuild [] ((⟨gap, stop⟩, change) :: rest) =
      ⟨change.fill.new?.getD gap, stop⟩ :: rebuild [] rest := by
  obtain ⟨fill, drop⟩ := change
  obtain ⟨hwrap, hdrop⟩ : (∀ n, fill ≠ .wrap n) ∧ drop = false := by
    cases fill <;> cases drop <;> simp_all [Change.cuts]
  cases stop with
  | line ret =>
    have hlast : ret = false → (fill.new?.getD gap).getLast? ≠ some '\r' := by
      rcases hf with hf | hf
      · obtain rfl : fill = .keep := hf
        cases h with
        | line _ hret => exact hret
      · dsimp only at hf
        cases hf with
        | tail => simp [Fill.new?]
    rw [rebuild, nil_append, lineEnd, if_neg (fun hret => hlast hret.1 hret.2)]
  | core x =>
    subst hdrop
    cases fill with
    | wrap n => exact absurd rfl (hwrap n)
    | keep => rfl
    | blanks cs => rfl

/-- Without cuts every edit leaves one misfit less. -/
theorem misfits_rebuild {plan : Plan} (h : Reads scanner plan.cells)
    (hfollows : plan.Follows width s) (hcuts : plan.cuts = 0) (p : Position) :
    misfits width s (plan.rebuild []) + (plan.edits p).length ≤ misfits width s plan.cells := by
  induction plan generalizing scanner s p with
  | nil => simp [rebuild, edits, misfits]
  | cons first rest ih =>
    obtain ⟨⟨gap, stop⟩, change⟩ := first
    obtain ⟨hfill, hdrop, hrests⟩ := hfollows
    rw [cuts_cons, Nat.add_eq_zero_iff] at hcuts
    have hcells : cells ((⟨gap, stop⟩, change) :: rest) = ⟨gap, stop⟩ :: cells rest := rfl
    rw [hcells] at h ⊢
    obtain ⟨next, hread⟩ := h.exists_tail
    have hrest := ih hread hrests hcuts.2 (after ⟨gap, stop⟩ p)
    have hdropped : change.new? = none := by
      rw [Change.new?, if_neg]
      intro hdropped
      simp [Change.cuts, hdropped] at hcuts
    have hfirst : (if s.isFine width ⟨change.fill.new?.getD gap, stop⟩ then 0 else 1) +
        (editOf (gapRange ⟨gap, stop⟩ p) change.fill.new?).length ≤
          if s.isFine width ⟨gap, stop⟩ then 0 else 1 := by
      cases hf : change.fill with
      | keep => exact Nat.le_refl _
      | wrap n => simp [Change.cuts, hf] at hcuts
      | blanks cs =>
        rw [hf] at hfill
        obtain ⟨hold, hnew⟩ := Spot.isFine_of_fills (hfill.resolve_left (by simp))
        simp [Fill.new?, editOf, hold, hnew]
    dsimp only at hrest
    rw [rebuild_of_cuts h hfill hcuts.1, misfits, misfits, edits, hdropped]
    have hnone : editOf (stopRange ⟨gap, stop⟩ p) none = [] := rfl
    rw [hnone, nil_append, length_append]
    dsimp only
    omega

end Plan

end Cell

end TypedNotation
