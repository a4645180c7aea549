import TypedNotation.Proofs.KeptEdits
import TypedNotation.Proofs.LayoutFixes
import TypedNotation.Proofs.Meaning

/-!
# Values are kept

Fixing a document without errors leaves its value as it is, whether all fixes are made that can be
made together (`Analysis.fixing_keeps_value`) or a single one of them
(`Analysis.fix_keeps_value_alone`). The value is what the marks mean, and the edits that the layout
asks for add ends of lines and take away commas at places where nothing is pending, or where what is
pending is completed next in any case (`Meaning.Near`). So the new marks mean what the old ones do
(`Cell.Plan.meaning_rebuild`).

With errors in the document that is not so: a key that has no place in an array is taken away
without a trace, and what was to the left and to the right of it may become one
(`Analysis.deleted_key_joins_numbers`). A comma that is missing may overlap another edit and be
dropped for it (`Analysis.dropped_comma_joins_tag`).
-/

namespace TypedNotation

open Document Meaning.Pending Edit Meaning

/-! ### Meanings and configs -/

namespace Meaning

variable {s s' : Meaning} {m : Mark} {c d : Config}

/-- What is awaited. -/
def Pending.wait : Pending → Wait
  | .none => .nothing
  | .tag _ => .payload
  | .key _ => .colon
  | .string _ => .quote

theorem none_of_wait (h : s.pending.wait = .nothing) : s.pending = .none := by
  cases hp : s.pending <;> simp_all [wait]

@[simp] theorem pending_add (s : Meaning) (key? : Option String) (value? : Option Value) :
    (s.add key? value?).pending = s.pending := by
  unfold add
  split <;> rfl

@[simp] theorem pending_put (s : Meaning) (v : Value) : (s.put v).pending = s.pending :=
  pending_add ..

@[simp] theorem pending_leave (s : Meaning) : s.leave.pending = s.pending := by
  unfold leave
  split
  · rfl
  · exact pending_put ..

theorem pending_settle (h : s.pending.wait ≠ .quote) : s.settle.pending = .none := by
  cases hp : s.pending with
  | string text => simp [hp, wait] at h
  | _ => simp [settle, hp]

/-- Outside of strings a mark that reads nothing new completes what is pending. -/
theorem step_of_break (h : s.pending.wait ≠ .quote) (hm : m.kind = .newline ∨ m.kind = .comma) :
    s.step m = s.settle := by
  have hread : ∀ s : Meaning, s.read m = s.settle := by
    intro s
    rcases hm with hm | hm <;> simp [read, hm]
  have hignored : m.kind ≠ .ignored := by rcases hm with hm | hm <;> simp [hm]
  have hcolon : m.kind ≠ .colon := by rcases hm with hm | hm <;> simp [hm]
  rw [step, if_neg hignored]
  cases hp : s.pending with
  | string text => simp [hp, wait] at h
  | key name => simp [hcolon, hread, settle_settle]
  | _ => exact hread s

theorem step_of_closing (h : s.pending.wait ≠ .quote) {kind : BlockKind}
    (hm : m.kind = .bracket kind .closing) : s.step m = s.settle.leave := by
  have hread : ∀ s : Meaning, s.read m = s.settle.leave := by
    intro s
    simp [read, hm]
  rw [step, if_neg (by simp [hm])]
  cases hp : s.pending with
  | string text => simp [hp, wait] at h
  | key name => simp [hm, hread, settle_settle]
  | _ => exact hread s

theorem wait_read (h : s.pending.wait ≠ .quote) (hread : c.read m = some d) :
    (s.read m).pending.wait = d.wait := by
  have hput : ∀ (count : Sequence.Level → Option Sequence.Level) (wait : Wait),
      c.put count wait = some d → d.wait = wait := by
    intro count wait hput
    obtain ⟨l, -, rfl⟩ := Option.map_eq_some_iff.1 hput
    rfl
  cases hm : m.kind with
  | newline =>
    simp only [Config.read, hm, Option.some.injEq] at hread
    simp [← hread, read, hm, pending_settle h, wait]
  | comma =>
    simp only [Config.read, hm] at hread
    simp [hput _ _ hread, read, hm, pending_settle h, wait]
  | literal l =>
    simp only [Config.read, hm, Option.ite_none_right_eq_some] at hread
    simp [hput _ _ hread.2, read, hm, pending_settle h, wait]
  | key | tag =>
    simp only [Config.read, hm] at hread
    simp [hput _ _ hread, read, hm, wait]
  | quote side =>
    cases side with
    | opening =>
      simp only [Config.read, hm] at hread
      simp [hput _ _ hread, read, hm, wait]
    | closing => simp [Config.read, hm] at hread
  | bracket kind side =>
    cases side with
    | opening =>
      have hwait : d.wait = .nothing := by
        simp only [Config.read, hm] at hread
        split at hread
        · rw [← Option.some.inj hread]
          rfl
        · obtain ⟨e, -, rfl⟩ := Option.map_eq_some_iff.1 hread
          rfl
      simp [hwait, read, hm, enter, wait]
    | closing =>
      have hwait : d.wait = .nothing := by
        simp only [Config.read, hm, Config.leave] at hread
        split at hread
        · cases hread
        · obtain ⟨-, hread⟩ := Option.ite_none_right_eq_some.1 hread
          rw [← Option.some.inj hread]
      simp [hwait, read, hm, pending_settle h, wait]
  | _ => simp [Config.read, hm] at hread

theorem wait_readInString (h : c.wait = .quote) (text : String)
    (hread : c.readInString m = some d) : (s.readInString text m).pending.wait = d.wait := by
  cases hm : m.kind with
  | stringText escape =>
    cases escape with
    | false =>
      simp only [Config.readInString, hm, Option.some.injEq] at hread
      simp [← hread, h, readInString, hm, wait]
    | true =>
      simp only [Config.readInString, hm, Option.ite_none_right_eq_some, Option.some.injEq] at hread
      simp [← hread.2, h, readInString, hm, wait]
  | newline =>
    simp only [Config.readInString, hm, Option.some.injEq] at hread
    simp [← hread, h, readInString, hm, wait]
  | quote side =>
    cases side with
    | opening => simp [Config.readInString, hm] at hread
    | closing =>
      simp only [Config.readInString, hm, Option.some.injEq] at hread
      simp [← hread, readInString, hm, wait]
  | _ => simp [Config.readInString, hm] at hread

/-- What is awaited behind a mark. -/
theorem wait_step (h : s.pending.wait = c.wait) (hstep : c.step m = some d) :
    (s.step m).pending.wait = d.wait := by
  by_cases hignored : m.kind = .ignored
  · rw [Config.step, if_pos hignored, Option.some.injEq] at hstep
    rw [step, if_pos hignored, h, hstep]
  · rw [Config.step, if_neg hignored, ← h] at hstep
    rw [step, if_neg hignored]
    cases hp : s.pending with
    | none | tag name =>
      rw [hp] at hstep
      exact wait_read (by simp [hp, wait]) hstep
    | key name =>
      have hquote : s.pending.wait ≠ .quote := by simp [hp, wait]
      rw [hp] at hstep
      simp only [wait] at hstep
      split at hstep
      next hcolon =>
        simp only [hcolon, if_true, pending_settle hquote, ← Option.some.inj hstep, wait]
      next hcolon =>
        simp only [hcolon, if_false]
        exact wait_read (by simp [pending_settle hquote, wait]) hstep
    | string text =>
      rw [hp] at hstep
      exact wait_readInString (h.symm.trans (by rw [hp]; rfl)) text hstep

/-- The meaning of the old cells and that of the new ones, given whether a line or a block ends
next. If so, what is pending need not be complete in both. -/
inductive Near : Meaning → Meaning → Bool → Prop
  | same {s : Meaning} {ends : Bool} : Near s s ends
  | ends {s s' : Meaning} (hs : s.pending.wait ≠ .quote) (hs' : s'.pending.wait ≠ .quote)
      (h : s'.settle = s.settle) : Near s s' true

namespace Near

variable {y : Cell} {cells : List Cell} {spot : Cell.Spot}

theorem step (h : Near s s' (Cell.ends (y :: cells))) :
    Near (s.step y.stop.mark) (s'.step y.stop.mark) (Cell.ends cells) := by
  generalize hends : Cell.ends (y :: cells) = ends at h
  cases h with
  | same => exact .same
  | ends hs hs' heq =>
    rw [Cell.ends] at hends
    split at hends
    next hk =>
      rw [Meaning.step, if_pos hk, Meaning.step, if_pos hk, hends]
      exact .ends hs hs' heq
    next hk =>
      rw [step_of_break hs (.inl hk), step_of_break hs' (.inl hk), heq]
      exact .same
    next kind hk =>
      rw [step_of_closing hs hk, step_of_closing hs' hk, heq]
      exact .same
    next => cases hends

/-- A line may be ended in front of a closing bracket and behind an opening one. -/
theorem wrap (h : Near s s' (Cell.ends (y :: cells))) (hwait : s.pending.wait = c.wait)
    (hknows : c.Knows spot) (hd : c.step y.stop.mark = some d)
    (hy : y.stop.mark.kind.isClosing = true ∨ spot.opened = true) :
    Near s (s'.step ⟨.newline, "\n"⟩) (Cell.ends (y :: cells)) := by
  generalize hends : Cell.ends (y :: cells) = ends at h
  cases h with
  | ends hs hs' heq =>
    rw [step_of_break hs' (.inl rfl)]
    exact .ends hs (by simp [pending_settle hs', wait]) ((settle_settle s').trans heq)
  | same =>
    rcases hy with hy | hy
    · have hs : s.pending.wait ≠ .quote := hwait ▸ Config.wait_of_step hd (.inr hy)
      obtain ⟨kind, hk⟩ := TokenKind.isClosing_iff.1 hy
      obtain rfl : ends = true := by simpa [Cell.ends, hk] using hends.symm
      rw [step_of_break hs (.inl rfl)]
      exact .ends hs (by simp [pending_settle hs, wait]) (settle_settle s)
    · have hnone : s.pending = .none := none_of_wait (hwait.trans (hknows.opened hy).2.1)
      rw [step_of_break (by simp [hnone, wait]) (.inl rfl), settle_of_none hnone]
      exact .same

/-- A needless comma may be left out. -/
theorem skip (h : Near s s' (Cell.ends (y :: cells))) (hwait : s.pending.wait = c.wait)
    (hknows : c.Knows spot) (hd : c.step y.stop.mark = some d) (hy : spot.Needless y cells) :
    Near (s.step y.stop.mark) s' (Cell.ends cells) := by
  obtain ⟨⟨blocks, hstop⟩, hplace⟩ := hy
  have hcomma : y.stop.mark.kind = .comma := by rw [hstop]; rfl
  have hquote := Config.wait_of_step hd (.inl hcomma)
  have hs : s.pending.wait ≠ .quote := hwait ▸ hquote
  have hends : Cell.ends (y :: cells) = false := by simp [Cell.ends, hcomma]
  rw [hends] at h
  cases h with
  | same =>
    rw [step_of_break hs (.inr hcomma)]
    rcases hplace with hfresh | hends
    · rcases hknows.fresh hfresh with hc | hnone | ⟨hnothing, -⟩
      · exact absurd hc hquote
      · have hkind := (Config.step_comma hd hcomma).1
        simp [hnone] at hkind
      · rw [settle_of_none (none_of_wait (hwait.trans hnothing))]
        exact .same
    · rw [hends]
      exact .ends (by simp [pending_settle hs, wait]) hs (settle_settle s).symm

end Near

end Meaning

/-! ### Meanings of cells -/

namespace Cell

theorem Plan.meaning_parts {width : Nat} {spot : Spot} {c d : Config} {s s' : Meaning}
    {gap : List Char} {x : Lexeme} {f : Fill} {behind : List Cell}
    (hf : f = .keep ∨ spot.Fills width ⟨gap, .core x⟩ f) (hknows : c.Knows spot)
    (hwait : s.pending.wait = c.wait) (hnear : s.Near s' (ends (⟨gap, .core x⟩ :: behind)))
    (hd : c.step (Stop.core x).mark = some d) (carry : List Char) :
    s.Near (s'.run (marks (f.parts carry gap).1)) (ends (⟨gap, .core x⟩ :: behind)) := by
  cases f with
  | keep => exact hnear
  | blanks cs => exact hnear
  | wrap indent =>
    rcases hf with hf | hf
    · cases hf
    · cases hf with
      | wrap _ hrow hx =>
        have hwrap := hnear.wrap hwait hknows hd (hx.imp_right And.left)
        simpa [Fill.parts, marks_cons, mark_lineEnd] using hwrap

/-- A plan that follows the layout leaves the meaning of the marks as it is. -/
theorem Plan.meaning_rebuild {width : Nat} {spot : Spot} {c last : Config} {s s' : Meaning}
    {plan : Plan} (hfollows : plan.Follows width spot) (hknows : c.Knows spot)
    (hwait : s.pending.wait = c.wait) (hnear : s.Near s' (ends plan.cells))
    (hrun : c.run (marks plan.cells) = some last) (carry : List Char) :
    s'.run (marks (plan.rebuild carry)) = s.run (marks plan.cells) := by
  induction plan generalizing spot c s s' carry with
  | nil =>
    cases hnear
    rfl
  | cons first rest ih =>
    obtain ⟨⟨gap, stop⟩, change⟩ := first
    obtain ⟨hfill, hdrop, hrest⟩ := hfollows
    have hmarks : marks (cells ((⟨gap, stop⟩, change) :: rest)) = stop.mark :: marks (cells rest) :=
      rfl
    rw [hmarks, Config.run_cons] at hrun
    obtain ⟨d, hd, hruns⟩ := Option.bind_eq_some_iff.1 hrun
    have hknows' := hknows.step hd
    have hwait' := wait_step hwait hd
    rw [hmarks, run_cons]
    cases stop with
    | line ret =>
      rw [rebuild, marks_cons, mark_lineEnd, run_cons]
      exact ih hrest hknows' hwait' hnear.step hruns []
    | core x =>
      have hparts := meaning_parts hfill hknows hwait hnear hd carry
      rw [rebuild, marks_append, run_append]
      split
      next hdropped =>
        exact ih hrest hknows' hwait' (hparts.skip hwait hknows hd (hdrop hdropped)) hruns _
      next =>
        rw [marks_cons, run_cons]
        exact ih hrest hknows' hwait' hparts.step hruns []

end Cell

/-- A meaning depends on the marks that count alone. -/
theorem Meaning.run_filter_counts (s : Meaning) (ms : List Mark) :
    s.run (ms.filter Mark.counts) = s.run ms := by
  induction ms generalizing s with
  | nil => rfl
  | cons m ms ih =>
    by_cases hm : m.kind = .ignored
    · rw [List.filter_cons_of_neg (by simp [Mark.counts, hm]), ih, run_cons, s.step_of_ignored hm]
    · rw [List.filter_cons_of_pos (by simpa [Mark.counts] using hm), run_cons, run_cons, ih]

namespace Document.Cut

variable {text : String} {cells : List Cell} {es : List Edit} {width : Nat}

/-- The value of a document is what its stops mean. -/
theorem meaning (h : Cut text cells) :
    ∃ data, (parse text).data = some data ∧ (run {} (Cell.marks cells)).settle.top =
      [data.value] := by
  obtain ⟨c, data, haccepted⟩ := exists_accepted h.accepts_marksOf
  refine ⟨data, haccepted.data_eq, ?_⟩
  rw [← run_filter_counts, ← h.marks_eq, run_filter_counts]
  exact haccepted.meaning

/-- **Edits that the layout asks for keep the value.** -/
theorem value_applyAll (h : Cut text cells) (hes : ∀ e ∈ es, Cell.Allows width {} .origin cells e)
    (horder : es.Pairwise fun a b => a.range.Before b.range) {data : Data}
    (hdata : (parse text).data = some data) :
    ∃ data', (parse (applyAll text es)).data = some data' ∧ data'.value = data.value := by
  obtain ⟨plan, rfl, hfollows, -, hfixed⟩ := h.exists_plan hes horder
  obtain ⟨old, hold, hmeaning⟩ := h.meaning
  obtain ⟨new, hnew, hmeaning'⟩ := hfixed.meaning
  obtain ⟨last, hrun, -⟩ := (Option.any_eq_true _ _).1 h.accepts
  rw [Cell.Plan.meaning_rebuild hfollows Config.knows_start rfl .same hrun, hmeaning] at hmeaning'
  obtain rfl : old = data := Option.some.inj (hold.symm.trans hdata)
  exact ⟨new, hnew, (List.singleton_inj.1 hmeaning').symm⟩

end Document.Cut

namespace Analysis

variable {text : String} {data : Data}

/-- **A fix is safe on its own.** In a text that has data and no errors, each edit that mends a
finding, made alone, leaves the value of the document as it is. It does not matter what the document
is checked against. -/
theorem fix_keeps_value_alone (name : String) (index : TypeIndex) (settings : Settings)
    (hdata : (parse text).data = some data)
    (herrors : ∀ d ∈ (parse text).report.diagnostics, d.isError = false) {d : Diagnostic}
    (hd : d ∈ (run name text index settings).diagnostics) {e : Edit} (he : d.fix = some e) :
    ∃ data', (parse (applyAll text [e])).data = some data' ∧ data'.value = data.value := by
  obtain ⟨cells, hcut⟩ := exists_cut (accepts_of_data (by simp [hdata]) herrors)
  have hallows := hcut.allows_of_mem_findings (List.mem_of_mem_take hd) he
  exact hcut.value_applyAll (by simpa using hallows) (List.pairwise_singleton ..) hdata

/-- A tag and a tuple on two lines. The comma between them is needless, but for the end of the line
the tag would get the tuple as its payload. -/
theorem fix_keeps_value_alone_of_tag :
    let text := "[#A,\n(1),]"
    (run "a.txt" text {} {}).diagnostics.length = 6 ∧
      ∀ d ∈ (run "a.txt" text {} {}).diagnostics, ∀ e, d.fix = some e →
        (parse (applyAll text [e])).data.map (·.value.source) = some "[#A, (1)]" := by
  intro text
  -- evaluated together, since they all read the same document
  have hrun : (run "a.txt" text {} {}).diagnostics.length = 6 ∧
      (parse text).data.map (·.value.source) = some "[#A, (1)]" ∧
      ∀ d ∈ (parse text).report.diagnostics, d.isError = false := by decide +kernel
  obtain ⟨hlength, hvalue, herrors⟩ := hrun
  obtain ⟨data, hdata, heq⟩ := Option.map_eq_some_iff.1 hvalue
  refine ⟨hlength, fun d hd e he => ?_⟩
  obtain ⟨data', hdata', heq'⟩ := fix_keeps_value_alone "a.txt" {} {} hdata herrors hd he
  rw [hdata', Option.map_some, heq', heq]

/-- A key has no place in an array. With the key alone taken away, two numbers become one. -/
theorem deleted_key_joins_numbers :
    let text := "[1b:2]"
    ∃ d ∈ (run "a.txt" text {} {}).diagnostics, ∃ e, d.fix = some e ∧
      (parse text).data.map (·.value.source) = some "[1, 2]" ∧
      (parse (applyAll text [e])).data.map (·.value.source) = some "[12]" := by
  intro text
  have hrun : (parse text).data.map (·.value.source) = some "[1, 2]" ∧
      ∃ d ∈ (run "a.txt" text {} {}).diagnostics, d.fix = some ⟨.onLine 0 2 4, ""⟩ := by
        decide +kernel
  have hfixed : applyAll text [⟨.onLine 0 2 4, ""⟩] = "[12]" := by
    rw [applyAll, inOrder_eq_self (List.pairwise_singleton ..)]
    decide +kernel
  obtain ⟨hvalue, d, hd, he⟩ := hrun
  refine ⟨d, hd, _, he, hvalue, ?_⟩
  rw [hfixed]
  decide +kernel

/-- **Fixing keeps the value.** In a text that has data and no errors, all fixes that can be made
together leave the value of the document as it is, however many findings a cap lets through. -/
theorem fixing_keeps_value (name : String) (index : TypeIndex) (settings : Settings)
    (hdata : (parse text).data = some data)
    (herrors : ∀ d ∈ (parse text).report.diagnostics, d.isError = false) :
    ∃ data', (parse (applyAll text (run name text index settings).fixAll)).data = some data' ∧
      data'.value = data.value := by
  obtain ⟨cells, hcut⟩ := exists_cut (accepts_of_data (by simp [hdata]) herrors)
  obtain ⟨horder, hallows⟩ := fixAll_spec hcut name index settings
  exact hcut.value_applyAll hallows horder hdata

/-- A tag and a tuple with blanks and commas around them that do not fit. -/
theorem fixing_keeps_value_of_tuple :
    let text := "[#A  ,(1,),]"
    (run "a.txt" text {} {}).diagnostics ≠ [] ∧
      (parse (applyAll text (run "a.txt" text {} {}).fixAll)).data.map (·.value.source) =
        (parse text).data.map (·.value.source) := by
  intro text
  -- evaluated together, since they all read the same document
  have hrun : (run "a.txt" text {} {}).diagnostics ≠ [] ∧ (parse text).data.isSome = true ∧
      ∀ d ∈ (parse text).report.diagnostics, d.isError = false := by decide +kernel
  obtain ⟨hfindings, hsome, herrors⟩ := hrun
  obtain ⟨data, hdata⟩ := Option.isSome_iff_exists.1 hsome
  obtain ⟨data', hdata', heq⟩ := fixing_keeps_value "a.txt" {} {} hdata herrors
  exact ⟨hfindings, by rw [hdata', hdata, Option.map_some, Option.map_some, heq]⟩

/-- The comma that is missing behind the tag overlaps the blanks in front of it. With the blanks
mended and the comma dropped, the tag gets the tuple as its payload. -/
theorem dropped_comma_joins_tag :
    let text := "[#A b:  /*c*/(1)]"
    (parse text).data.map (·.value.source) = some "[#A, (1)]" ∧
      (parse (applyAll text (run "a.txt" text {} {}).fixAll)).data.map (·.value.source) =
        some "[#A(1)]" := by
  intro text
  have hfixes : Report.fixes ⟨(run "a.txt" text {} {}).diagnostics⟩ =
      [⟨.onLine 0 4 6, ""⟩, ⟨.onLine 0 6 13, ", "⟩, ⟨.onLine 0 6 8, " "⟩] := by
    decide +kernel
  have horder : inOrder [⟨.onLine 0 4 6, ""⟩, ⟨.onLine 0 6 13, ", "⟩, ⟨.onLine 0 6 8, " "⟩] =
      [⟨.onLine 0 4 6, ""⟩, ⟨.onLine 0 6 8, " "⟩, ⟨.onLine 0 6 13, ", "⟩] := by
    refine inOrder_of_perm ?_ (.cons _ (.swap ..))
    simp [Range.Before, Range.onLine, Position.lt_def]
  have hall : (run "a.txt" text {} {}).fixAll = [⟨.onLine 0 4 6, ""⟩, ⟨.onLine 0 6 8, " "⟩] := by
    rw [fixAll, Report.fixAll, hfixes, compatible, horder]
    rfl
  have hfixed : applyAll text [⟨.onLine 0 4 6, ""⟩, ⟨.onLine 0 6 8, " "⟩] =
      "[#A  /*c*/(1)]" := by
    rw [applyAll, inOrder_eq_self (by simp [Range.Before, Range.onLine, Position.lt_def])]
    decide +kernel
  rw [hall, hfixed]
  decide +kernel

end Analysis

end TypedNotation
