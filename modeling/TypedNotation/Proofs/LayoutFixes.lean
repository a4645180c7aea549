import TypedNotation.Proofs.LinePlaces

/-!
# Making the fixes

All that is found in a document without errors and can be fixed is a matter of layout, and every fix
is one that the layout asks for (`Document.Cut.allows_of_mem_findings`). So however many of the
fixes are made, they follow a plan, and the cells of the plan are those of the new text, which has
no errors either (`Document.Cut.exists_plan`).
-/

namespace TypedNotation

namespace Cell

theorem Reads.stop_text_ne_nil_of_mem {s : Scanner} {cells : List Cell} (h : Reads s cells) :
    ∀ c ∈ cells, c.stop.text ≠ [] := by
  induction cells generalizing s with
  | nil => exact fun c hc => nomatch hc
  | cons c cells ih =>
    obtain ⟨next, hrest⟩ := h.exists_tail
    exact List.forall_mem_cons.2 ⟨h.stop_text_ne_nil, ih hrest⟩

/-- The layout asks for no stop to be taken away but commas. -/
theorem Plan.Follows.dropsCommas {width : Nat} {spot : Spot} {plan : Plan}
    (h : plan.Follows width spot) : plan.DropsCommas := by
  induction plan generalizing spot with
  | nil => exact fun c change hc => nomatch hc
  | cons entry rest ih =>
    obtain ⟨-, hdrop, hrest⟩ := h
    intro c change hc hchange
    rcases List.mem_cons.1 hc with rfl | hc
    · exact (hdrop hchange).1
    · exact ih hrest c change hc hchange

end Cell

namespace Document.Cut

open Cell

variable {text : String} {cells : List Cell} {width : Nat} {d : Diagnostic} {e : Edit}

/-- **Every fix is one that the layout asks for.** In a document without errors, whatever type it is
checked against. -/
theorem allows_of_mem_findings (h : Cut text cells) {resolver : Resolver}
    {spec : Option (Except ResolutionIssue TypeSpec)} {settings : Settings}
    (hd : d ∈ Analysis.findings (parse text) resolver spec settings) (he : d.fix = some e) :
    Allows settings.layout.indentWidth {} .origin cells e := by
  obtain ⟨c, data, haccepted⟩ := exists_accepted h.accepts_marksOf
  rcases List.mem_append.1 hd with hd | hd
  · rcases List.mem_append.1 hd with hd | hd
    · exact h.allows_of_needlessIn (haccepted.needless d hd) he
    · obtain ⟨data', hdata, hd⟩ := Analysis.mem_lint_of_mem_layoutFindings hd
      obtain rfl : data = data' := Option.some.inj (haccepted.data_eq.symm.trans hdata)
      rw [tokens_parse, lines_parse] at hd
      simp only [Layout.lint, List.mem_append, List.mem_flatMap, or_assoc] at hd
      obtain ⟨r, hr, hd⟩ | ⟨r, hr, hd⟩ | hd | ⟨block, hblock, hd⟩ := hd
      · exact h.allows_of_mem_trailingBlanks hr hd he
      · exact h.allows_of_mem_indentation haccepted hr hd he
      · exact h.allows_of_mem_padding hd he
      · obtain ⟨n, hn, hinner⟩ := data.exists_of_mem_blocks block hblock
        have hsits := (sits_of_mem_nodes haccepted.data_eq n hn).innerBlock hinner
        exact h.allows_of_mem_lineBreaks hsits.enclosed hd he
  · rw [(Analysis.error_of_mem_typeFindings hd).2.1] at he
    cases he

/-- **Fixes follow a plan.** Edits that the layout asks for, in order and with different ranges, are
the edits of a plan, and the new text is cut into the cells of the plan. -/
theorem exists_plan (h : Cut text cells) {es : List Edit}
    (hes : ∀ e ∈ es, Allows width {} .origin cells e)
    (horder : es.Pairwise fun a b => a.range.Before b.range) :
    ∃ plan : Plan, plan.cells = cells ∧ plan.Follows width {} ∧ plan.edits .origin = es ∧
      Cut (Edit.applyAll text es) (plan.rebuild []) := by
  obtain ⟨plan, rfl, rfl, hfollows⟩ := exists_follows horder hes h.reads.stop_text_ne_nil_of_mem
  refine ⟨plan, rfl, hfollows, rfl, ?_, ?_, Plan.accepts_rebuild hfollows h.accepts⟩
  · exact Plan.reads_rebuild h.reads hfollows
      ⟨rfl, by simp, by simp, by simp⟩ (Scanner.gapFits_nil _)
  · have hne : plan ≠ [] := by
      rintro rfl
      exact h.ne_nil rfl
    have hsplice := Plan.splice_edits h.reads hfollows.dropsCommas Text.at_origin
      h.chars.symm (by simp) (Nat.zero_le _) (Nat.zero_le _)
    rw [Plan.chars_rebuild h.reads hne hfollows.dropsCommas, Edit.applyAll,
      Edit.inOrder_eq_self horder, String.toList_ofList]
    exact hsplice.symm

end Document.Cut

/-- The fixes that are made together are some of those that the layout asks for. -/
theorem Analysis.fixAll_spec {text : String} {cells : List Cell} (h : Document.Cut text cells)
    (name : String) (index : TypeIndex) (settings : Settings) :
    ((run name text index settings).fixAll.Pairwise fun a b => a.range.Before b.range) ∧
      ∀ e ∈ (run name text index settings).fixAll,
        Cell.Allows settings.layout.indentWidth {} .origin cells e := by
  have hallows : ∀ e ∈ Report.fixes ⟨(run name text index settings).diagnostics⟩,
      Cell.Allows settings.layout.indentWidth {} .origin cells e := by
    intro e he
    obtain ⟨d, hd, he⟩ := List.mem_filterMap.1 he
    exact h.allows_of_mem_findings (List.mem_of_mem_take hd) he
  obtain ⟨horder, hmem⟩ :=
    Edit.compatible_spec fun e he => ((hallows e he).le h.reads.stop_text_ne_nil_of_mem).2
  exact ⟨horder, fun e he => hallows e (hmem e he)⟩

end TypedNotation
