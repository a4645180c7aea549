import TypedNotation.Proofs.KeptValues

/-!
# Fixing again and again

A round of fixing makes all edits that mend the findings of a text and can be made together
(`Analysis.fixRound`). One round is not always enough: of two edits at one place only one is made.
On a document without errors the rounds come to an end, though, and what is left in the end is as
the layout wants it (`Analysis.repeated_fixing_ends_clean`). A round that changes anything lowers
the weight of the text, or it leaves the weight as it is and lowers the number of gaps that do not
fit (`Analysis.fixRound_of_cut`).

No round breaks off, provided that the blocks inside each other leave an indent that can be counted.
Fixing keeps the value, and with it the number of these blocks (`Value.nesting`).
-/

namespace TypedNotation

open List Cell Document

/-! ### Blocks inside each other -/

namespace Value

mutual

/-- The greatest number of blocks inside each other. -/
def nesting : Value → Nat
  | scalar _ => 0
  | dict entries => 1 + entriesNesting entries
  | array items => 1 + itemsNesting items
  | tuple items => 1 + itemsNesting items
  | enum _ none => 0
  | enum _ (some payload) => payload.nesting

/-- The greatest number of blocks inside each other in some properties. -/
def entriesNesting : List (String × Value) → Nat
  | [] => 0
  | (_, v) :: rest => max v.nesting (entriesNesting rest)

/-- The greatest number of blocks inside each other in some elements. -/
def itemsNesting : List Value → Nat
  | [] => 0
  | v :: rest => max v.nesting (itemsNesting rest)

end

end Value

namespace Data

mutual

/-- There are no more blocks around a position than blocks inside each other. -/
theorem depthAt_le_nesting (p : Position) : ∀ d : Data, d.depthAt p ≤ d.value.nesting
  | primitive .. => Nat.zero_le _
  | block b => blockDepthAt_le_nesting p b
  | enum _ _ none _ _ => Nat.zero_le _
  | enum _ _ (some b) _ _ => blockDepthAt_le_nesting p b

theorem blockDepthAt_le_nesting (p : Position) :
    ∀ b : Block Data, blockDepthAt p b ≤ (contentsValue b.contents).nesting
  | ⟨.dict entries _, _, _⟩ => by
    have hle := entriesDepthAt_le_nesting p entries
    rw [blockDepthAt_children, Contents.children, ← entriesDepthAt_eq, contentsValue, Value.nesting]
    split <;> omega
  | ⟨.array items, _, _⟩ | ⟨.tuple items, _, _⟩ => by
    have hle := itemsDepthAt_le_nesting p items
    rw [blockDepthAt_children, Contents.children, contentsValue, Value.nesting]
    split <;> omega

theorem entriesDepthAt_le_nesting (p : Position) :
    ∀ entries, entriesDepthAt p entries ≤ Value.entriesNesting (entryValues entries)
  | [] => Nat.zero_le _
  | (_, d) :: rest => by
    have hfirst := d.depthAt_le_nesting p
    have hrest := entriesDepthAt_le_nesting p rest
    rw [entriesDepthAt, entryValues, Value.entriesNesting]
    omega

theorem itemsDepthAt_le_nesting (p : Position) :
    ∀ items, itemsDepthAt p items ≤ Value.itemsNesting (itemValues items)
  | [] => Nat.zero_le _
  | d :: rest => by
    have hfirst := d.depthAt_le_nesting p
    have hrest := itemsDepthAt_le_nesting p rest
    rw [itemsDepthAt, itemValues, Value.itemsNesting]
    omega

end

end Data

/-! ### Rounds -/

namespace Analysis

/-- The text after a round of fixing. -/
def fixRound (name : String) (index : TypeIndex) (settings : Settings) (text : String) : String :=
  Edit.applyAll text (run name text index settings).fixAll

/-- Nothing is left to fix: nothing is found in a text by reading it or in its layout, and no
finding is a matter of style. -/
structure IsClean (name : String) (index : TypeIndex) (settings : Settings) (text : String) :
    Prop where
  data : (parse text).data.isSome = true
  report : (parse text).report.diagnostics = []
  layout : layoutFindings (parse text) settings.layout = []
  kinds : ∀ d ∈ (run name text index settings).diagnostics, d.kind.isStyle = false

variable {name : String} {index : TypeIndex} {settings : Settings} {text : String}
  {cells : List Cell}

/-- Where there is nothing to fix, nothing is wrong. -/
theorem isClean_of_fixAll (h : Cut text cells) (hcap : 0 < settings.maxProblems)
    (hnone : (run name text index settings).fixAll = []) : IsClean name index settings text := by
  obtain ⟨c, data, haccepted⟩ := exists_accepted h.accepts_marksOf
  have hfix : ∀ d ∈ (parse text).report.diagnostics ++ layoutFindings (parse text) settings.layout,
      d.fix.isSome = true := by
    intro d hd
    rcases mem_append.1 hd with hd | hd
    · obtain ⟨front, t, back, -, -, rfl, -⟩ := haccepted.needless d hd
      rfl
    · exact (isStyle_of_mem_layoutFindings hd).2.2
  -- the first of these findings would be kept, whatever the cap
  have hempty : (parse text).report.diagnostics ++ layoutFindings (parse text) settings.layout =
      [] := by
    cases hds : (parse text).report.diagnostics ++ layoutFindings (parse text) settings.layout with
    | nil => rfl
    | cons d ds =>
      obtain ⟨e, he⟩ := Option.isSome_iff_exists.1 (hfix d (hds ▸ mem_cons_self))
      have hmem : d ∈ (run name text index settings).diagnostics := by
        obtain ⟨n, hn⟩ := Nat.exists_eq_succ_of_ne_zero (Nat.pos_iff_ne_zero.1 hcap)
        rw [run, findings, hds, hn]
        exact mem_cons_self
      have hne : Report.fixes ⟨(run name text index settings).diagnostics⟩ ≠ [] :=
        ne_nil_of_mem (mem_filterMap.2 ⟨d, hmem, he⟩)
      exact absurd hnone (Edit.compatible_ne_nil hne)
  obtain ⟨hreport, hlayout⟩ := append_eq_nil_iff.1 hempty
  refine ⟨by rw [haccepted.data_eq]; rfl, hreport, hlayout, fun d hd => ?_⟩
  rw [run, findings, hempty, nil_append] at hd
  exact (error_of_mem_typeFindings (mem_of_mem_take hd)).2.2

/-- **A round comes closer to the end.** A text without errors is clean and stays as it is, or the
next round makes a text without errors that is lighter, or as heavy and with fewer gaps that do not
fit. -/
theorem fixRound_of_cut (h : Cut text cells) (hcap : 0 < settings.maxProblems) :
    (fixRound name index settings text = text ∧ IsClean name index settings text) ∨
      ∃ cells', Cut (fixRound name index settings text) cells' ∧
        Prod.Lex (· < ·) (· < ·)
          (Text.weight false (chars cells'), misfits settings.layout.indentWidth {} cells')
          (Text.weight false (chars cells), misfits settings.layout.indentWidth {} cells) := by
  obtain ⟨horder, hallows⟩ := fixAll_spec h name index settings
  by_cases hnone : (run name text index settings).fixAll = []
  · refine .inl ⟨?_, isClean_of_fixAll h hcap hnone⟩
    rw [fixRound, hnone]
    simp [Edit.applyAll, Edit.inOrder, Edit.splice]
  · obtain ⟨plan, rfl, hfollows, hedits, hcut⟩ := h.exists_plan hallows horder
    refine .inr ⟨_, hcut, ?_⟩
    have hne : plan ≠ [] := by
      rintro rfl
      exact h.ne_nil rfl
    have htracks : Tracks {} {} {} := ⟨rfl, by simp, by simp, by simp⟩
    have hweight : Text.weight false plan.text + plan.cuts ≤ Text.weight false (chars plan.cells) :=
      Plan.weight_text h.reads hfollows htracks (by simp) id
    rw [← nil_append plan.text,
      ← Plan.chars_rebuild h.reads hne hfollows.dropsCommas] at hweight
    rcases Nat.eq_zero_or_pos plan.cuts with hcuts | hcuts
    · have hmisfits := Plan.misfits_rebuild h.reads hfollows hcuts .origin
      rw [hedits] at hmisfits
      have hpos := length_pos_of_ne_nil hnone
      rcases Nat.lt_or_eq_of_le (Nat.le_of_add_right_le hweight) with hlt | heq
      · exact .left _ _ hlt
      · rw [heq]
        exact .right _ (by omega)
    · exact .left _ _ (by omega)

/-- The rounds come to an end. -/
theorem exists_round (h : Cut text cells) (hcap : 0 < settings.maxProblems) :
    ∃ n, fixRound name index settings ((fixRound name index settings)^[n] text) =
        (fixRound name index settings)^[n] text ∧
      IsClean name index settings ((fixRound name index settings)^[n] text) := by
  generalize hm : (Text.weight false (chars cells), misfits settings.layout.indentWidth {} cells) =
    m
  induction m using (Prod.lex Nat.lt_wfRel Nat.lt_wfRel).wf.induction generalizing text cells with
  | _ m ih =>
    obtain hdone | ⟨cells', hcut, hlt⟩ := @fixRound_of_cut name index _ _ _ h hcap
    · exact ⟨0, hdone⟩
    · obtain ⟨n, hn⟩ := ih _ (hm ▸ hlt) hcut rfl
      exact ⟨n + 1, hn⟩

/-- A document in which even the deepest indent can be counted is analysed to the end. -/
theorem brokeOff_eq_false {data : Data} (hdata : (parse text).data = some data)
    (hfits : settings.layout.indentWidth * data.value.nesting < UInt32.size) :
    (run name text index settings).brokeOff = false := by
  have hindents : Layout.indentsFit settings.layout (parse text).lines (parse text).tokens data =
      true := by
    refine Layout.indentsFit_iff.2 fun p _ => lt_of_le_of_lt ?_ hfits
    exact Nat.mul_le_mul_left _ (data.depthAt_le_nesting p)
  simp only [run, isTooWide, hdata, hindents, Bool.not_true, Bool.and_false]

/-- Rounds keep the value. -/
theorem exists_data_round (h : Cut text cells) {data : Data} (hdata : (parse text).data = some data)
    (n : Nat) : ∃ data', (parse ((fixRound name index settings)^[n] text)).data = some data' ∧
      data'.value = data.value := by
  induction n generalizing text cells data with
  | zero => exact ⟨data, hdata, rfl⟩
  | succ n ih =>
    obtain ⟨horder, hallows⟩ := fixAll_spec h name index settings
    obtain ⟨plan, -, -, -, hcut⟩ := h.exists_plan hallows horder
    obtain ⟨next, hnext, hvalue⟩ := h.value_applyAll hallows horder hdata
    obtain ⟨last, hlast, heq⟩ := ih hcut hnext
    exact ⟨last, hlast, heq.trans hvalue⟩

/-- **Repeated fixing reaches a clean document.** From a text that has data and no errors, rounds of
fixing lead to a text that a further round leaves as it is. It still has data, nothing is found by
reading it or in its layout, and no finding at all is a needless comma or a matter of blanks and
line breaks. That holds for every width of indents and whatever the document is checked against, and
a cap on the findings may even be reached, as long as it lets one finding through. If as many
indents as there are blocks inside each other fit into 32 bits, no round breaks off. -/
theorem repeated_fixing_ends_clean (name : String) (index : TypeIndex) {settings : Settings}
    (hcap : 0 < settings.maxProblems) {text : String} (hdata : (parse text).data.isSome = true)
    (herrors : ∀ d ∈ (parse text).report.diagnostics, d.isError = false) :
    (∃ n, fixRound name index settings ((fixRound name index settings)^[n] text) =
        (fixRound name index settings)^[n] text ∧
      IsClean name index settings ((fixRound name index settings)^[n] text)) ∧
    ∀ data, (parse text).data = some data →
      settings.layout.indentWidth * data.value.nesting < UInt32.size →
      ∀ n, (run name ((fixRound name index settings)^[n] text) index settings).brokeOff =
        false := by
  obtain ⟨cells, hcut⟩ := exists_cut (accepts_of_data hdata herrors)
  refine ⟨exists_round hcut hcap, fun data hdata hfits n => ?_⟩
  obtain ⟨data', hdata', hvalue⟩ := exists_data_round hcut hdata n
  exact brokeOff_eq_false hdata' (by rwa [hvalue])

/-- A text with findings of all five kinds. The comma at the start of the second line has to go, and
so has the indent that it leaves behind. -/
theorem repeated_fixing_ends_clean_of_five :
    ((run "a.txt" "[1 ,2 \n ,]" {} {}).diagnostics.map (·.kind)).dedup =
        [.unnecessaryComma, .trailingWhitespace, .indentation, .padding, .lineBreak] ∧
      (∃ n, fixRound "a.txt" {} {} ((fixRound "a.txt" {} {})^[n] "[1 ,2 \n ,]") =
          (fixRound "a.txt" {} {})^[n] "[1 ,2 \n ,]" ∧
        IsClean "a.txt" {} {} ((fixRound "a.txt" {} {})^[n] "[1 ,2 \n ,]")) ∧
      ∀ n, (run "a.txt" ((fixRound "a.txt" {} {})^[n] "[1 ,2 \n ,]") {} {}).brokeOff = false := by
  have hrun : (∃ data ∈ (parse "[1 ,2 \n ,]").data, data.value.nesting = 1) ∧
      ∀ d ∈ (parse "[1 ,2 \n ,]").report.diagnostics, d.isError = false := by decide +kernel
  obtain ⟨⟨data, hdata, hnesting⟩, herrors⟩ := hrun
  have hcap : 0 < ({} : Settings).maxProblems := by decide
  obtain ⟨hends, hbroke⟩ :=
    repeated_fixing_ends_clean "a.txt" {} hcap (Option.isSome_of_mem hdata) herrors
  exact ⟨by decide +kernel, hends, hbroke data hdata (by rw [hnesting]; decide)⟩

end Analysis

end TypedNotation
