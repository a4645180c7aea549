import TypedNotation.Analysis
import TypedNotation.Proofs.BuilderSteps
import TypedNotation.Proofs.CheckFindings
import TypedNotation.Proofs.SequenceFindings

/-!
# Errors and matters of style

Every pass over a document grades its findings in one of two ways: a finding is an error, or it is a
matter of *style*, a warning that is not fatal and comes with the edit that mends it.

* Building chunks and checking against a type find errors only (`isError_of_mem_ofTokens`,
  `Data.error_of_mem_check`).
* Looking at the layout finds matters of style only (`isStyle_of_mem_lint`).
* Reading data finds both, as it warns of needless commas, but nothing fatal (`allMild_data?`).

A document without data is different: all of its findings are errors, and there is one
(`forall_isError_of_data_eq_none`).
-/

namespace TypedNotation

open List Diagnostic Chunk

namespace Diagnostic

variable {d : Diagnostic}

/-- A warning that does no harm and that an edit mends. -/
def IsStyle (d : Diagnostic) : Prop :=
  d.severity = .warning ∧ d.fatal = false ∧ d.fix.isSome = true

/-- An error or a matter of style. -/
def IsGraded (d : Diagnostic) : Prop :=
  d.isError = true ∨ d.IsStyle

/-- All of some findings are errors or matters of style. -/
def AllGraded (ds : List Diagnostic) : Prop :=
  ∀ d ∈ ds, d.IsGraded

@[simp] theorem allGraded_nil : AllGraded [] := by
  simp [AllGraded]

@[simp] theorem allGraded_cons {ds : List Diagnostic} :
    AllGraded (d :: ds) ↔ d.IsGraded ∧ AllGraded ds :=
  forall_mem_cons

@[simp] theorem allGraded_append {ds es : List Diagnostic} :
    AllGraded (ds ++ es) ↔ AllGraded ds ∧ AllGraded es :=
  forall_mem_append

/-- A warning with a fix is a matter of style. -/
theorem isStyle_warning_withFix (kind : Kind) (range : Range) (message : String) (edit : Edit) :
    ((warning kind range message).withFix edit).IsStyle := ⟨rfl, rfl, rfl⟩

/-- No matter of style is an error. -/
theorem IsStyle.not_isError (h : d.IsStyle) : d.isError = false := by
  simp [isError, h.1]

/-- What may be found in a document that is read to its end: an error, with or without an edit that
mends it, or a warning with one. -/
inductive IsMild : Diagnostic → Prop
  | error (kind : Kind) (range : Range) (message : String) : IsMild (.error kind range message)
  | mended (kind : Kind) (range : Range) (message : String) (edit : Edit) :
      IsMild ((error kind range message).withFix edit)
  | style (kind : Kind) (range : Range) (message : String) (edit : Edit) :
      IsMild ((warning kind range message).withFix edit)

attribute [simp] IsMild.error IsMild.mended IsMild.style

/-- A mild finding is graded. -/
theorem IsMild.isGraded (h : d.IsMild) : d.IsGraded := by
  cases h with
  | error => exact .inl rfl
  | mended => exact .inl rfl
  | style => exact .inr (isStyle_warning_withFix _ _ _ _)

/-- No mild finding is fatal. -/
theorem IsMild.not_fatal (h : d.IsMild) : d.fatal = false := by
  cases h <;> rfl

/-- All of some findings are mild. -/
def AllMild (ds : List Diagnostic) : Prop :=
  ∀ d ∈ ds, d.IsMild

@[simp] theorem allMild_nil : AllMild [] := by
  simp [AllMild]

@[simp] theorem allMild_cons {ds : List Diagnostic} :
    AllMild (d :: ds) ↔ d.IsMild ∧ AllMild ds :=
  forall_mem_cons

@[simp] theorem allMild_append {ds es : List Diagnostic} :
    AllMild (ds ++ es) ↔ AllMild ds ∧ AllMild es :=
  forall_mem_append

end Diagnostic

/-! ### Building -/

namespace Chunk

/-- All findings of the builder are errors. -/
theorem Builder.Finding.isError {d : Diagnostic} (h : Builder.Finding d) : d.isError = true := by
  cases h <;> rfl

/-- Whatever the tokens are, the builder finds nothing but errors. -/
theorem isError_of_mem_ofTokens {tokens : List Token} {d : Diagnostic}
    (hd : d ∈ (ofTokens tokens).2.diagnostics) : d.isError = true := by
  rcases mem_diagnostics_ofTokens hd with h | rfl
  · exact h.isError
  · rfl

end Chunk

/-! ### Reading -/

namespace Sequence

/-- Findings about needless commas are mild. -/
theorem Place.allMild_needless (p : Place) : AllMild p.needless := by
  unfold needless
  split <;> simp

/-- Findings in a list are mild. -/
theorem Place.allMild_inList (p : Place) : AllMild p.inList := by
  unfold inList
  split
  · simp [keyInList]
  · split <;> simp [expectedSeparator]
  · split
    · simp [straySeparator, expectedValue]
    · exact p.allMild_needless
  · simp

/-- Findings in a dict are mild. -/
theorem Place.allMild_inDict (p : Place) : AllMild p.inDict := by
  unfold inDict
  split
  · refine allMild_append.2 ⟨?_, ?_⟩
    · unfold misplacedKey
      split <;> simp [expectedValue, expectedSeparator]
    · rintro _ hd
      obtain ⟨k, -, rfl⟩ := mem_map.1 hd
      simp [duplicateKey]
  · simp [expectedKey]
  · simp
  · simp [expectedSeparatorUnfixed]
  · simp [expectedValue]
  · split
    · simp [straySeparator, expectedValue]
    · exact p.allMild_needless
  · exact p.allMild_needless

/-- What is found in a block is mild if what is found in its chunks is. -/
theorem allMild_contents (kind : BlockKind) {cs : List Chunk} (hcs : ∀ c ∈ cs, AllMild c.problems) :
    AllMild (contents kind (items cs)).2 := by
  have hplaces {found : Place → List Diagnostic} (hfound : ∀ p, AllMild (found p)) :
      AllMild ((places cs).flatMap fun p => found p ++ p.chunk.problems) := by
    refine forall_mem_flatMap.2 fun p hp => ?_
    exact allMild_append.2 ⟨hfound p, hcs _ (mem_of_mem_places hp)⟩
  have hlist : AllMild (list (items cs)).2 := by
    rw [list_eq]
    exact hplaces Place.allMild_inList
  cases kind with
  | dict =>
    rw [contents, dict_eq]
    refine allMild_append.2 ⟨hplaces Place.allMild_inDict, ?_⟩
    unfold unfinished
    split <;> simp [missingLast]
  | array => exact hlist
  | tuple => exact hlist

end Sequence

namespace Chunk

mutual

/-- Reading a chunk finds nothing that is not mild. -/
theorem allMild_problems : ∀ c : Chunk, AllMild c.problems
  | .block ⟨kind, children, _, _⟩ => Sequence.allMild_contents kind (allMild_children children)
  | .enum _ _ (some ⟨kind, children, _, _⟩) _ _ =>
    Sequence.allMild_contents kind (allMild_children children)
  | .enum _ _ none _ _ | .key .. | .value .. | .separator .. => by simp [problems, data?]

/-- Findings inside chunks are mild. -/
theorem allMild_children : ∀ cs : List Chunk, ∀ c ∈ cs, AllMild c.problems
  | [] => forall_mem_nil _
  | c :: cs => forall_mem_cons.2 ⟨allMild_problems c, allMild_children cs⟩

end

/-- Findings in the data of a chunk are mild. -/
theorem allMild_data? {c : Chunk} {data : Data} {problems : List Diagnostic}
    (h : c.data? = some (data, problems)) : AllMild problems := by
  have hproblems := c.allMild_problems
  rwa [Chunk.problems, h] at hproblems

/-- Every value has data. -/
theorem isSome_data?_of_isValue {c : Chunk} (h : c.isValue = true) : c.data?.isSome = true := by
  cases c with
  | enum tag tagRange payload r t => cases payload <;> simp [data?]
  | key => simp [isValue] at h
  | separator => simp [isValue] at h
  | _ => simp [data?]

/-- What may not stand at the top level is an error. -/
theorem isError_of_mem_illegalTopLevel {c : Chunk} {d : Diagnostic} (h : d ∈ c.illegalTopLevel) :
    d.isError = true := by
  unfold illegalTopLevel at h
  split at h
  · rw [mem_singleton.1 h]
    rfl
  · rw [mem_singleton.1 h]
    rfl
  · simp at h

end Chunk

namespace Data

variable {chunks : List Chunk} {earlier : Report}

/-- What was found before, together with what may not stand at the top level. -/
def topLevelReport (chunks : List Chunk) (earlier : Report) : Report :=
  earlier.merge ⟨chunks.flatMap illegalTopLevel⟩

/-- The top level reports errors only. -/
theorem isError_of_mem_topLevelReport (hearlier : ∀ d ∈ earlier.diagnostics, d.isError = true)
    {d : Diagnostic} (hd : d ∈ (topLevelReport chunks earlier).diagnostics) : d.isError = true := by
  rcases mem_append.1 hd with hd | hd
  · exact hearlier d hd
  · obtain ⟨c, -, hc⟩ := mem_flatMap.1 hd
    exact isError_of_mem_illegalTopLevel hc

/-- Reading a document ends in one of three ways: at something fatal from before, with one more
fatal error because there is not one value, or with the data of its only value. -/
theorem ofChunks_cases (chunks : List Chunk) (earlier : Report) :
    ((topLevelReport chunks earlier).canContinue = false ∧
      ofChunks chunks earlier = (none, topLevelReport chunks earlier)) ∨
    ((topLevelReport chunks earlier).canContinue = true ∧
      (chunks.filter isValue).length ≠ 1 ∧
      ∃ kind range message, ofChunks chunks earlier =
        (none, (topLevelReport chunks earlier).add (.fatalError kind range message))) ∨
    ((topLevelReport chunks earlier).canContinue = true ∧
      ∃ c data problems, chunks.filter isValue = [c] ∧
        data? c = some (data, problems) ∧
        ofChunks chunks earlier =
          (some data, (topLevelReport chunks earlier).merge ⟨problems⟩)) := by
  unfold ofChunks
  dsimp only
  split
  next hfatal =>
    rw [Bool.not_eq_true'] at hfatal
    exact .inl ⟨hfatal, rfl⟩
  next hcontinue =>
    rw [Bool.not_eq_true', Bool.not_eq_false] at hcontinue
    refine .inr ?_
    split
    next hvalues => exact .inl ⟨hcontinue, by simp [hvalues], _, _, _, rfl⟩
    next c hvalues =>
      have hc : c.isValue = true := by
        have hmem : c ∈ chunks.filter isValue := by simp [hvalues]
        exact (mem_filter.1 hmem).2
      obtain ⟨⟨data, problems⟩, hdata⟩ :=
        Option.isSome_iff_exists.1 (isSome_data?_of_isValue hc)
      exact .inr ⟨hcontinue, c, data, problems, hvalues, hdata, by rw [hdata]; rfl⟩
    next first rest hrest hvalues =>
      refine .inl ⟨hcontinue, ?_, _, _, _, rfl⟩
      rw [hvalues, length_cons]
      intro hlength
      exact hrest (length_eq_zero_iff.1 (by omega))

/-- Reading a document, after nothing but errors was found, finds errors and matters of style. -/
theorem allGraded_ofChunks (hearlier : ∀ d ∈ earlier.diagnostics, d.isError = true) :
    AllGraded (ofChunks chunks earlier).2.diagnostics := by
  have htop : AllGraded (topLevelReport chunks earlier).diagnostics :=
    fun d hd => .inl (isError_of_mem_topLevelReport hearlier hd)
  rcases ofChunks_cases chunks earlier with ⟨-, h⟩ | ⟨-, -, kind, range, message, h⟩ |
    ⟨-, c, data, problems, -, hdata, h⟩
  · rw [h]
    exact htop
  · rw [h]
    exact allGraded_append.2 ⟨htop, by simpa using .inl rfl⟩
  · rw [h]
    exact allGraded_append.2
      ⟨htop, fun d hd => (allMild_data? hdata d hd).isGraded⟩

/-- A document that cannot be read has an error, and nothing but errors. -/
theorem forall_isError_of_ofChunks_eq_none (hearlier : ∀ d ∈ earlier.diagnostics, d.isError = true)
    (hnone : (ofChunks chunks earlier).1 = none) :
    (ofChunks chunks earlier).2.diagnostics ≠ [] ∧
      ∀ d ∈ (ofChunks chunks earlier).2.diagnostics, d.isError = true := by
  rcases ofChunks_cases chunks earlier with ⟨hfatal, h⟩ | ⟨-, -, kind, range, message, h⟩ |
    ⟨-, c, data, problems, -, -, h⟩
  · rw [h]
    refine ⟨fun hnil => ?_, fun d hd => isError_of_mem_topLevelReport hearlier hd⟩
    dsimp only at hnil
    simp [Report.canContinue, hnil] at hfatal
  · rw [h]
    refine ⟨by simp [Report.add], fun d hd => ?_⟩
    rcases mem_append.1 hd with hd | hd
    · exact isError_of_mem_topLevelReport hearlier hd
    · rw [mem_singleton.1 hd]
      rfl
  · simp [h] at hnone

end Data

/-! ### Checking -/

/-- A check finds errors only. No edit mends them, and none is of a kind that is a matter of
style. -/
theorem Data.error_of_mem_check {r : Resolver} {data : Data} {spec : TypeSpec} {d : Diagnostic}
    (hd : d ∈ (data.check r spec).diagnostics) :
    d.isError = true ∧ d.fix = none ∧ d.kind.isStyle = false := by
  have hmade : (data.check r spec).Made True _ :=
    data.made_check (fun h => absurd trivial h) spec fun h => absurd trivial h
  obtain ⟨kind, range, message, rfl, -, hkind⟩ := hmade.exists_eq_error hd
  exact ⟨rfl, rfl, hkind⟩

/-! ### Layout -/

namespace Layout

@[simp] theorem isStyle_warn (kind : Kind) (range : Range) (message text : String) :
    (warn kind range message text).IsStyle :=
  isStyle_warning_withFix _ _ _ _

@[simp] theorem kind_warn (kind : Kind) (range : Range) (message text : String) :
    (warn kind range message text).kind = kind := rfl

theorem style_of_mem_trailingBlanks (r : Row) :
    ∀ d ∈ trailingBlanks r, d.IsStyle ∧ d.kind = .trailingWhitespace := by
  unfold trailingBlanks
  dsimp only
  split <;> simp

theorem style_of_mem_indentation (settings : LayoutSettings) (data : Data) (r : Row) :
    ∀ d ∈ indentation settings data r, d.IsStyle ∧ d.kind = .indentation := by
  unfold indentation
  dsimp only
  split <;> simp

/-- The two gaps around a token. -/
theorem style_of_mem_gapsAround (lines : List (List Char)) (before current after : Token) :
    ∀ d ∈ gapsAround lines before current after, d.IsStyle ∧ d.kind = .padding := by
  unfold gapsAround
  refine forall_mem_append.2 ⟨?_, ?_⟩
  · split <;> simp [gap]
  · split <;> simp [gap]

theorem style_of_mem_padding (lines : List (List Char)) (tokens : List Token) :
    ∀ d ∈ padding lines tokens, d.IsStyle ∧ d.kind = .padding := by
  induction tokens using padding.induct with
  | case1 before current after rest ih =>
    rw [padding]
    refine forall_mem_append.2 ⟨?_, ih⟩
    split
    · exact style_of_mem_gapsAround lines before current after
    · simp
  | case2 tokens hshort =>
    rw [padding]
    · simp
    · exact hshort

theorem style_of_mem_lineBreaks (indent : Position → Nat) (tokens : Array Token)
    (block : Block Data) : ∀ d ∈ lineBreaks indent tokens block, d.IsStyle ∧
      d.kind = .lineBreak := by
  have hbefore : ∀ range inner closing,
      ∀ d ∈ breakBeforeClosing indent range inner closing, d.IsStyle ∧ d.kind = .lineBreak := by
    intro range inner closing
    unfold breakBeforeClosing
    split
    · split <;> simp [lineBreak]
    · simp
  have hafter : ∀ range opening inner,
      ∀ d ∈ breakAfterOpening indent range opening inner, d.IsStyle ∧ d.kind = .lineBreak := by
    intro range opening inner
    unfold breakAfterOpening
    dsimp only
    split
    · split <;> simp [lineBreak]
    · simp
  unfold lineBreaks
  dsimp only
  split
  · split
    · exact forall_mem_append.2 ⟨hbefore _ _ _, hafter _ _ _⟩
    · simp
  · simp

/-- All that is found in a layout is a matter of style. -/
theorem isStyle_of_mem_lint {settings : LayoutSettings} {lines : List (List Char)}
    {tokens : List Token} {data : Data} {d : Diagnostic} (h : d ∈ lint settings lines tokens data) :
    d.IsStyle := by
  unfold lint at h
  simp only [mem_append, mem_flatMap] at h
  rcases h with ((⟨r, -, h⟩ | ⟨r, -, h⟩) | h) | ⟨block, -, h⟩
  · exact (style_of_mem_trailingBlanks r d h).1
  · exact (style_of_mem_indentation settings data r d h).1
  · exact (style_of_mem_padding lines _ d h).1
  · exact (style_of_mem_lineBreaks _ _ block d h).1

end Layout

/-! ### Documents -/

namespace Document

/-- The data and the findings of a text come from its chunks. -/
theorem data_report_parse (text : String) : ((parse text).data, (parse text).report) =
    Data.ofChunks (ofTokens (tokensOf text)).1 (ofTokens (tokensOf text)).2 := by
  rw [parse]

/-- All findings of a text are graded. -/
theorem allGraded_parse (text : String) : AllGraded (parse text).report.diagnostics := by
  have hreport := congrArg Prod.snd (data_report_parse text)
  dsimp only at hreport
  rw [hreport]
  exact Data.allGraded_ofChunks fun _ hd => isError_of_mem_ofTokens hd

/-- A text without data has findings, and all are errors. -/
theorem forall_isError_of_data_eq_none {text : String} (h : (parse text).data = none) :
    (parse text).report.diagnostics ≠ [] ∧
      ∀ d ∈ (parse text).report.diagnostics, d.isError = true := by
  have hdata := congrArg Prod.fst (data_report_parse text)
  have hreport := congrArg Prod.snd (data_report_parse text)
  dsimp only at hdata hreport
  rw [hdata] at h
  rw [hreport]
  exact Data.forall_isError_of_ofChunks_eq_none (fun _ hd => isError_of_mem_ofTokens hd) h

end Document

namespace Analysis

/-- What is found by checking against a type is an error that no edit mends. -/
theorem error_of_mem_typeFindings {document : Document} {r : Resolver}
    {spec : Option (Except ResolutionIssue TypeSpec)} {d : Diagnostic}
    (h : d ∈ typeFindings document r spec) :
    d.isError = true ∧ d.fix = none ∧ d.kind.isStyle = false := by
  unfold typeFindings at h
  split at h
  next => exact Data.error_of_mem_check h
  next =>
    rw [mem_singleton.1 h]
    exact ⟨rfl, rfl, rfl⟩
  next => simp at h

section

variable {document : Document} {settings : LayoutSettings} {d : Diagnostic}

/-- What is found in a layout is what the rules find, if anything. -/
theorem mem_lint_of_mem_layoutFindings (h : d ∈ layoutFindings document settings) :
    ∃ data, document.data = some data ∧
      d ∈ Layout.lint settings document.lines document.tokens data := by
  unfold layoutFindings at h
  split at h
  next data hdata =>
    obtain ⟨-, h⟩ := mem_ite_nil_right.1 h
    refine ⟨data, hdata, ?_⟩
    cases hlint : Layout.lint? settings document.lines document.tokens data with
    | none => simp [hlint] at h
    | some found =>
      rw [hlint] at h
      exact (Layout.lint?_eq_some_iff.1 hlint).2 ▸ h
  next => cases h

/-- All findings about layout are matters of style. -/
theorem isStyle_of_mem_layoutFindings (h : d ∈ layoutFindings document settings) : d.IsStyle := by
  obtain ⟨data, -, hd⟩ := mem_lint_of_mem_layoutFindings h
  exact Layout.isStyle_of_mem_lint hd

end

/-- All findings of an analysis are errors or matters of style. -/
theorem allGraded_findings (text : String) (r : Resolver)
    (spec : Option (Except ResolutionIssue TypeSpec)) (settings : Settings) :
    AllGraded (findings (Document.parse text) r spec settings) := by
  refine allGraded_append.2 ⟨allGraded_append.2 ⟨?_, ?_⟩, ?_⟩
  · exact Document.allGraded_parse text
  · exact fun d hd => .inr (isStyle_of_mem_layoutFindings hd)
  · exact fun d hd => .inl (error_of_mem_typeFindings hd).1

end Analysis

end TypedNotation
