import TypedNotation.Check
import TypedNotation.Proofs.DataParts

/-!
# What a check finds

A check answers twice: by a truth value, and by findings. Its verdict is put together from passes,
from failures that report one error each, and from silent failures (`Verdict.Made`). A silent
failure only comes from a type that is missing, so a check against complete types fails exactly if
it reports something (`Data.verdict_agrees_with_report`).

A failure is reported at a node of the data: at the node itself, its tag, its block, a key of its
block, or the elements that are too many or too few (`Data.Shows`).
-/

namespace TypedNotation

open List

/-! ### Complete types -/

mutual

/-- Whether no part of a type is missing, at any depth. Names are not followed. -/
def TypeSpec.isComplete : TypeSpec → Bool
  | .primitive _ => true
  | .block spec => spec.isComplete
  | .enum variants => TypeSpec.variantsComplete variants
  | .ref _ => true
  | .missing => false

/-- Whether no part of a block type is missing. -/
def BlockSpec.isComplete : BlockSpec → Bool
  | .dict fields => TypeSpec.fieldsComplete fields
  | .record value => value.isComplete
  | .array element => element.isComplete
  | .tuple elements => TypeSpec.elementsComplete elements

/-- Whether no part of the fields of a dict type is missing. -/
def TypeSpec.fieldsComplete : List (String × TypeSpec) → Bool
  | [] => true
  | (_, spec) :: rest => spec.isComplete && TypeSpec.fieldsComplete rest

/-- Whether no part of the elements of a tuple type is missing. -/
def TypeSpec.elementsComplete : List TypeSpec → Bool
  | [] => true
  | spec :: rest => spec.isComplete && TypeSpec.elementsComplete rest

/-- Whether no part of the variants of an enum type is missing. -/
def TypeSpec.variantsComplete : List (String × Option BlockSpec) → Bool
  | [] => true
  | (_, none) :: rest => TypeSpec.variantsComplete rest
  | (_, some spec) :: rest => spec.isComplete && TypeSpec.variantsComplete rest

end

/-- Whether all types that a lookup gives are complete. -/
def Resolver.IsComplete (r : Resolver) : Prop :=
  ∀ name spec, r name = .ok spec → spec.isComplete = true

namespace TypeSpec

theorem isComplete_of_lookup_fields {fields : List (String × TypeSpec)} {name : String}
    {spec : TypeSpec} (h : fieldsComplete fields = true) (hspec : fields.lookup name = some spec) :
    spec.isComplete = true := by
  induction fields with
  | nil => simp at hspec
  | cons field rest ih =>
    obtain ⟨key, first⟩ := field
    rw [fieldsComplete, Bool.and_eq_true] at h
    rw [List.lookup_cons] at hspec
    split at hspec
    · exact Option.some.inj hspec ▸ h.1
    · exact ih h.2 hspec

theorem isComplete_of_getElem? {elements : List TypeSpec} {i : Nat} {spec : TypeSpec}
    (h : elementsComplete elements = true) (hspec : elements[i]? = some spec) :
    spec.isComplete = true := by
  induction elements generalizing i with
  | nil => simp at hspec
  | cons first rest ih =>
    rw [elementsComplete, Bool.and_eq_true] at h
    cases i with
    | zero => exact Option.some.inj hspec ▸ h.1
    | succ i => exact ih h.2 hspec

theorem isComplete_of_lookup_variants {variants : List (String × Option BlockSpec)} {tag : String}
    {spec : BlockSpec} (h : variantsComplete variants = true)
    (hspec : variants.lookup tag = some (some spec)) : spec.isComplete = true := by
  induction variants with
  | nil => simp at hspec
  | cons variant rest ih =>
    rw [List.lookup_cons] at hspec
    obtain ⟨name, _ | payload⟩ := variant
    · rw [variantsComplete] at h
      split at hspec
      · cases hspec
      · exact ih h hspec
    · rw [variantsComplete, Bool.and_eq_true] at h
      split at hspec
      · cases hspec
        exact h.1
      · exact ih h.2 hspec

variable {r : Resolver} {spec resolved : TypeSpec}

/-- A complete type leads to complete types. -/
theorem isComplete_follow (hr : r.IsComplete) {hops : Nat} (hspec : spec.isComplete = true)
    (h : spec.follow r hops = .ok resolved) : resolved.isComplete = true := by
  induction hops generalizing spec with
  | zero =>
    cases spec with
    | ref name => simp [follow] at h
    | _ => exact Except.ok.inj h ▸ hspec
  | succ hops ih =>
    cases spec with
    | ref name =>
      rw [follow] at h
      split at h
      next next hnext => exact ih (hr name next hnext) h
      next => cases h
    | _ => exact Except.ok.inj h ▸ hspec

/-- What a type resolves to is no name. -/
theorem follow_ne_ref {hops : Nat} {name : String} : spec.follow r hops ≠ .ok (.ref name) := by
  induction hops generalizing spec with
  | zero => cases spec <;> simp [follow]
  | succ hops ih =>
    cases spec with
    | ref other =>
      rw [follow]
      split
      · exact ih
      · simp
    | _ => simp [follow]

end TypeSpec

/-! ### Verdicts -/

/-- Whether findings of a kind are matters of style. -/
def Diagnostic.Kind.isStyle : Kind → Bool
  | unnecessaryComma | trailingWhitespace | indentation | padding | lineBreak => true
  | _ => false

namespace Verdict

/-- A verdict is put together from passes, from errors that are reported at certain places, none of
them a matter of style, and from failures that are not reported, if there may be such. -/
inductive Made (silent : Prop) (places : Range → Prop) : Verdict → Prop
  | pass : Made silent places pass
  | fail {kind : Diagnostic.Kind} {range : Range} (hkind : kind.isStyle = false) (message : String)
      (hrange : places range) : Made silent places (fail kind range message)
  | silent (hsilent : silent) : Made silent places ⟨false, []⟩
  | and {a b : Verdict} (ha : Made silent places a) (hb : Made silent places b) :
      Made silent places (a.and b)

namespace Made

variable {silent : Prop} {places places' : Range → Prop} {v : Verdict}

/-- Findings at some places are at any more of them. -/
theorem mono (h : Made silent places v) (hle : ∀ r, places r → places' r) :
    Made silent places' v := by
  induction h with
  | pass => exact .pass
  | fail hkind message hrange => exact .fail hkind message (hle _ hrange)
  | silent hsilent => exact .silent hsilent
  | and _ _ iha ihb => exact iha.and ihb

/-- Several verdicts are made as each of them is. -/
theorem all {vs : List Verdict} (h : ∀ v ∈ vs, Made silent places v) :
    Made silent places (Verdict.all vs) := by
  induction vs with
  | nil => exact .pass
  | cons v vs ih =>
    have hvs := ih fun w hw => h w (mem_cons_of_mem v hw)
    exact (h v mem_cons_self).and hvs

/-- Where no failure is silent, a verdict fails exactly if it reports something. -/
theorem ok_iff (h : Made silent places v) (hsilent : ¬silent) :
    v.ok = true ↔ v.diagnostics = [] := by
  induction h with
  | pass => simp [Verdict.pass]
  | fail => simp [Verdict.fail]
  | silent hs => exact absurd hs hsilent
  | and _ _ iha ihb => simp [Verdict.and, iha, ihb]

/-- All that is reported are plain errors at the places, and no matters of style. -/
theorem exists_eq_error (h : Made silent places v) {d : Diagnostic} (hd : d ∈ v.diagnostics) :
    ∃ kind range message, d = .error kind range message ∧ places range ∧ kind.isStyle = false := by
  induction h with
  | pass => simp [Verdict.pass] at hd
  | fail hkind message hrange => exact ⟨_, _, message, mem_singleton.1 hd, hrange, hkind⟩
  | silent => simp at hd
  | and _ _ iha ihb => exact (mem_append.1 hd).elim iha ihb

end Made

end Verdict

/-! ### Places -/

/-- The places at which a check may report something about a block. -/
inductive Block.Shows (b : Block Data) : Range → Prop
  | whole : Block.Shows b b.range
  | key {entries : List (String × Data)} {keyRanges : List (String × Range)} {name : String}
      {range : Range} (hcontents : b.contents = .dict entries keyRanges)
      (hmem : (name, range) ∈ keyRanges) : Block.Shows b range
  /-- The elements of a tuple from some element on. -/
  | extra {items more : List Data} {first : Data} {n : Nat} (hcontents : b.contents = .tuple items)
      (hdrop : items.drop n = first :: more) :
      Block.Shows b (more.foldl (fun r d => r.combine d.range) first.range)
  /-- What is behind the last element of a tuple. -/
  | lacking {items : List Data} {start : Position} (hcontents : b.contents = .tuple items)
      (hstart : (items.getLast?.map (·.range.stop)).getD (b.range.contract 1 1).start = start) :
      Block.Shows b ⟨start, max (b.range.contract 1 1).stop start⟩

/-- The places at which a check may report something about a node. -/
inductive Data.Shows : Data → Range → Prop
  | whole (n : Data) : Data.Shows n n.range
  | tag (tag : String) (tagRange : Range) (payload : Option (Block Data)) (range : Range)
      (tokens : TokenRange) : Data.Shows (.enum tag tagRange payload range tokens) tagRange
  | block {n : Data} {b : Block Data} {range : Range} (hb : n.innerBlock? = some b)
      (hshows : b.Shows range) : Data.Shows n range

section Made

variable {silent : Prop} {places : Range → Prop} {r : Resolver}

/-- Findings about keys are at keys or at the block. -/
theorem Verdict.made_keys {fields : List (String × TypeSpec)} {keyRanges : List (String × Range)}
    {range : Range} (hrange : places range) (hkeys : ∀ name r, (name, r) ∈ keyRanges → places r) :
    Made silent places (keys fields keyRanges range) := by
  refine .all fun v hv => ?_
  rcases mem_append.1 hv with hv | hv
  · obtain ⟨_, -, rfl⟩ := mem_map.1 hv
    exact .fail rfl _ hrange
  · obtain ⟨⟨name, r⟩, hmem, rfl⟩ := mem_map.1 hv
    exact .fail rfl _ (hkeys name r (mem_filter.1 hmem).1)

/-- Findings about the shape of a block are at the block. -/
theorem Verdict.made_shape (b : Block Data) (spec : BlockSpec) :
    Made silent b.Shows (shape b spec) := by
  unfold shape
  split
  next hcontents => exact made_keys .whole fun name r hmem => .key hcontents hmem
  next items elements hcontents =>
    unfold arity
    dsimp only
    split
    next hdrop => exact .fail rfl _ (.extra hcontents hdrop)
    next =>
      split
      · exact .fail rfl _ (.lacking hcontents rfl)
      · exact .pass
  next => exact .pass

namespace Data

/-- The properties of a dict are checked one by one, each against a type that is part of the type of
the dict. -/
theorem made_checkEntries {spec : BlockSpec} {entries : List (String × Data)}
    (h : ∀ e ∈ entries, ∀ property, spec.property? e.1 = some property →
      (e.2.check r property).Made silent places) :
    (checkEntries r spec entries).Made silent places := by
  induction entries with
  | nil => exact .pass
  | cons e rest ih =>
    obtain ⟨key, data⟩ := e
    rw [checkEntries]
    refine .and ?_ (ih fun e he => h e (mem_cons_of_mem _ he))
    split
    next property hproperty => exact h (key, data) mem_cons_self property hproperty
    next => exact .pass

/-- Findings about elements are at the elements. -/
theorem made_checkItems {spec : BlockSpec} {items : List Data} (index : Nat)
    (h : ∀ data ∈ items, ∀ i element, spec.element? i = some element →
      (data.check r element).Made silent places) :
    (checkItems r spec index items).Made silent places := by
  induction items generalizing index with
  | nil => exact .pass
  | cons data rest ih =>
    rw [checkItems]
    refine .and ?_ (ih (index + 1) fun d hd => h d (mem_cons_of_mem _ hd))
    split
    next element helement => exact h data mem_cons_self index element helement
    next => exact .pass

end Data

theorem BlockSpec.isComplete_property? {spec : BlockSpec} {key : String} {property : TypeSpec}
    (h : spec.isComplete = true) (hproperty : spec.property? key = some property) :
    property.isComplete = true := by
  cases spec with
  | dict fields => exact TypeSpec.isComplete_of_lookup_fields h hproperty
  | record value => exact Option.some.inj hproperty ▸ h
  | _ => simp [property?] at hproperty

theorem BlockSpec.isComplete_element? {spec : BlockSpec} {i : Nat} {element : TypeSpec}
    (h : spec.isComplete = true) (helement : spec.element? i = some element) :
    element.isComplete = true := by
  cases spec with
  | array value => exact Option.some.inj helement ▸ h
  | tuple elements => exact TypeSpec.isComplete_of_getElem? h helement
  | _ => simp [element?] at helement

namespace Data

/-- A block is checked at its own places, and its parts are checked against parts of its type. -/
theorem made_checkBlock {b : Block Data} (hb : ∀ range, b.Shows range → places range)
    {spec : BlockSpec} (hspec : ¬silent → spec.isComplete = true)
    (hparts : ∀ c ∈ b.contents.children, ∀ part : TypeSpec, (¬silent → part.isComplete = true) →
      (c.check r part).Made silent places) : (checkBlock r b spec).Made silent places := by
  obtain ⟨contents, range, tokens⟩ := b
  rw [checkBlock]
  split
  · refine ((Verdict.made_shape _ spec).mono hb).and ?_
    cases contents with
    | dict entries keyRanges =>
      refine made_checkEntries fun e he property hproperty => ?_
      exact hparts e.2 (mem_map_of_mem he) property fun hs =>
        BlockSpec.isComplete_property? (hspec hs) hproperty
    | array items | tuple items =>
      exact made_checkItems 0 fun d hd i element helement =>
        hparts d hd element fun hs => BlockSpec.isComplete_element? (hspec hs) helement
  · exact .fail rfl _ (hb _ .whole)

/-- A check reports at places of nodes, and is silent at most about types that are missing. -/
theorem made_check (hr : ¬silent → r.IsComplete) (d : Data) (spec : TypeSpec)
    (hspec : ¬silent → spec.isComplete = true) :
    (d.check r spec).Made silent fun range => ∃ n ∈ d.nodes, n.Shows range := by
  induction d using induction_on_parts generalizing spec with
  | h d ih =>
    have hself : ∀ range, d.Shows range → ∃ n ∈ d.nodes, n.Shows range :=
      fun range hshows => ⟨d, d.self_mem_nodes, hshows⟩
    -- data that is a block and a payload are checked in the same way
    have hblock : ∀ b, d.innerBlock? = some b → ∀ wanted : BlockSpec,
        (¬silent → wanted.isComplete = true) →
        (checkBlock r b wanted).Made silent fun range => ∃ n ∈ d.nodes, n.Shows range := by
      intro b hb wanted hwanted
      refine made_checkBlock (fun range hshows => hself range (.block hb hshows)) hwanted ?_
      intro c hc part hpart
      refine (ih b hb c hc part hpart).mono fun range => ?_
      rintro ⟨n, hn, hshows⟩
      exact ⟨n, mem_nodes_of_mem_children hb hc hn, hshows⟩
    rw [check]
    cases hresolved : spec.resolve r with
    | error issue => exact .fail rfl _ (hself _ (.whole d))
    | ok resolved =>
      have hcomplete : ¬silent → resolved.isComplete = true := fun hs =>
        TypeSpec.isComplete_follow (hr hs) (hspec hs) hresolved
      cases resolved with
      | missing =>
        refine .silent ?_
        by_contra hs
        simpa [TypeSpec.isComplete] using hcomplete hs
      | ref name => exact absurd hresolved TypeSpec.follow_ne_ref
      | primitive kind =>
        rcases d with ⟨s, range, tokens⟩ | b | ⟨tag, tagRange, payload, range, tokens⟩
        · dsimp only
          split
          · exact .pass
          · exact .fail rfl _ (hself _ (.whole _))
        · exact .fail rfl _ (hself _ (.whole _))
        · exact .fail rfl _ (hself _ (.whole _))
      | block wanted =>
        rcases d with ⟨s, range, tokens⟩ | b | ⟨tag, tagRange, payload, range, tokens⟩
        · exact .fail rfl _ (hself _ (.whole _))
        · exact hblock b rfl wanted hcomplete
        · exact .fail rfl _ (hself _ (.whole _))
      | enum variants =>
        rcases d with ⟨s, range, tokens⟩ | b | ⟨tag, tagRange, payload, range, tokens⟩
        · exact .fail rfl _ (hself _ (.whole _))
        · exact .fail rfl _ (hself _ (.whole _))
        · have htag := hself _ (.tag tag tagRange payload range tokens)
          dsimp only
          split
          · exact .fail rfl _ htag
          · exact .pass
          next b _ => exact .fail rfl _ (hself _ (.block rfl .whole))
          · exact .fail rfl _ htag
          next wanted b hlookup =>
            exact hblock b rfl wanted fun hs =>
              TypeSpec.isComplete_of_lookup_variants (hcomplete hs) hlookup

/-- **The answer of a check and its report agree.** Against a complete type, with a lookup that
gives complete types only, data passes exactly if nothing is added to the findings so far, whatever
these are. The findings so far stay in front; what is added is never fatal, so whether reading can
go on does not change. -/
theorem verdict_agrees_with_report (hr : r.IsComplete) (spec : TypeSpec)
    (hspec : spec.isComplete = true) (d : Data) (earlier : Report) :
    let verdict := d.check r spec
    let later := earlier.merge ⟨verdict.diagnostics⟩
    (verdict.ok = true ↔ later = earlier) ∧
      earlier.diagnostics <+: later.diagnostics ∧
      (∀ x ∈ verdict.diagnostics, x.fatal = false) ∧
      later.canContinue = earlier.canContinue := by
  intro verdict later
  have hmade : verdict.Made False _ := made_check (fun _ => hr) d spec fun _ => hspec
  have hfatal : ∀ x ∈ verdict.diagnostics, x.fatal = false := by
    intro x hx
    obtain ⟨kind, range, message, rfl, -⟩ := hmade.exists_eq_error hx
    rfl
  refine ⟨?_, prefix_append _ _, hfatal, ?_⟩
  · rw [hmade.ok_iff not_false]
    obtain ⟨ds⟩ := earlier
    simp [later, Report.merge]
  · have hcontinue : (Report.mk verdict.diagnostics).canContinue = true := by
      simpa [Report.canContinue] using hfatal
    simp [later, hcontinue]

/-- A number inside of a tree of dicts is reported, behind what was found before, be that fatal. -/
theorem verdict_agrees_with_report_of_trees :
    let trees : Resolver := .ofList [("Tree", .block (.record (.ref "Tree")))]
    let leaf : Data := .primitive (.int 1) default default
    let d : Data := .block ⟨.dict [("a", leaf)] [("a", default)], default, default⟩
    let earlier : Report := ⟨[.fatalError .dataExpected default "Data expected."]⟩
    let verdict := d.check trees (.ref "Tree")
    trees.IsComplete ∧ (TypeSpec.ref "Tree").isComplete = true ∧
      verdict.ok = false ∧ earlier.merge ⟨verdict.diagnostics⟩ ≠ earlier ∧
      (earlier.merge ⟨verdict.diagnostics⟩).canContinue = false := by
  intro trees leaf d earlier verdict
  have htrees : trees.IsComplete := by
    intro name spec h
    simp only [trees, Resolver.ofList, List.lookup_cons, lookup_nil] at h
    split at h
    next hname =>
      split at hname
      · cases hname
        cases h
        decide
      · cases hname
    next => cases h
  have hok : verdict.ok = false := by decide
  obtain ⟨hagrees, -, -, hcontinue⟩ :=
    verdict_agrees_with_report htrees (.ref "Tree") rfl d earlier
  refine ⟨htrees, rfl, hok, fun hsame => ?_, hcontinue⟩
  exact absurd (hagrees.2 hsame) (by simp [verdict, hok])

-- A missing type is why completeness is asked for: the check fails and says nothing.
example (r : Resolver) (range : Range) (tokens : TokenRange) :
    Data.check r (.primitive (.int 1) range tokens) .missing = ⟨false, []⟩ := rfl

end Data

end Made

end TypedNotation
