import TypedNotation.Hover
import TypedNotation.Cursor.Enclosing
import TypedNotation.Proofs.DataParts
import TypedNotation.Proofs.Inhabitation

/-!
# Types at the cursor

Three walks go down data and type together: the check, the search for the block around a position,
and the trail to a position. On data that passes the check the other two never lose the type.

A `Place` is what some steps lead to in a data tree: a part of it, the payload of an enum value, or
the end of a unit. `Fits r place expected` says that what stands there is what is expected. One step
keeps this (`Fits.next`), so any number of steps do (`Fits.reaches`).

* A trail goes such a way, except that it may end on a key whose value is missing
  (`Trail.exists_endsAt_stepsIn`).
* Every range on a trail contains the position (`Trail.contains_of_mem_stepsIn`), so a hover speaks
  of something under the cursor.
-/

namespace TypedNotation

open List Contents BlockSpec

/-! ### What the check tells of the parts -/

/-- The type of the part that a step leads to. -/
def BlockSpec.part? (spec : BlockSpec) : Step → Option TypeSpec
  | .key name => spec.property? name
  | .arrayElement i | .tupleElement i => spec.element? i
  | .tag _ => none

namespace Data

variable {r : Resolver} {wanted : BlockSpec} {b : Block Data} {d : Data}

/-- An enum value passes the check exactly if its tag is a variant with a payload or without one, as
the value is. -/
theorem check_enum_ok_iff {tag : String} {tagRange range : Range} {payload : Option (Block Data)}
    {tokens : TokenRange} {spec : TypeSpec} :
    ((Data.enum tag tagRange payload range tokens).check r spec).ok = true ↔
      ∃ variants, spec.resolve r = .ok (.enum variants) ∧
        match payload with
        | none => variants.lookup tag = some none
        | some b => ∃ wanted, variants.lookup tag = some (some wanted) ∧
            (checkBlock r b wanted).ok = true := by
  rw [check]
  cases spec.resolve r with
  | error issue => simp
  | ok resolved =>
    cases resolved with
    | enum variants =>
      cases payload with
      | none | some b => rcases hv : variants.lookup tag with _ | _ | wanted <;> simp [hv]
    | _ => simp

theorem check_ok_of_mem_entries {spec : BlockSpec} {entries : List (String × Data)}
    (h : (checkEntries r spec entries).ok = true) {name : String} (hmem : (name, d) ∈ entries)
    {type : TypeSpec} (htype : spec.property? name = some type) : (d.check r type).ok = true := by
  induction entries with
  | nil => simp at hmem
  | cons e rest ih =>
    obtain ⟨name', d'⟩ := e
    rw [checkEntries, Verdict.and_ok, Bool.and_eq_true] at h
    rcases mem_cons.1 hmem with heq | hmem
    · obtain ⟨rfl, rfl⟩ := Prod.mk.inj heq
      rw [htype] at h
      exact h.1
    · exact ih h.2 hmem

theorem check_ok_of_getElem? {spec : BlockSpec} {items : List Data} {index : Nat}
    (h : (checkItems r spec index items).ok = true) {i : Nat} (hi : items[i]? = some d)
    {type : TypeSpec} (htype : spec.element? (index + i) = some type) :
    (d.check r type).ok = true := by
  induction items generalizing index i with
  | nil => simp at hi
  | cons d' rest ih =>
    rw [checkItems, Verdict.and_ok, Bool.and_eq_true] at h
    cases i with
    | zero =>
      obtain rfl : d' = d := by simpa using hi
      rw [← Nat.add_zero index, htype] at h
      exact h.1
    | succ i =>
      refine ih h.2 (by simpa using hi) ?_
      rwa [Nat.add_assoc, Nat.add_comm 1]

/-- A block that passes the check is of the kind that is wanted, and its shape and parts are in
order. -/
theorem checkBlock_ok_iff_and :
    (checkBlock r b wanted).ok = true ↔ b.contents.kind = wanted.dataKind ∧
      (Verdict.shape b wanted).ok = true ∧ (checkContents r wanted b.contents).ok = true := by
  obtain ⟨contents, range, tokens⟩ := b
  rw [checkBlock]
  split
  next hkind => simp [hkind]
  next hkind => simp [hkind]

/-- The keys that have a place have a type. -/
theorem exists_property_of_checkBlock {entries : List (String × Data)}
    {keyRanges : List (String × Range)} (hb : b.contents = .dict entries keyRanges)
    (h : (checkBlock r b wanted).ok = true) {name : String}
    (hname : name ∈ keyRanges.map (·.1)) : ∃ type, wanted.property? name = some type := by
  obtain ⟨hkind, hshape, -⟩ := checkBlock_ok_iff_and.1 h
  obtain ⟨contents, range, tokens⟩ := b
  subst hb
  cases wanted with
  | dict fields =>
    have hfield := (Verdict.keys_ok_iff.1 hshape name).1 hname
    rw [← Option.isSome_iff_exists, property?, lookup_isSome_iff]
    obtain ⟨f, hf, rfl⟩ := mem_map.1 hfield
    exact ⟨f, hf, beq_self_eq_true _⟩
  | record value => exact ⟨value, rfl⟩
  | array element | tuple elements => simp [kind, dataKind] at hkind

/-- Every part of a block that passes the check has a type, and passes the check against it. -/
theorem exists_part_of_checkBlock (hkeys : b.KeysPlaced) (h : (checkBlock r b wanted).ok = true)
    {step : Step} (hmem : (step, d) ∈ b.contents.steps) :
    ∃ type, wanted.part? step = some type ∧ (d.check r type).ok = true := by
  obtain ⟨hkind, hshape, hparts⟩ := checkBlock_ok_iff_and.1 h
  obtain ⟨contents, range, tokens⟩ := b
  cases contents with
  | dict entries keyRanges =>
    obtain ⟨name, rfl, hentry⟩ := mem_steps_dict.1 hmem
    have hplaced := hkeys entries keyRanges rfl name (mem_map.2 ⟨_, hentry, rfl⟩)
    obtain ⟨type, htype⟩ := exists_property_of_checkBlock rfl h hplaced
    exact ⟨type, htype, check_ok_of_mem_entries hparts hentry htype⟩
  | array items =>
    obtain ⟨i, rfl, hi⟩ := mem_steps_array.1 hmem
    cases wanted with
    | array element => exact ⟨element, rfl, check_ok_of_getElem? hparts hi rfl⟩
    | _ => simp [kind, dataKind] at hkind
  | tuple items =>
    obtain ⟨i, rfl, hi⟩ := mem_steps_tuple.1 hmem
    cases wanted with
    | tuple elements =>
      have hlength : items.length = elements.length := Verdict.arity_ok_iff.1 hshape
      obtain ⟨hlt, -⟩ := List.getElem?_eq_some_iff.1 hi
      have htype : elements[i]? = some (elements[i]) := getElem?_eq_getElem (hlength ▸ hlt)
      refine ⟨elements[i], htype, check_ok_of_getElem? hparts hi ?_⟩
      rw [Nat.zero_add]
      exact htype
    | _ => simp [kind, dataKind] at hkind

end Data

/-! ### The block around a position -/

namespace Enclosing

variable {r : Resolver} {p : Position}

theorem orElse_ne_typeFailed {a b : Enclosing} (ha : a ≠ typeFailed) (hb : b ≠ typeFailed) :
    a.orElse b ≠ typeFailed := by
  cases a with
  | outside => exact hb
  | typeFailed => exact absurd rfl ha
  | found block spec => simp [orElse]

theorem ofEntries_ne_typeFailed {spec : BlockSpec} {entries : List (String × Data)}
    (h : ∀ name d, (name, d) ∈ entries →
      ∃ type, spec.property? name = some type ∧ ofData r p d type ≠ typeFailed) :
    ofEntries r p spec entries ≠ typeFailed := by
  induction entries with
  | nil => simp [ofEntries]
  | cons e rest ih =>
    obtain ⟨name, d⟩ := e
    obtain ⟨type, htype, hd⟩ := h name d (by simp)
    rw [ofEntries, htype]
    exact orElse_ne_typeFailed hd (ih fun name d hmem => h name d (mem_cons_of_mem _ hmem))

theorem ofItems_ne_typeFailed {spec : BlockSpec} {items : List Data} {index : Nat}
    (h : ∀ i d, items[i]? = some d →
      ∃ type, spec.element? (index + i) = some type ∧ ofData r p d type ≠ typeFailed) :
    ofItems r p spec index items ≠ typeFailed := by
  induction items generalizing index with
  | nil => simp [ofItems]
  | cons d rest ih =>
    obtain ⟨type, htype, hd⟩ := h 0 d rfl
    rw [ofItems, ← Nat.add_zero index, htype]
    refine orElse_ne_typeFailed hd (ih fun i d hi => ?_)
    have hnext := h (i + 1) d (by simpa using hi)
    rwa [Nat.add_comm i 1, ← Nat.add_assoc] at hnext

theorem ofBlock_eq (b : Block Data) (spec : BlockSpec) :
    ofBlock r p b spec =
      if b.contents.kind = spec.dataKind then
        (match b.contents with
          | .dict entries _ => ofEntries r p spec entries
          | .array items | .tuple items => ofItems r p spec 0 items).orElse (found b spec)
      else typeFailed := by
  obtain ⟨contents, range, tokens⟩ := b
  cases contents <;> rfl

/-- In a block that passes the check the type is not lost if it is not lost in the parts. -/
theorem ofBlock_ne_typeFailed {b : Block Data} {wanted : BlockSpec} (hkeys : b.KeysPlaced)
    (hok : (Data.checkBlock r b wanted).ok = true)
    (h : ∀ d ∈ b.contents.children, ∀ type, (d.check r type).ok = true →
      ofData r p d type ≠ typeFailed) :
    ofBlock r p b wanted ≠ typeFailed := by
  have hparts : ∀ step d, (step, d) ∈ b.contents.steps →
      ∃ type, wanted.part? step = some type ∧ ofData r p d type ≠ typeFailed := by
    intro step d hmem
    obtain ⟨type, htype, hcheck⟩ := Data.exists_part_of_checkBlock hkeys hok hmem
    exact ⟨type, htype, h d (mem_children_iff.2 ⟨step, hmem⟩) type hcheck⟩
  have hfound : found b wanted ≠ typeFailed := by simp
  rw [ofBlock_eq, if_pos (Data.checkBlock_ok_iff_and.1 hok).1]
  refine orElse_ne_typeFailed ?_ hfound
  obtain ⟨contents, range, tokens⟩ := b
  cases contents with
  | dict entries keyRanges =>
    exact ofEntries_ne_typeFailed fun name d hmem =>
      hparts (.key name) d (mem_steps_dict.2 ⟨name, rfl, hmem⟩)
  | array items =>
    refine ofItems_ne_typeFailed fun i d hi => ?_
    rw [Nat.zero_add]
    exact hparts (.arrayElement i) d (mem_steps_array.2 ⟨i, rfl, hi⟩)
  | tuple items =>
    refine ofItems_ne_typeFailed fun i d hi => ?_
    rw [Nat.zero_add]
    exact hparts (.tupleElement i) d (mem_steps_tuple.2 ⟨i, rfl, hi⟩)

/-- On the way to a position, data that passes the check never disagrees with its type. -/
theorem ofData_ne_typeFailed (d : Data) (hkeys : d.KeysPlaced) (spec : TypeSpec)
    (hok : (d.check r spec).ok = true) : ofData r p d spec ≠ typeFailed := by
  induction d using Data.induction_on_parts generalizing spec with
  | h d ih =>
    have hblock : ∀ b wanted, d.innerBlock? = some b → (Data.checkBlock r b wanted).ok = true →
        ofBlock r p b wanted ≠ typeFailed := fun b wanted hb hwanted =>
      ofBlock_ne_typeFailed (hkeys.block hb) hwanted fun c hc type hcheck =>
        ih b hb c hc (hkeys.part hb hc) type hcheck
    match d with
    | .primitive s range tokens =>
      rw [Data.check] at hok
      rw [ofData]
      cases hresolve : spec.resolve r with
      | error issue => simp [hresolve] at hok
      | ok resolved => cases resolved <;> simp [hresolve] at hok ⊢
    | .block b =>
      obtain ⟨wanted, hresolve, hwanted⟩ := (Data.check_block_ok_iff r b spec).1 hok
      rw [ofData, hresolve]
      dsimp only
      split
      · exact hblock b wanted rfl hwanted
      · simp
    | .enum tag tagRange none range tokens =>
      obtain ⟨variants, hresolve, -⟩ := Data.check_enum_ok_iff.1 hok
      rw [ofData, hresolve]
      simp
    | .enum tag tagRange (some b) range tokens =>
      obtain ⟨variants, hresolve, wanted, hlookup, hwanted⟩ := Data.check_enum_ok_iff.1 hok
      rw [ofData, hresolve]
      dsimp only
      split
      · rw [hlookup]
        exact hblock b wanted rfl hwanted
      · simp

end Enclosing

/-! ### Places -/

/-- What steps lead to in a data tree. -/
inductive Place where
  | node (d : Data)
  | payload (b : Block Data)
  /-- Behind the tag of a unit. -/
  | unit (tag : String)

namespace Place

/-- The block whose parts the next step leads to. -/
def inner? : Place → Option (Block Data)
  | node (.block b) | payload b => some b
  | _ => none

/-- One step from a place. -/
inductive Next : Place → Step → Place → Prop
  | part {place : Place} {b : Block Data} {step : Step} {d : Data} (hb : place.inner? = some b)
      (hd : (step, d) ∈ b.contents.steps) : Next place step (node d)
  | payload {tag : String} {tagRange range : Range} {b : Block Data} {tokens : TokenRange} :
      Next (node (.enum tag tagRange (some b) range tokens)) (.tag tag) (payload b)
  | unit {tag : String} {tagRange range : Range} {tokens : TokenRange} :
      Next (node (.enum tag tagRange none range tokens)) (.tag tag) (unit tag)

/-- Steps from one place to another. -/
inductive Reaches : Place → List Step → Place → Prop
  | refl (place : Place) : Reaches place [] place
  | cons {place next last : Place} {step : Step} {steps : List Step} (hnext : Next place step next)
      (hrest : Reaches next steps last) : Reaches place (step :: steps) last

/-- In every dict of a place, the keys that have a value have a place. -/
def KeysPlaced : Place → Prop
  | node d => d.KeysPlaced
  | payload b => b.KeysPlaced ∧ ∀ d ∈ b.contents.children, d.KeysPlaced
  | unit _ => True

theorem KeysPlaced.inner {place : Place} {b : Block Data} (h : place.KeysPlaced)
    (hb : place.inner? = some b) :
    b.KeysPlaced ∧ ∀ d ∈ b.contents.children, d.KeysPlaced := by
  match place, hb with
  | node (.block b), rfl => exact ⟨Data.KeysPlaced.block h rfl, fun d => Data.KeysPlaced.part h rfl⟩
  | payload b, rfl => exact h

theorem KeysPlaced.next {place place' : Place} {step : Step} (h : place.KeysPlaced)
    (hnext : Next place step place') : place'.KeysPlaced := by
  cases hnext with
  | part hb hd => exact (h.inner hb).2 _ (mem_children_iff.2 ⟨step, hd⟩)
  | payload => exact ⟨Data.KeysPlaced.block h rfl, fun d => Data.KeysPlaced.part h rfl⟩
  | unit => trivial

end Place

/-! ### What is expected at a place -/

/-- What stands at a place is what is expected there. -/
inductive Fits (r : Resolver) : Place → ExpectedType → Prop
  | node {d : Data} {spec : TypeSpec} (h : (d.check r spec).ok = true) :
      Fits r (.node d) (.spec spec)
  | payload {b : Block Data} {spec : BlockSpec} (h : (Data.checkBlock r b spec).ok = true) :
      Fits r (.payload b) (.block spec)
  | unit (tag : String) : Fits r (.unit tag) .unit

namespace Fits

variable {r : Resolver} {place last : Place} {expected : ExpectedType} {b : Block Data}

/-- Where a block fits, the types of its parts are those of the block type. -/
theorem exists_checkBlock (h : Fits r place expected) (hb : place.inner? = some b) :
    ∃ wanted, (Data.checkBlock r b wanted).ok = true ∧ ∀ step,
      expected.next? r step = (ExpectedType.block wanted).next? r step := by
  cases h with
  | @node d spec h =>
    match d, hb with
    | .block _, rfl =>
      obtain ⟨wanted, hresolve, hok⟩ := (Data.check_block_ok_iff r _ spec).1 h
      exact ⟨wanted, hok, fun step => by simp [ExpectedType.next?, hresolve]⟩
  | payload h =>
    obtain rfl := Option.some.inj hb
    exact ⟨_, h, fun _ => rfl⟩
  | unit tag => cases hb

/-- The type of a part is found in the type of its block. -/
theorem exists_next?_of_part {wanted : BlockSpec} {step : Step} {d : Data} {type : TypeSpec}
    (hkind : b.contents.kind = wanted.dataKind) (hmem : (step, d) ∈ b.contents.steps)
    (htype : wanted.part? step = some type) :
    ∃ text, (ExpectedType.block wanted).next? r step = some (.spec type, text) := by
  obtain ⟨contents, range, tokens⟩ := b
  cases contents with
  | dict entries keyRanges =>
    obtain ⟨name, rfl, -⟩ := mem_steps_dict.1 hmem
    cases wanted <;> simp_all [ExpectedType.next?, part?, property?,
      kind, dataKind]
  | array items =>
    obtain ⟨i, rfl, -⟩ := mem_steps_array.1 hmem
    cases wanted <;> simp_all [ExpectedType.next?, part?, element?,
      kind, dataKind]
  | tuple items =>
    obtain ⟨i, rfl, -⟩ := mem_steps_tuple.1 hmem
    cases wanted <;> simp_all [ExpectedType.next?, part?, element?,
      kind, dataKind]

/-- **One step keeps the type**: where a place fits, the type goes every way that the data goes. -/
theorem next (h : Fits r place expected) (hkeys : place.KeysPlaced) {step : Step} {place' : Place}
    (hnext : place.Next step place') :
    ∃ expected' text, expected.next? r step = some (expected', text) ∧ Fits r place' expected' := by
  cases hnext with
  | part hb hd =>
    obtain ⟨wanted, hok, heq⟩ := h.exists_checkBlock hb
    obtain ⟨type, htype, hcheck⟩ := Data.exists_part_of_checkBlock (hkeys.inner hb).1 hok hd
    obtain ⟨text, hnext⟩ :=
      exists_next?_of_part (r := r) (Data.checkBlock_ok_iff_and.1 hok).1 hd htype
    exact ⟨.spec type, text, (heq step).trans hnext, .node hcheck⟩
  | payload =>
    cases h with
    | node h =>
      obtain ⟨variants, hresolve, wanted, hlookup, hok⟩ := Data.check_enum_ok_iff.1 h
      exact ⟨.block wanted, _, by simp [ExpectedType.next?, hresolve, hlookup]; rfl, .payload hok⟩
  | unit =>
    cases h with
    | node h =>
      obtain ⟨variants, hresolve, hlookup⟩ := Data.check_enum_ok_iff.1 h
      exact ⟨.unit, _, by simp [ExpectedType.next?, hresolve, hlookup]; rfl, .unit _⟩

/-- Any number of steps keep the type: they are followed to the end, and what is expected there is
what stands there. -/
theorem reaches (h : Fits r place expected) (hkeys : place.KeysPlaced) {steps : List Step}
    (hreaches : place.Reaches steps last) :
    ∃ expected', Fits r last expected' ∧ ∀ more,
      (expected.walk r (steps ++ more)).safeSteps =
        steps.length + (expected'.walk r more).safeSteps ∧
      (expected.walk r (steps ++ more)).expected = (expected'.walk r more).expected := by
  induction hreaches generalizing expected with
  | refl place => exact ⟨expected, h, by simp⟩
  | cons hnext hrest ih =>
    obtain ⟨middle, text, hmiddle, hfits⟩ := h.next hkeys hnext
    obtain ⟨expected', hlast, hwalk⟩ := ih hfits (hkeys.next hnext)
    refine ⟨expected', hlast, fun more => ?_⟩
    obtain ⟨hsafe, hexpected⟩ := hwalk more
    simp only [cons_append, ExpectedType.walk, hmiddle, hsafe, hexpected, length_cons,
      and_true]
    omega

/-- Where a dict fits, a key that has a place has a type, even if it lacks a value. -/
theorem exists_next?_key (h : Fits r place expected) (hb : place.inner? = some b)
    {entries : List (String × Data)} {keyRanges : List (String × Range)}
    (hcontents : b.contents = .dict entries keyRanges) {name : String}
    (hname : name ∈ keyRanges.map (·.1)) :
    ∃ type text, expected.next? r (.key name) = some (.spec type, text) := by
  obtain ⟨wanted, hok, heq⟩ := h.exists_checkBlock hb
  obtain ⟨type, htype⟩ := Data.exists_property_of_checkBlock hcontents hok hname
  rw [heq]
  cases wanted <;> simp_all [ExpectedType.next?, property?]

end Fits

/-! ### Trails -/

namespace Trail

variable {p : Position}

theorem stepsInEntries_eq_nil_or (entries : List (String × Data)) :
    stepsInEntries p entries = [] ∨ ∃ name d, (name, d) ∈ entries ∧ d.range.contains p = true ∧
      stepsInEntries p entries = ⟨.key name, d.range⟩ :: stepsIn p d := by
  induction entries with
  | nil => exact .inl rfl
  | cons e rest ih =>
    obtain ⟨name, d⟩ := e
    by_cases h : d.range.contains p = true
    · exact .inr ⟨name, d, by simp, h, by simp [stepsInEntries, h]⟩
    · rw [stepsInEntries, if_neg h]
      refine ih.imp_right ?_
      rintro ⟨name', d', hmem, hrest⟩
      exact ⟨name', d', mem_cons_of_mem _ hmem, hrest⟩

theorem stepsInItems_eq_nil_or (toStep : Nat → Step) (index : Nat) (items : List Data) :
    stepsInItems p toStep index items = [] ∨ ∃ i d, items[i]? = some d ∧
      d.range.contains p = true ∧
      stepsInItems p toStep index items = ⟨toStep (index + i), d.range⟩ :: stepsIn p d := by
  induction items generalizing index with
  | nil => exact .inl rfl
  | cons d rest ih =>
    by_cases h : d.range.contains p = true
    · exact .inr ⟨0, d, rfl, h, by simp [stepsInItems, h]⟩
    · rw [stepsInItems, if_neg h]
      refine (ih (index + 1)).imp_right ?_
      rintro ⟨i, d', hi, hrest, heq⟩
      refine ⟨i + 1, d', by simpa using hi, hrest, ?_⟩
      rwa [Nat.add_comm i 1, ← Nat.add_assoc]

/-- Inside a block a trail ends, or it ends on a key, or it goes on into the part under the
position. -/
theorem stepsInContents_cases (p : Position) (contents : Contents Data) :
    stepsInContents p contents = [] ∨
    (∃ entries keyRanges name range, contents = .dict entries keyRanges ∧
      (name, range) ∈ keyRanges ∧ range.contains p = true ∧
      stepsInContents p contents = [⟨.key name, range⟩]) ∨
    ∃ step d, (step, d) ∈ contents.steps ∧ d.range.contains p = true ∧
      stepsInContents p contents = ⟨step, d.range⟩ :: stepsIn p d := by
  cases contents with
  | dict entries keyRanges =>
    rw [stepsInContents]
    cases hfind : keyRanges.find? (·.2.contains p) with
    | some key =>
      obtain ⟨name, range⟩ := key
      have hcontains := find?_some hfind
      exact .inr (.inl ⟨entries, keyRanges, name, range, rfl, mem_of_find?_eq_some hfind,
        hcontains, rfl⟩)
    | none =>
      rcases stepsInEntries_eq_nil_or (p := p) entries with h | ⟨name, d, hmem, hd, h⟩
      · exact .inl h
      · exact .inr (.inr ⟨.key name, d, mem_steps_dict.2 ⟨name, rfl, hmem⟩, hd, h⟩)
  | array items =>
    rw [stepsInContents]
    rcases stepsInItems_eq_nil_or (p := p) .arrayElement 0 items with h | ⟨i, d, hi, hd, h⟩
    · exact .inl h
    · rw [Nat.zero_add] at h
      exact .inr (.inr ⟨_, d, mem_steps_array.2 ⟨i, rfl, hi⟩, hd, h⟩)
  | tuple items =>
    rw [stepsInContents]
    rcases stepsInItems_eq_nil_or (p := p) .tupleElement 0 items with h | ⟨i, d, hi, hd, h⟩
    · exact .inl h
    · rw [Nat.zero_add] at h
      exact .inr (.inr ⟨_, d, mem_steps_tuple.2 ⟨i, rfl, hi⟩, hd, h⟩)

/-- Every range on a trail contains the position. -/
theorem contains_of_mem_stepsIn (d : Data) (hd : d.range.contains p = true) :
    ∀ step ∈ stepsIn p d, step.range.contains p = true := by
  induction d using Data.induction_on_parts with
  | h d ih =>
    have hblock : ∀ b, d.innerBlock? = some b →
        ∀ step ∈ stepsInContents p b.contents, step.range.contains p = true := by
      intro b hb step hstep
      rcases stepsInContents_cases p b.contents with h | ⟨_, _, _, _, -, -, hrange, h⟩ |
        ⟨s, c, hmem, hc, h⟩
      · simp [h] at hstep
      · rw [h, mem_singleton] at hstep
        rwa [hstep]
      · rw [h] at hstep
        rcases mem_cons.1 hstep with rfl | hstep
        · exact hc
        · exact ih b hb c (mem_children_iff.2 ⟨s, hmem⟩) hc step hstep
    intro step hstep
    match d with
    | .primitive .. => simp [stepsIn] at hstep
    | .block ⟨contents, range, tokens⟩ => exact hblock _ rfl step hstep
    | .enum tag tagRange none range tokens =>
      obtain rfl := mem_singleton.1 hstep
      exact hd
    | .enum tag tagRange (some ⟨contents, _, _⟩) range tokens =>
      rcases mem_cons.1 hstep with rfl | hstep
      · exact hd
      · exact hblock _ rfl step hstep

/-- The steps of a trail lead to a place in the data, but for a last one that may lead to a key of
the dict there. -/
structure EndsAt (place : Place) (steps : List Step) (last : Place) (keys : List Step) : Prop where
  split : ∃ front, steps = front ++ keys ∧ place.Reaches front last
  keys : keys = [] ∨ ∃ b entries keyRanges name, last.inner? = some b ∧
    b.contents = .dict entries keyRanges ∧ name ∈ keyRanges.map (·.1) ∧ keys = [.key name]

theorem EndsAt.cons {place next last : Place} {step : Step} {steps keys : List Step}
    (hnext : place.Next step next) (h : EndsAt next steps last keys) :
    EndsAt place (step :: steps) last keys := by
  obtain ⟨⟨front, rfl, hreaches⟩, hkeys⟩ := h
  exact ⟨⟨step :: front, rfl, .cons hnext hreaches⟩, hkeys⟩

/-- A trail inside a block leads where the trails inside its parts lead. -/
theorem exists_endsAt_stepsInContents (place : Place) {b : Block Data}
    (hb : place.inner? = some b)
    (h : ∀ d ∈ b.contents.children,
      ∃ last keys, EndsAt (.node d) ((stepsIn p d).map (·.step)) last keys) :
    ∃ last keys, EndsAt place ((stepsInContents p b.contents).map (·.step)) last keys := by
  rcases stepsInContents_cases p b.contents with heq | ⟨entries, keyRanges, name, range, hdict,
    hmem, -, heq⟩ | ⟨step, d, hmem, -, heq⟩
  · rw [heq]
    exact ⟨place, [], ⟨[], rfl, .refl place⟩, .inl rfl⟩
  · rw [heq]
    exact ⟨place, _, ⟨[], rfl, .refl place⟩,
      .inr ⟨b, entries, keyRanges, name, hb, hdict, mem_map.2 ⟨_, hmem, rfl⟩, rfl⟩⟩
  · rw [heq]
    obtain ⟨last, keys, hends⟩ := h d (mem_children_iff.2 ⟨step, hmem⟩)
    exact ⟨last, keys, hends.cons (.part hb hmem)⟩

/-- The trail to a position goes the way of the data. -/
theorem exists_endsAt_stepsIn (p : Position) (d : Data) :
    ∃ last keys, EndsAt (.node d) ((stepsIn p d).map (·.step)) last keys := by
  induction d using Data.induction_on_parts with
  | h d ih =>
    match d with
    | .primitive s range tokens => exact ⟨_, [], ⟨[], rfl, .refl _⟩, .inl rfl⟩
    | .block ⟨contents, range, tokens⟩ =>
      exact exists_endsAt_stepsInContents (.node (.block ⟨contents, range, tokens⟩)) rfl (ih _ rfl)
    | .enum tag tagRange none range tokens =>
      exact ⟨.unit tag, [], ⟨[.tag tag], rfl, .cons .unit (.refl _)⟩, .inl rfl⟩
    | .enum tag tagRange (some ⟨contents, r, t⟩) range tokens =>
      obtain ⟨last, keys, hends⟩ :=
        exists_endsAt_stepsInContents (.payload ⟨contents, r, t⟩) rfl (ih _ rfl)
      exact ⟨last, keys, hends.cons .payload⟩

end Trail

/-! ### The cursor -/

namespace Trail

variable {r : Resolver} {d : Data} {spec : TypeSpec} {p : Position} {t : Trail}

theorem steps_of_to? (h : to? d p = some t) :
    d.range.contains p = true ∧ t = ⟨d.range, stepsIn p d⟩ := by
  unfold to? at h
  split at h
  next hd => exact ⟨hd, (Option.some.inj h).symm⟩
  next => cases h

/-- Along a trail to a key, the types of all steps are found, and that of the key last. -/
theorem walk_of_endsAt {last : Place} {keys : List Step} (hkeys : d.KeysPlaced)
    (hok : (d.check r spec).ok = true)
    (hends : EndsAt (.node d) (t.steps.map (·.step)) last keys) :
    (t.walk r spec).safeSteps = t.steps.length ∧
      ((t.walk r spec).expected = .unit →
        ∃ tag, (Place.node d).Reaches (t.steps.map (·.step)) (.unit tag)) := by
  obtain ⟨⟨front, hsteps, hreaches⟩, hlast⟩ := hends
  obtain ⟨expected, hfits, hwalk⟩ := (Fits.node hok).reaches hkeys hreaches
  obtain ⟨hsafe, hexpected⟩ := hwalk keys
  rw [← hsteps] at hsafe hexpected
  have hlength : t.steps.length = front.length + keys.length := by
    rw [← length_map (·.step), hsteps, length_append]
  rw [walk, hsafe, hexpected, hlength]
  rcases hlast with rfl | ⟨b, entries, keyRanges, name, hb, hcontents, hname, rfl⟩
  · refine ⟨rfl, fun hunit => ?_⟩
    rw [ExpectedType.walk] at hunit
    -- a unit is expected nowhere but at a unit
    cases hfits with
    | unit tag => exact ⟨tag, by simpa [hsteps] using hreaches⟩
    | node => cases hunit
    | payload => cases hunit
  · obtain ⟨type, text, hnext⟩ := hfits.exists_next?_key hb hcontents hname
    simp [ExpectedType.walk, hnext]

/-- What a trail leads to is what is expected there. -/
theorem fits_of_reaches (hkeys : d.KeysPlaced) (hok : (d.check r spec).ok = true) {place : Place}
    (hreaches : (Place.node d).Reaches (t.steps.map (·.step)) place) :
    Fits r place (t.walk r spec).expected := by
  obtain ⟨expected, hfits, hwalk⟩ := (Fits.node hok).reaches hkeys hreaches
  obtain ⟨-, hexpected⟩ := hwalk []
  rw [append_nil] at hexpected
  rwa [walk, hexpected]

theorem contains_target (h : to? d p = some t) : t.target.contains p = true := by
  obtain ⟨hd, rfl⟩ := steps_of_to? h
  have hsteps := contains_of_mem_stepsIn d hd
  unfold target
  cases hlast : (stepsIn p d).getLast? with
  | none => exact hd
  | some step => exact hsteps step (mem_of_getLast? hlast)

theorem contains_rangeAfter (h : to? d p = some t) (n : Nat) :
    (t.rangeAfter n).contains p = true := by
  have htarget := contains_target h
  obtain ⟨hd, rfl⟩ := steps_of_to? h
  have hsteps := contains_of_mem_stepsIn d hd
  cases n with
  | zero => exact hd
  | succ n =>
    unfold rangeAfter
    cases hn : (stepsIn p d)[n]? with
    | none => simpa [hn] using htarget
    | some step => simpa [hn] using hsteps step (mem_of_getElem? hn)

end Trail

theorem Hover.contains_range {r : Resolver} {d : Data} {spec : TypeSpec} {p : Position} {h : Hover}
    (hat : at? r d spec p = some h) : h.range.contains p = true := by
  obtain ⟨t, ht, rfl⟩ := Option.map_eq_some_iff.1 hat
  dsimp only
  split
  · exact Trail.contains_rangeAfter ht _
  · exact Trail.contains_target ht

/-- **The cursor never loses the type of data that passes the check.** The block around a position
is found together with its type. The steps of a trail to a position can all be followed in the type.
They lead to a place in the data, unless the last one is a key, and whatever they lead to is what is
expected there: a part that passes the check against the type, a payload that passes it against the
block type, or a unit; a unit is expected nowhere else.

Whether the data passes the check or not, a hover speaks of a range that contains the position. -/
theorem Data.cursor_agrees_with_check (r : Resolver) (d : Data) (spec : TypeSpec) (p : Position) :
    (d.KeysPlaced → (d.check r spec).ok = true →
      Enclosing.ofData r p d spec ≠ .typeFailed ∧
      ∀ t, Trail.to? d p = some t →
        (t.walk r spec).safeSteps = t.steps.length ∧
        ((∃ place, (Place.node d).Reaches (t.steps.map (·.step)) place) ∨
          ∃ front name, t.steps.map (·.step) = front ++ [.key name]) ∧
        (∀ place, (Place.node d).Reaches (t.steps.map (·.step)) place →
          Fits r place (t.walk r spec).expected) ∧
        ((t.walk r spec).expected = .unit →
          ∃ tag, (Place.node d).Reaches (t.steps.map (·.step)) (.unit tag))) ∧
    ∀ h, Hover.at? r d spec p = some h → h.range.contains p = true := by
  refine ⟨fun hkeys hok => ⟨Enclosing.ofData_ne_typeFailed d hkeys spec hok, fun t ht => ?_⟩,
    fun h => Hover.contains_range⟩
  obtain ⟨last, keys, hends⟩ := Trail.exists_endsAt_stepsIn p d
  obtain ⟨-, rfl⟩ := Trail.steps_of_to? ht
  obtain ⟨hsafe, hunit⟩ :=
    Trail.walk_of_endsAt (t := ⟨d.range, Trail.stepsIn p d⟩) hkeys hok hends
  refine ⟨hsafe, ?_, fun place => Trail.fits_of_reaches hkeys hok, hunit⟩
  obtain ⟨⟨front, hsteps, hreaches⟩, rfl | ⟨_, _, _, name, -, -, -, rfl⟩⟩ := hends
  · exact .inl ⟨last, by simpa [hsteps] using hreaches⟩
  · exact .inr ⟨front, name, hsteps⟩

/-- On the number in `{a: #B(1)}`: the trail goes by the key and the tag, and the number is what is
expected at its end. -/
theorem Data.cursor_agrees_with_check_of_payload :
    let types : Resolver := .ofList
      [("T", .block (.dict [("a", .enum [("B", some (.tuple [.primitive .int]))])]))]
    let one : Data := .primitive (.int 1) (.onLine 0 7 8) ⟨6, 7⟩
    let b : Block Data := ⟨.tuple [one], .onLine 0 6 9, ⟨5, 8⟩⟩
    let a : Data := .enum "B" (.onLine 0 4 6) (some b) (.onLine 0 4 9) ⟨4, 8⟩
    let d : Data := .block ⟨.dict [("a", a)] [("a", .onLine 0 1 2)], .onLine 0 0 10, ⟨0, 9⟩⟩
    let p : Position := ⟨0, 7⟩
    d.KeysPlaced ∧ (d.check types (.ref "T")).ok = true ∧
      Enclosing.ofData types p d (.ref "T") ≠ .typeFailed ∧
      ∃ t, Trail.to? d p = some t ∧
        t.steps.map (·.step) = [.key "a", .tag "B", .tupleElement 0] ∧
        (t.walk types (.ref "T")).safeSteps = 3 ∧
        Fits types (.node one) (t.walk types (.ref "T")).expected := by
  intro types one b a d p
  have hkeys : d.KeysPlaced := by
    simp [d, a, b, one, Data.KeysPlaced, Data.nodes, Data.nodesOfBlock, Data.nodesOfContents,
      Data.nodesOfEntries, Data.nodesOfItems, Data.innerBlock?, Block.KeysPlaced]
  have hok : (d.check types (.ref "T")).ok = true := by decide
  obtain ⟨henclosing, htrail⟩ := (Data.cursor_agrees_with_check types d (.ref "T") p).1 hkeys hok
  obtain ⟨hsafe, -, hfits, -⟩ := htrail _ rfl
  have hkey : (Place.node d).Next (.key "a") (.node a) := .part rfl (by simp [steps])
  have htag : (Place.node a).Next (.tag "B") (.payload b) := .payload
  have hone : (Place.payload b).Next (.tupleElement 0) (.node one) :=
    .part rfl (by simp [b, steps])
  exact ⟨hkeys, hok, henclosing, _, rfl, rfl, hsafe,
    hfits _ (.cons hkey (.cons htag (.cons hone (.refl _))))⟩

end TypedNotation
