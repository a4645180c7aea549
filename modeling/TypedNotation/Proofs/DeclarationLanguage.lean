import TypedNotation.Declaration
import TypedNotation.Proofs.Inhabitation
import TypedNotation.TypeSpec.OfValue

/-!
# The language of declarations

The language of declarations is given twice: as a type of its own, `Declaration.root`, which data is
checked against like any other, and as what `TypeSpec.ofValue?` can read. Both are compared with its
grammar, `Declaration.IsType`:

* `isType_iff_ofValue?`: the values of the grammar are those that describe a type all of whose
  references are declared;
* `check_root_ok_iff`: the data that passes the check is the data whose value is in the grammar. The
  type of declarations leads to no dict type (`keyless`), so its check decides inhabitation.

So a declaration passes the check exactly if it can be read and refers to declared names only.
-/

namespace TypedNotation

open List Ordered

/-! ### References -/

mutual

/-- The names that a type refers to, anywhere inside it. -/
def TypeSpec.refs : TypeSpec → List String
  | .primitive _ => []
  | .block spec => spec.refs
  | .enum variants => TypeSpec.variantRefs variants
  | .ref name => [name]
  | .missing => []

/-- The names that a block type refers to. -/
def BlockSpec.refs : BlockSpec → List String
  | .dict fields => TypeSpec.fieldRefs fields
  | .record value => value.refs
  | .array element => element.refs
  | .tuple elements => TypeSpec.elementRefs elements

/-- The names that the fields of a dict type refer to. -/
def TypeSpec.fieldRefs : List (String × TypeSpec) → List String
  | [] => []
  | (_, spec) :: rest => spec.refs ++ TypeSpec.fieldRefs rest

/-- The names that the elements of a tuple type refer to. -/
def TypeSpec.elementRefs : List TypeSpec → List String
  | [] => []
  | spec :: rest => spec.refs ++ TypeSpec.elementRefs rest

/-- The names that the variants of an enum type refer to. -/
def TypeSpec.variantRefs : List (String × Option BlockSpec) → List String
  | [] => []
  | (_, none) :: rest => TypeSpec.variantRefs rest
  | (_, some spec) :: rest => spec.refs ++ TypeSpec.variantRefs rest

end

namespace Declaration

/-! ### The grammar -/

/-- The tags of primitive types. -/
def primitiveTags : List String :=
  ["int", "float", "boolean", "string"]

mutual

/-- The values that describe a type, when some names are declared. -/
inductive IsType (declared : List String) : Value → Prop
  | primitive {tag : String} : tag ∈ primitiveTags → IsType declared (.enum tag none)
  | block {tag : String} {payload : Value} :
      IsBlock declared tag payload → IsType declared (.enum tag (some payload))
  | enum {variants : List (String × Value)} :
      (∀ e ∈ variants, IsVariant declared e.2) →
        IsType declared (.enum "enum" (some (.dict variants)))
  | ref {name : String} :
      name ∈ declared → IsType declared (.enum "ref" (some (.tuple [.enum name none])))

/-- The tags and payloads that describe a block type. -/
inductive IsBlock (declared : List String) : String → Value → Prop
  | dict {fields : List (String × Value)} :
      (∀ e ∈ fields, IsType declared e.2) → IsBlock declared "dict" (.dict fields)
  | record {item : Value} : IsType declared item → IsBlock declared "record" (.tuple [item])
  | array {item : Value} : IsType declared item → IsBlock declared "array" (.tuple [item])
  | tuple {items : List Value} :
      (∀ item ∈ items, IsType declared item) → IsBlock declared "tuple" (.array items)

/-- The values that describe a variant. -/
inductive IsVariant (declared : List String) : Value → Prop
  | unit : IsVariant declared (.enum "unit" none)
  | block {tag : String} {payload : Value} :
      IsBlock declared tag payload → IsVariant declared (.enum tag (some payload))

end

section Grammar

variable {declared : List String} {tag : String}

/-- A tag alone is a type exactly if it names a primitive one. -/
theorem isType_unit_iff : IsType declared (.enum tag none) ↔ tag ∈ primitiveTags := by
  constructor
  · rintro (h | _)
    exact h
  · exact .primitive

/-- A tag with a payload is a block type, an enum or a reference. -/
theorem isType_payload_iff {payload : Value} :
    IsType declared (.enum tag (some payload)) ↔
      IsBlock declared tag payload
        ∨ (tag = "enum" ∧ ∃ variants, payload = .dict variants ∧ ∀ e ∈ variants,
          IsVariant declared e.2)
        ∨ (tag = "ref" ∧ ∃ name ∈ declared, payload = .tuple [.enum name none]) := by
  constructor
  · intro h
    cases h with
    | block h => exact .inl h
    | enum h => exact .inr (.inl ⟨rfl, _, rfl, h⟩)
    | ref h => exact .inr (.inr ⟨rfl, _, h, rfl⟩)
  · rintro (h | ⟨rfl, variants, rfl, h⟩ | ⟨rfl, name, h, rfl⟩)
    exacts [.block h, .enum h, .ref h]

/-- The types of the fields of a dict. -/
theorem isBlock_dict_iff {fields : List (String × Value)} :
    IsBlock declared tag (.dict fields) ↔ tag = "dict" ∧ ∀ e ∈ fields, IsType declared e.2 := by
  constructor
  · rintro (h | _ | _ | _)
    exact ⟨rfl, h⟩
  · rintro ⟨rfl, h⟩
    exact .dict h

/-- The one type of the entries of a record or an array. -/
theorem isBlock_tuple_iff {items : List Value} :
    IsBlock declared tag (.tuple items) ↔
      (tag = "record" ∨ tag = "array") ∧ ∃ item, items = [item] ∧ IsType declared item := by
  constructor
  · intro h
    cases h with
    | record h => exact ⟨.inl rfl, _, rfl, h⟩
    | array h => exact ⟨.inr rfl, _, rfl, h⟩
  · rintro ⟨rfl | rfl, item, rfl, h⟩
    exacts [.record h, .array h]

/-- The types of the elements of a tuple. -/
theorem isBlock_array_iff {items : List Value} :
    IsBlock declared tag (.array items) ↔ tag = "tuple" ∧ ∀ item ∈ items, IsType declared item := by
  constructor
  · rintro (_ | _ | _ | h)
    exact ⟨rfl, h⟩
  · rintro ⟨rfl, h⟩
    exact .tuple h

/-- The only variant without a payload is `unit`. -/
theorem isVariant_unit_iff : IsVariant declared (.enum tag none) ↔ tag = "unit" := by
  constructor
  · rintro (_ | _)
    rfl
  · rintro rfl
    exact .unit

/-- A variant with a payload is a block type. -/
theorem isVariant_payload_iff {payload : Value} :
    IsVariant declared (.enum tag (some payload)) ↔ IsBlock declared tag payload := by
  constructor
  · rintro (_ | h)
    exact h
  · exact .block

end Grammar

/-! ### Reading -/

section Reading

open TypeSpec

variable (declared : List String)

/-- The primitive tags are those that are read without a payload. -/
theorem mem_primitiveTags_iff {tag : String} :
    tag ∈ primitiveTags ↔ ∃ spec, primitive? tag = some spec ∧ spec.refs ⊆ declared := by
  constructor
  · intro h
    simp only [primitiveTags, mem_cons, not_mem_nil, or_false] at h
    rcases h with rfl | rfl | rfl | rfl <;> exact ⟨_, rfl, by simp [TypeSpec.refs]⟩
  · rintro ⟨spec, h, -⟩
    unfold primitive? at h
    simp only [primitiveTags, mem_cons, not_mem_nil, or_false]
    grind

/-- A reference is read exactly if it names a declared type. -/
theorem exists_ref?_iff {items : List Value} :
    (∃ name ∈ declared, items = [.enum name none]) ↔
      ∃ spec, ref? items = some spec ∧ spec.refs ⊆ declared := by
  constructor
  · rintro ⟨name, h, rfl⟩
    exact ⟨.ref name, rfl, by simpa [TypeSpec.refs] using h⟩
  · rintro ⟨spec, h, hrefs⟩
    unfold ref? at h
    split at h
    next name =>
      obtain rfl : .ref name = spec := by simpa using h
      exact ⟨name, by simpa [TypeSpec.refs] using hrefs, rfl⟩
    next => simp at h

/-- A tag with a payload is read as a block type, as an enum type or as a reference. -/
theorem ofValue?_payload_iff {tag : String} {payload : Value} {spec : TypeSpec} :
    ofValue? (.enum tag (some payload)) = some spec ↔
      (∃ b, blockOf? tag payload = some b ∧ .block b = spec)
        ∨ (tag = "enum" ∧ ∃ entries variants,
            payload = .dict entries ∧ variants? entries = some variants ∧ .enum variants = spec)
        ∨ (tag = "ref" ∧ ∃ items, payload = .tuple items ∧ ref? items = some spec) := by
  cases payload with
  | scalar s | enum t p => simp [ofValue?, blockOf?]
  | array items => by_cases h : tag = "tuple" <;> simp [ofValue?, blockOf?, h]
  | dict entries =>
    by_cases henum : tag = "enum"
    · simp [ofValue?, blockOf?, henum]
    · by_cases hdict : tag = "dict" <;> simp [ofValue?, blockOf?, henum, hdict]
  | tuple items =>
    by_cases href : tag = "ref"
    · have hsingle : single? "ref" items = none := by
        rcases items with _ | ⟨item, _ | _⟩ <;> simp [single?]
      simp [ofValue?, blockOf?, href, hsingle]
    · simp [ofValue?, blockOf?, href]

mutual

/-- The grammar is what can be read with declared references only. -/
theorem isType_iff_ofValue? : ∀ v : Value,
    IsType declared v ↔ ∃ spec, ofValue? v = some spec ∧ spec.refs ⊆ declared
  | .scalar _ | .dict _ | .array _ | .tuple _ => by
    simp only [ofValue?, reduceCtorEq, false_and, exists_false, iff_false]
    rintro (_ | _ | _ | _)
  | .enum tag none => by
    rw [isType_unit_iff, ofValue?]
    exact mem_primitiveTags_iff declared
  | .enum tag (some payload) => by
    rw [isType_payload_iff, isBlock_iff_blockOf? tag payload, isVariants_iff payload]
    constructor
    · rintro (⟨b, hb, hrefs⟩ | ⟨rfl, entries, variants, rfl, hvariants, hrefs⟩ | ⟨rfl, name, hname,
        rfl⟩)
      · exact ⟨.block b, ofValue?_payload_iff.2 (.inl ⟨b, hb, rfl⟩), hrefs⟩
      · exact ⟨.enum variants,
          ofValue?_payload_iff.2 (.inr (.inl ⟨rfl, entries, variants, rfl, hvariants, rfl⟩)), hrefs⟩
      · obtain ⟨spec, hspec, hrefs⟩ := (exists_ref?_iff declared).1 ⟨name, hname, rfl⟩
        exact ⟨spec, ofValue?_payload_iff.2 (.inr (.inr ⟨rfl, _, rfl, hspec⟩)), hrefs⟩
    · rintro ⟨spec, hspec, hrefs⟩
      rcases ofValue?_payload_iff.1 hspec with
        ⟨b, hb, rfl⟩ | ⟨rfl, entries, variants, rfl, hvariants, rfl⟩ | ⟨rfl, items, rfl, href⟩
      · exact .inl ⟨b, hb, hrefs⟩
      · exact .inr (.inl ⟨rfl, entries, variants, rfl, hvariants, hrefs⟩)
      · obtain ⟨name, hname, rfl⟩ := (exists_ref?_iff declared).2 ⟨spec, href, hrefs⟩
        exact .inr (.inr ⟨rfl, name, hname, rfl⟩)

/-- A value is a block type exactly if it is read as one. -/
theorem isBlock_iff_blockOf? (tag : String) : ∀ payload : Value,
    IsBlock declared tag payload ↔ ∃ b, blockOf? tag payload = some b ∧ b.refs ⊆ declared
  | .scalar _ | .enum _ _ => by
    simp only [blockOf?, reduceCtorEq, false_and, exists_false, iff_false]
    rintro (_ | _ | _ | _)
  | .dict entries => by
    rw [isBlock_dict_iff, forall_isType_entries_iff entries, blockOf?]
    by_cases h : tag = "dict" <;> simp [h, BlockSpec.refs]
  | .array items => by
    rw [isBlock_array_iff, forall_isType_items_iff items, blockOf?]
    by_cases h : tag = "tuple" <;> simp [h, BlockSpec.refs]
  | .tuple [] | .tuple (_ :: _ :: _) => by simp [isBlock_tuple_iff, blockOf?, single?]
  | .tuple [item] => by
    have hitem := isType_iff_ofValue? item
    rw [isBlock_tuple_iff, blockOf?, single?]
    by_cases hrecord : tag = "record"
    · simp [hrecord, hitem, BlockSpec.refs]
    · by_cases harray : tag = "array" <;> simp [hrecord, harray, hitem, BlockSpec.refs]

/-- A payload has variants exactly if they are read. -/
theorem isVariants_iff : ∀ payload : Value,
    (∃ entries, payload = .dict entries ∧ ∀ e ∈ entries, IsVariant declared e.2) ↔
      ∃ entries variants, payload = .dict entries ∧ variants? entries = some variants
        ∧ variantRefs variants ⊆ declared
  | .scalar _ | .array _ | .tuple _ | .enum _ _ => by simp
  | .dict entries => by simpa using forall_isVariant_iff entries

/-- All fields are types exactly if they are read. -/
theorem forall_isType_entries_iff : ∀ entries : List (String × Value),
    (∀ e ∈ entries, IsType declared e.2) ↔
      ∃ fields, fields? entries = some fields ∧ fieldRefs fields ⊆ declared
  | [] => by simp [fields?, fieldRefs]
  | (key, v) :: rest => by
    rw [forall_mem_cons, isType_iff_ofValue? v, forall_isType_entries_iff rest, fields?]
    cases ofValue? v <;> cases fields? rest <;> simp [fieldRefs]

/-- All elements are types exactly if they are read. -/
theorem forall_isType_items_iff : ∀ items : List Value,
    (∀ item ∈ items, IsType declared item) ↔
      ∃ elements, elements? items = some elements ∧ elementRefs elements ⊆ declared
  | [] => by simp [elements?, elementRefs]
  | v :: rest => by
    rw [forall_mem_cons, isType_iff_ofValue? v, forall_isType_items_iff rest, elements?]
    cases ofValue? v <;> cases elements? rest <;> simp [elementRefs]

/-- All entries are variants exactly if they are read. -/
theorem forall_isVariant_iff : ∀ entries : List (String × Value),
    (∀ e ∈ entries, IsVariant declared e.2) ↔
      ∃ variants, variants? entries = some variants ∧ variantRefs variants ⊆ declared
  | [] => by simp [variants?, variantRefs]
  | (name, .enum tag none) :: rest => by
    rw [forall_mem_cons, isVariant_unit_iff, forall_isVariant_iff rest, variants?]
    by_cases hunit : tag = "unit" <;> simp [hunit, variantRefs]
  | (name, .enum tag (some payload)) :: rest => by
    rw [forall_mem_cons, isVariant_payload_iff, isBlock_iff_blockOf? tag payload,
      forall_isVariant_iff rest, variants?]
    cases blockOf? tag payload <;> cases variants? rest <;> simp [variantRefs]
  | (name, .scalar _) :: rest | (name, .dict _) :: rest | (name, .array _) :: rest
  | (name, .tuple _) :: rest => by
    simp only [variants?, reduceCtorEq, false_and, exists_false, iff_false]
    intro h
    rcases forall_mem_cons.1 h with ⟨_ | _, -⟩

end

end Reading

end Declaration

/-! ### Values of block types and of enum types -/

namespace Value

variable {r : Resolver} {type spec : TypeSpec} {v : Value}

/-- The entries of a record, one by one. -/
theorem recordInhabits_iff {entries : List (String × Value)} :
    RecordInhabits r entries type ↔ ∀ e ∈ entries, e.2.Inhabits r type := by
  induction entries with
  | nil => simp [RecordInhabits]
  | cons e rest ih => rw [RecordInhabits, forall_mem_cons, ih]

/-- The elements of an array, one by one. -/
theorem itemsInhabit_iff {items : List Value} :
    ItemsInhabit r items type ↔ ∀ v ∈ items, v.Inhabits r type := by
  induction items with
  | nil => simp [ItemsInhabit]
  | cons v rest ih => rw [ItemsInhabit, forall_mem_cons, ih]

/-- The values of a record type. -/
theorem inhabits_record_iff :
    v.Inhabits r (.block (.record type)) ↔
      ∃ entries, v = .dict entries ∧ ∀ e ∈ entries, e.2.Inhabits r type := by
  rcases v with _ | _ | _ | _ | ⟨_, _ | _⟩ <;> simp [Inhabits, recordInhabits_iff]

/-- The values of an array type. -/
theorem inhabits_array_iff :
    v.Inhabits r (.block (.array type)) ↔ ∃ items, v = .array items ∧
      ∀ v ∈ items, v.Inhabits r type := by
  rcases v with _ | _ | _ | _ | ⟨_, _ | _⟩ <;> simp [Inhabits, itemsInhabit_iff]

/-- A tuple type of one element has the tuples of one item. -/
theorem inhabits_single_iff :
    v.Inhabits r (.block (.tuple [type])) ↔ ∃ item, v = .tuple [item] ∧ item.Inhabits r type := by
  rcases v with _ | _ | _ | (_ | ⟨item, _ | _⟩) | ⟨_, _ | _⟩ <;> simp [Inhabits, TupleInhabits]

section Enum

variable {variants : List (String × Option BlockSpec)}
  (h : spec.resolve r = .ok (.enum variants)) {tag : String}
include h

/-- A tag alone is a value if its variant has no payload. -/
theorem inhabits_unit_iff : (enum tag none).Inhabits r spec ↔ variants.lookup tag = some none := by
  rw [Inhabits, h]

/-- A tag with a payload is a value if its variant asks for that payload. -/
theorem inhabits_payload_iff :
    (enum tag (some v)).Inhabits r spec ↔
      ∃ wanted, variants.lookup tag = some (some wanted) ∧ v.Inhabits r (.block wanted) := by
  rw [Inhabits, h]
  rcases hv : variants.lookup tag with _ | _ | wanted <;> simp [hv]

end Enum

end Value

namespace Declaration

/-! ### Checking -/

section Checking

open Value

variable (declared : List String) {tag : String} {wanted : BlockSpec}

/-- The types of variants. -/
def variantType : TypeSpec :=
  .enum (("unit", none) :: blockVariants)

/-- The tags of the type of declarations. -/
def variants : List (String × Option BlockSpec) :=
  [("int", none), ("float", none), ("boolean", none), ("string", none)] ++ blockVariants
    ++ [("enum", some (.record variantType)),
      ("ref", some (.tuple [.enum (nameVariants declared)]))]

/-- The type of declarations is the enum of its variants. -/
theorem resolve_root : root.resolve (resolver declared) = .ok (.enum (variants declared)) := by
  simp only [TypeSpec.resolve, TypeSpec.maxHops, root, TypeSpec.follow, resolver, if_true]
  rfl

/-- The declared names are the tags that a reference may have. -/
theorem lookup_nameVariants (name : String) :
    (nameVariants declared).lookup name = if name ∈ declared then some none else none := by
  have hfold : ∀ (names : List String) (entries : List (String × Option BlockSpec)),
      ((names.map fun n => (n, (none : Option BlockSpec))).foldl
          (fun entries e => insert entries e.1 e.2) entries).lookup name =
        if name ∈ names then some none else entries.lookup name := by
    intro names
    induction names with
    | nil => simp
    | cons n rest ih =>
      intro entries
      rw [map_cons, foldl_cons, ih, lookup_insert]
      by_cases hn : name = n <;> simp [hn]
  exact hfold declared []

theorem nodup_blockVariants : (blockVariants.map (·.1)).Nodup := by
  decide

theorem nodup_variants : ((variants declared).map (·.1)).Nodup := by
  simp [variants, blockVariants]

theorem nodup_variantType : ((("unit", none) :: blockVariants).map (·.1)).Nodup := by
  decide

/-- The tags of block types, with what each asks for. -/
theorem lookup_blockVariants_iff :
    blockVariants.lookup tag = some (some wanted) ↔
      tag = "dict" ∧ .record root = wanted
        ∨ (tag = "record" ∨ tag = "array") ∧ .tuple [root] = wanted
        ∨ tag = "tuple" ∧ .array root = wanted := by
  rw [lookup_eq_some_iff nodup_blockVariants]
  simp [blockVariants, or_and_right, or_assoc, eq_comm]

/-- The tags of types without a payload. -/
theorem lookup_variants_none_iff :
    (variants declared).lookup tag = some none ↔ tag ∈ primitiveTags := by
  rw [lookup_eq_some_iff (nodup_variants declared)]
  simp [variants, blockVariants, primitiveTags]

/-- The tags of types with a payload, with what each asks for. -/
theorem lookup_variants_some_iff :
    (variants declared).lookup tag = some (some wanted) ↔
      blockVariants.lookup tag = some (some wanted)
        ∨ tag = "enum" ∧ .record variantType = wanted
        ∨ tag = "ref" ∧ .tuple [.enum (nameVariants declared)] = wanted := by
  rw [lookup_eq_some_iff (nodup_variants declared),
    lookup_eq_some_iff nodup_blockVariants]
  simp [variants, eq_comm]

theorem resolve_variantType {r : Resolver} :
    variantType.resolve r = .ok (.enum (("unit", none) :: blockVariants)) := rfl

/-- The tag of a variant without a payload. -/
theorem lookup_variantType_none_iff :
    (("unit", none) :: blockVariants).lookup tag = some none ↔ tag = "unit" := by
  rw [lookup_eq_some_iff nodup_variantType]
  simp [blockVariants]

/-- The tags of variants with a payload are those of block types. -/
theorem lookup_variantType_some_iff :
    (("unit", none) :: blockVariants).lookup tag = some (some wanted) ↔
      blockVariants.lookup tag = some (some wanted) := by
  rw [lookup_eq_some_iff nodup_variantType, lookup_eq_some_iff nodup_blockVariants]
  simp

/-- The types that checking a declaration leads to. -/
def IsPart (spec : TypeSpec) : Prop :=
  spec = root ∨ spec = variantType ∨ spec = .enum (nameVariants declared)

/-- The type of declarations leads to no dict type. -/
theorem keyless : Keyless (resolver declared) (IsPart declared) := by
  have hblock : ∀ {tag wanted}, blockVariants.lookup tag = some (some wanted) →
      wanted.Keyless (IsPart declared) := by
    intro tag wanted h
    obtain ⟨-, rfl⟩ | ⟨-, rfl⟩ | ⟨-, rfl⟩ := lookup_blockVariants_iff.1 h <;>
      simp [BlockSpec.Keyless, IsPart]
  refine ⟨fun hspec hresolve => ?_, fun hspec hresolve hlookup => ?_⟩
  · obtain rfl | rfl | rfl := hspec
    · cases (resolve_root declared).symm.trans hresolve
    · cases hresolve
    · cases hresolve
  · obtain rfl | rfl | rfl := hspec
    · cases (resolve_root declared).symm.trans hresolve
      obtain h | ⟨-, rfl⟩ | ⟨-, rfl⟩ := (lookup_variants_some_iff declared).1 hlookup
      · exact hblock h
      · exact .inr (.inl rfl)
      · simp [BlockSpec.Keyless, IsPart]
    · cases hresolve
      exact hblock (lookup_variantType_some_iff.1 hlookup)
    · cases hresolve
      rw [lookup_nameVariants] at hlookup
      split at hlookup <;> cases hlookup

/-- A property of the block type of a tag, case by case. -/
theorem exists_blockVariants_iff {P : BlockSpec → Prop} :
    (∃ wanted, blockVariants.lookup tag = some (some wanted) ∧ P wanted) ↔
      tag = "dict" ∧ P (.record root)
        ∨ (tag = "record" ∨ tag = "array") ∧ P (.tuple [root])
        ∨ tag = "tuple" ∧ P (.array root) := by
  simp only [lookup_blockVariants_iff, or_and_right, exists_or, and_assoc, exists_and_left,
    exists_eq_left']

/-- A reference takes one declared name. -/
theorem inhabits_name_iff {payload : Value} :
    payload.Inhabits (resolver declared) (.block (.tuple [.enum (nameVariants declared)])) ↔
      ∃ name ∈ declared, payload = .tuple [.enum name none] := by
  have hresolve : (TypeSpec.enum (nameVariants declared)).resolve (resolver declared) =
      .ok (.enum (nameVariants declared)) := rfl
  rw [inhabits_single_iff]
  constructor
  · rintro ⟨item, rfl, hitem⟩
    rcases item with _ | _ | _ | _ | ⟨name, _ | payload⟩
    case enum.none =>
      rw [inhabits_unit_iff hresolve, lookup_nameVariants] at hitem
      exact ⟨name, by simpa using hitem, rfl⟩
    all_goals simp [Inhabits, hresolve, lookup_nameVariants] at hitem
  · rintro ⟨name, hname, rfl⟩
    exact ⟨_, rfl, (inhabits_unit_iff hresolve).2 (by simp [lookup_nameVariants, hname])⟩

mutual

/-- The type of declarations has the values of the grammar. -/
theorem inhabits_root_iff : ∀ v : Value, v.Inhabits (resolver declared) root ↔ IsType declared v
  | .scalar _ | .dict _ | .array _ | .tuple _ => by
    refine iff_of_false (by simp [Inhabits, resolve_root]) ?_
    rintro (_ | _ | _ | _)
  | .enum tag none => by
    rw [inhabits_unit_iff (resolve_root declared), lookup_variants_none_iff, isType_unit_iff]
  | .enum tag (some payload) => by
    rw [inhabits_payload_iff (resolve_root declared), isType_payload_iff,
      ← inhabits_block_iff payload, ← inhabits_variants_iff payload, ← inhabits_name_iff]
    simp only [lookup_variants_some_iff, or_and_right, exists_or, and_assoc, exists_and_left,
      exists_eq_left']

/-- A payload that a block tag asks for is a block type. -/
theorem inhabits_block_iff : ∀ {tag : String} (payload : Value),
    (∃ wanted, blockVariants.lookup tag = some (some wanted)
        ∧ payload.Inhabits (resolver declared) (.block wanted)) ↔ IsBlock declared tag payload
  | tag, .scalar _ | tag, .enum _ _ => by
    rw [exists_blockVariants_iff]
    refine iff_of_false (by simp [inhabits_record_iff, inhabits_single_iff, inhabits_array_iff]) ?_
    rintro (_ | _ | _ | _)
  | tag, .dict entries => by
    rw [exists_blockVariants_iff, isBlock_dict_iff, ← forall_inhabits_entries_iff entries]
    simp [inhabits_record_iff, inhabits_single_iff, inhabits_array_iff]
  | tag, .array items => by
    rw [exists_blockVariants_iff, isBlock_array_iff, ← forall_inhabits_items_iff items]
    simp [inhabits_record_iff, inhabits_single_iff, inhabits_array_iff]
  | tag, .tuple [item] => by
    rw [exists_blockVariants_iff, isBlock_tuple_iff]
    simp [inhabits_record_iff, inhabits_single_iff, inhabits_array_iff, inhabits_root_iff item]
  | tag, .tuple [] | tag, .tuple (_ :: _ :: _) => by
    rw [exists_blockVariants_iff, isBlock_tuple_iff]
    simp [inhabits_record_iff, inhabits_single_iff, inhabits_array_iff]

/-- The payload of an enum is a dict of variants. -/
theorem inhabits_variants_iff : ∀ payload : Value,
    payload.Inhabits (resolver declared) (.block (.record variantType)) ↔
      ∃ variants, payload = .dict variants ∧ ∀ e ∈ variants, IsVariant declared e.2
  | .scalar _ | .array _ | .tuple _ | .enum _ _ => by simp [inhabits_record_iff]
  | .dict entries => by simpa [inhabits_record_iff] using forall_inhabits_variants_iff entries

/-- The type of variants has the variants as its values. -/
theorem inhabits_variantType_iff : ∀ v : Value,
    v.Inhabits (resolver declared) variantType ↔ IsVariant declared v
  | .scalar _ | .dict _ | .array _ | .tuple _ => by
    refine iff_of_false (by simp [Inhabits, resolve_variantType]) ?_
    rintro (_ | _)
  | .enum tag none => by
    rw [inhabits_unit_iff resolve_variantType, isVariant_unit_iff, lookup_variantType_none_iff]
  | .enum tag (some payload) => by
    rw [inhabits_payload_iff resolve_variantType, isVariant_payload_iff,
      ← inhabits_block_iff payload]
    simp only [lookup_variantType_some_iff]

/-- The same for the fields of a dict. -/
theorem forall_inhabits_entries_iff : ∀ entries : List (String × Value),
    (∀ e ∈ entries, e.2.Inhabits (resolver declared) root) ↔ ∀ e ∈ entries, IsType declared e.2
  | [] => by simp
  | (_, v) :: rest => by
    rw [forall_mem_cons, forall_mem_cons, inhabits_root_iff v, forall_inhabits_entries_iff rest]

/-- The same for a list of types. -/
theorem forall_inhabits_items_iff : ∀ items : List Value,
    (∀ v ∈ items, v.Inhabits (resolver declared) root) ↔ ∀ v ∈ items, IsType declared v
  | [] => by simp
  | v :: rest => by
    rw [forall_mem_cons, forall_mem_cons, inhabits_root_iff v, forall_inhabits_items_iff rest]

/-- The same for the variants of an enum. -/
theorem forall_inhabits_variants_iff : ∀ entries : List (String × Value),
    (∀ e ∈ entries, e.2.Inhabits (resolver declared) variantType) ↔
      ∀ e ∈ entries, IsVariant declared e.2
  | [] => by simp
  | (_, v) :: rest => by
    rw [forall_mem_cons, forall_mem_cons, inhabits_variantType_iff v,
      forall_inhabits_variants_iff rest]

end

/-- The check against the type of declarations accepts the grammar. -/
theorem check_root_ok_iff (d : Data) :
    (d.check (resolver declared) root).ok = true ↔ IsType declared d.value :=
  (Data.check_ok_iff (keyless declared) d root (.inr (.inl rfl))).trans
    (inhabits_root_iff declared d.value)

/-- **Checking and reading agree.** Whatever names are declared, a data tree passes the check
against the type of declarations exactly if its value can be read as a type in which every
reference, however deep, is to a declared name. -/
theorem check_agrees_with_reading (d : Data) :
    (d.check (resolver declared) root).ok = true ↔
      ∃ spec, TypeSpec.ofValue? d.value = some spec ∧ ∀ name ∈ spec.refs, name ∈ declared :=
  (check_root_ok_iff declared d).trans (isType_iff_ofValue? declared d.value)

end Checking

end Declaration

end TypedNotation
