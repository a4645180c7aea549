import Mathlib.Tactic.Common
import TypedNotation.Check

/-!
# Checking decides inhabitation

`Value.Inhabits` says which values a type stands for, by recursion on the value and without a word
about places, findings or the order in which things are looked at. A name means whatever resolving
it gives, so the resolver may well be cyclic: the value gets smaller at every step.

The check of a data tree walks on after a mismatch and compares the keys of a dict by the places of
its keys and not by its entries. Where the two name the same keys (`Data.KeysAgree`), or the type
never asks for keys (`Keyless`), its answer is nevertheless exactly that the value inhabits the
type.
-/

namespace TypedNotation

open List Value BlockSpec Verdict Contents

namespace Value

mutual

/-- Whether a type stands for a value. -/
def Inhabits (r : Resolver) : Value → TypeSpec → Prop
  | scalar s, spec => spec.resolve r = .ok (.primitive s.primitive)
  | dict entries, spec =>
    match spec.resolve r with
    | .ok (.block (.dict fields)) =>
      (∀ name, name ∈ entries.map (·.1) ↔ name ∈ fields.map (·.1))
        ∧ FieldsInhabit r entries fields
    | .ok (.block (.record value)) => RecordInhabits r entries value
    | _ => False
  | array items, spec =>
    match spec.resolve r with
    | .ok (.block (.array element)) => ItemsInhabit r items element
    | _ => False
  | tuple items, spec =>
    match spec.resolve r with
    | .ok (.block (.tuple elements)) => TupleInhabits r items elements
    | _ => False
  | enum tag none, spec =>
    match spec.resolve r with
    | .ok (.enum variants) => variants.lookup tag = some none
    | _ => False
  | enum tag (some payload), spec =>
    match spec.resolve r with
    | .ok (.enum variants) =>
      match variants.lookup tag with
      | some (some block) => payload.Inhabits r (.block block)
      | _ => False
    | _ => False

/-- Every entry has a field of its name, and its value the type of that field. -/
def FieldsInhabit (r : Resolver) : List (String × Value) → List (String × TypeSpec) → Prop
  | [], _ => True
  | (name, value) :: rest, fields =>
    (match fields.lookup name with
      | some field => value.Inhabits r field
      | none => False) ∧ FieldsInhabit r rest fields

/-- The value of every entry has one type. -/
def RecordInhabits (r : Resolver) : List (String × Value) → TypeSpec → Prop
  | [], _ => True
  | (_, value) :: rest, type => value.Inhabits r type ∧ RecordInhabits r rest type

/-- Every item has one type. -/
def ItemsInhabit (r : Resolver) : List Value → TypeSpec → Prop
  | [], _ => True
  | value :: rest, type => value.Inhabits r type ∧ ItemsInhabit r rest type

/-- There are as many items as types, and each has the type in its place. -/
def TupleInhabits (r : Resolver) : List Value → List TypeSpec → Prop
  | [], [] => True
  | value :: rest, type :: types => value.Inhabits r type ∧ TupleInhabits r rest types
  | _, _ => False

end

end Value

namespace Data

mutual

/-- In every dict, the keys that have a value are the keys that have a place. -/
def KeysAgree : Data → Prop
  | primitive .. => True
  | block ⟨contents, _, _⟩ => ContentsKeysAgree contents
  | enum _ _ none _ _ => True
  | enum _ _ (some ⟨contents, _, _⟩) _ _ => ContentsKeysAgree contents

/-- The keys of a block agree, and of every block inside it. -/
def ContentsKeysAgree : Contents Data → Prop
  | .dict entries keyRanges =>
    (∀ name, name ∈ entries.map (·.1) ↔ name ∈ keyRanges.map (·.1)) ∧ EntriesKeysAgree entries
  | .array items => ItemsKeysAgree items
  | .tuple items => ItemsKeysAgree items

/-- The keys of all blocks in some properties agree. -/
def EntriesKeysAgree : List (String × Data) → Prop
  | [] => True
  | (_, d) :: rest => d.KeysAgree ∧ EntriesKeysAgree rest

/-- The keys of all blocks in some elements agree. -/
def ItemsKeysAgree : List Data → Prop
  | [] => True
  | d :: rest => d.KeysAgree ∧ ItemsKeysAgree rest

end

end Data

/-! ### Types that ask for no keys -/

/-- A block type that is no dict type and has parts of some types. -/
def BlockSpec.Keyless (S : TypeSpec → Prop) : BlockSpec → Prop
  | .dict _ => False
  | .record type | .array type => S type
  | .tuple types => ∀ type ∈ types, S type

/-- Some types that do not lead to a dict type. -/
structure Keyless (r : Resolver) (S : TypeSpec → Prop) : Prop where
  block : ∀ {spec wanted}, S spec → spec.resolve r = .ok (.block wanted) → wanted.Keyless S
  payload : ∀ {spec variants tag wanted}, S spec → spec.resolve r = .ok (.enum variants) →
    variants.lookup tag = some (some wanted) → wanted.Keyless S

/-! ### Verdicts -/

namespace Verdict

@[simp] theorem and_ok (a b : Verdict) : (a.and b).ok = (a.ok && b.ok) := rfl

@[simp] theorem pass_ok : pass.ok = true := rfl

@[simp] theorem fail_ok (kind : Diagnostic.Kind) (range : Range) (message : String) :
    (fail kind range message).ok = false := rfl

@[simp] theorem mismatch_ok (range : Range) (expected found : String) :
    (mismatch range expected found).ok = false := rfl

@[simp] theorem unknownTag_ok (variants : List (String × Option BlockSpec)) (tag : String)
    (range : Range) : (unknownTag variants tag range).ok = false := rfl

@[simp] theorem needlessPayload_ok (tag : String) (range : Range) :
    (needlessPayload tag range).ok = false := rfl

@[simp] theorem missingPayload_ok (tag : String) (spec : BlockSpec) (range : Range) :
    (missingPayload tag spec range).ok = false := rfl

/-- The keys are in order exactly if the same names are wanted and written. -/
theorem keys_ok_iff {fields : List (String × TypeSpec)} {keyRanges : List (String × Range)}
    {range : Range} :
    (keys fields keyRanges range).ok = true ↔
      ∀ name, name ∈ keyRanges.map (·.1) ↔ name ∈ fields.map (·.1) := by
  have hok : (keys fields keyRanges range).ok = true ↔
      (∀ f ∈ fields, keyRanges.any (·.1 == f.1) = true)
        ∧ ∀ k ∈ keyRanges, fields.any (·.1 == k.1) = true := by
    simp [keys, all, all_eq_true]
  rw [hok]
  simp only [any_eq_true, beq_iff_eq, mem_map]
  constructor
  · rintro ⟨hmissing, hunexpected⟩ name
    constructor
    · rintro ⟨k, hk, rfl⟩
      exact hunexpected k hk
    · rintro ⟨f, hf, rfl⟩
      exact hmissing f hf
  · intro h
    exact ⟨fun f hf => (h f.1).2 ⟨f, hf, rfl⟩, fun k hk => (h k.1).1 ⟨k, hk, rfl⟩⟩

/-- The arity is in order exactly if there are as many elements as wanted. -/
theorem arity_ok_iff {block : Range} {items : List Data} {expected : Nat} :
    (arity block items expected).ok = true ↔ items.length = expected := by
  simp only [arity]
  split
  next extra more h =>
    have hlong : expected < items.length := by
      by_contra hle
      rw [drop_eq_nil_of_le (Nat.le_of_not_lt hle)] at h
      simp at h
    simp only [fail_ok, Bool.false_eq_true, false_iff]
    omega
  next h =>
    have hshort : items.length ≤ expected := drop_eq_nil_iff.1 h
    split
    · simp only [fail_ok, Bool.false_eq_true, false_iff]
      omega
    · simp only [pass_ok, true_iff]
      omega

end Verdict

/-! ### The check -/

namespace TypeSpec

@[simp] theorem resolve_block (r : Resolver) (spec : BlockSpec) :
    (TypeSpec.block spec).resolve r = .ok (.block spec) := rfl

end TypeSpec

namespace Data

/-- A block inhabits a type exactly if the type resolves to a block type that it inhabits. -/
theorem contentsValue_inhabits_iff (r : Resolver) (contents : Contents Data) (spec : TypeSpec) :
    (contentsValue contents).Inhabits r spec ↔
      ∃ wanted, spec.resolve r = .ok (.block wanted)
        ∧ (contentsValue contents).Inhabits r (.block wanted) := by
  cases contents <;> simp only [contentsValue, Inhabits, TypeSpec.resolve_block] <;>
    cases spec.resolve r with
    | error issue => simp
    | ok resolved => cases resolved <;> simp

/-- A block is checked against the block type that a type resolves to. -/
theorem check_block_ok_iff (r : Resolver) (b : Block Data) (spec : TypeSpec) :
    ((Data.block b).check r spec).ok = true ↔
      ∃ wanted, spec.resolve r = .ok (.block wanted) ∧ (checkBlock r b wanted).ok = true := by
  rw [check]
  cases spec.resolve r with
  | error issue => simp
  | ok resolved => cases resolved <;> simp

@[simp] theorem map_fst_entryValues (entries : List (String × Data)) :
    (entryValues entries).map (·.1) = entries.map (·.1) := by
  induction entries with
  | nil => rfl
  | cons e rest ih => simp [entryValues, ih]

theorem lt_length_of_drop {elements types : List TypeSpec} {type : TypeSpec} {index : Nat}
    (h : elements.drop index = type :: types) : index < elements.length := by
  by_contra hle
  rw [drop_eq_nil_of_le (Nat.le_of_not_lt hle)] at h
  simp at h

section

variable {r : Resolver} {S : TypeSpec → Prop}

mutual

/-- Data passes the check exactly if its value inhabits the type. -/
theorem check_ok_iff (hS : Keyless r S) : ∀ (d : Data) (spec : TypeSpec), d.KeysAgree ∨ S spec →
    ((d.check r spec).ok = true ↔ d.value.Inhabits r spec)
  | .primitive s range tokens, spec, _ => by
    rw [check, value, Inhabits]
    cases spec.resolve r with
    | error issue => simp
    | ok resolved =>
      cases resolved with
      | primitive kind =>
        by_cases h : s.primitive = kind
        · simp [h]
        · simp [h, Ne.symm h]
      | _ => simp
  | .block ⟨contents, range, tokens⟩, spec, h => by
    rw [check_block_ok_iff, value, contentsValue_inhabits_iff]
    exact exists_congr fun wanted => and_congr_right fun hresolve =>
      checkBlock_ok_iff hS contents range tokens wanted (h.imp_right (hS.block · hresolve))
  | .enum tag tagRange none range tokens, spec, _ => by
    rw [check, value, Inhabits]
    cases spec.resolve r with
    | error issue => simp
    | ok resolved =>
      cases resolved with
      | enum variants => rcases hv : variants.lookup tag with _ | _ | wanted <;> simp [hv]
      | _ => simp
  | .enum tag tagRange (some ⟨contents, blockRange, blockTokens⟩) range tokens, spec, h => by
    rw [check, value, Inhabits]
    cases hresolve : spec.resolve r with
    | error issue => simp
    | ok resolved =>
      cases resolved with
      | enum variants =>
        rcases hv : variants.lookup tag with _ | _ | wanted
        · simp [hv]
        · simp [hv]
        · simpa [hv] using checkBlock_ok_iff hS contents blockRange blockTokens wanted
            (h.imp_right (hS.payload · hresolve hv))
      | _ => simp

/-- The same for a block. -/
theorem checkBlock_ok_iff (hS : Keyless r S) : ∀ (contents : Contents Data) (range : Range)
    (tokens : TokenRange) (wanted : BlockSpec), ContentsKeysAgree contents ∨ wanted.Keyless S →
    ((checkBlock r ⟨contents, range, tokens⟩ wanted).ok = true ↔
      (contentsValue contents).Inhabits r (.block wanted))
  | .dict entries keyRanges, range, tokens, wanted, h => by
    rw [checkBlock, checkContents, contentsValue, Inhabits, TypeSpec.resolve_block]
    cases wanted with
    | dict fields =>
      obtain h | ⟨⟨⟩⟩ := h
      simp only [kind, dataKind, shape, if_true, and_ok,
        Bool.and_eq_true, keys_ok_iff, map_fst_entryValues, ← h.1]
      exact and_congr_right fun hkeys =>
        checkEntries_dict_ok_iff hS entries fields h.2 fun name hn => (hkeys name).1 hn
    | record type =>
      simpa [kind, dataKind, shape] using
        checkEntries_record_ok_iff hS entries type (h.imp_left And.right)
    | _ => simp [kind, dataKind]
  | .array items, range, tokens, wanted, h => by
    rw [checkBlock, checkContents, contentsValue, Inhabits, TypeSpec.resolve_block]
    cases wanted with
    | array element =>
      simpa [kind, dataKind, shape] using
        checkItems_array_ok_iff hS items 0 element h
    | _ => simp [kind, dataKind]
  | .tuple items, range, tokens, wanted, h => by
    rw [checkBlock, checkContents, contentsValue, Inhabits, TypeSpec.resolve_block]
    cases wanted with
    | tuple elements =>
      simpa [kind, dataKind, shape, arity_ok_iff] using
        checkItems_tuple_ok_iff hS items 0 elements h
    | _ => simp [kind, dataKind]

/-- The same for the properties of a dict. -/
theorem checkEntries_dict_ok_iff (hS : Keyless r S) : ∀ (entries : List (String × Data))
    (fields : List (String × TypeSpec)), EntriesKeysAgree entries →
    (∀ name ∈ entries.map (·.1), name ∈ fields.map (·.1)) →
    ((checkEntries r (.dict fields) entries).ok = true ↔
      FieldsInhabit r (entryValues entries) fields)
  | [], fields, _, _ => by simp [checkEntries, entryValues, FieldsInhabit]
  | (name, d) :: rest, fields, h, hnames => by
    -- an entry without a field would pass the check, but its key has been found among the fields
    obtain ⟨field, hfield⟩ : ∃ field, fields.lookup name = some field := by
      rw [← Option.isSome_iff_exists, lookup_isSome_iff]
      obtain ⟨f, hf, rfl⟩ := mem_map.1 (hnames name (by simp))
      exact ⟨f, hf, beq_self_eq_true _⟩
    have hrest := checkEntries_dict_ok_iff hS rest fields h.2 fun n hn =>
      hnames n (by simp only [map_cons, mem_cons, hn, or_true])
    simp [checkEntries, entryValues, FieldsInhabit, property?, hfield,
      check_ok_iff hS d field (.inl h.1), hrest]

/-- The same for the properties of a record. -/
theorem checkEntries_record_ok_iff (hS : Keyless r S) :
    ∀ (entries : List (String × Data)) (type : TypeSpec), EntriesKeysAgree entries ∨ S type →
    ((checkEntries r (.record type) entries).ok = true ↔
      RecordInhabits r (entryValues entries) type)
  | [], type, _ => by simp [checkEntries, entryValues, RecordInhabits]
  | (name, d) :: rest, type, h => by
    simp [checkEntries, entryValues, RecordInhabits, property?,
      check_ok_iff hS d type (h.imp_left And.left),
      checkEntries_record_ok_iff hS rest type (h.imp_left And.right)]

/-- The same for the elements of an array. -/
theorem checkItems_array_ok_iff (hS : Keyless r S) :
    ∀ (items : List Data) (index : Nat) (element : TypeSpec), ItemsKeysAgree items ∨ S element →
    ((checkItems r (.array element) index items).ok = true ↔
      ItemsInhabit r (itemValues items) element)
  | [], index, element, _ => by simp [checkItems, itemValues, ItemsInhabit]
  | d :: rest, index, element, h => by
    simp [checkItems, itemValues, ItemsInhabit, element?,
      check_ok_iff hS d element (h.imp_left And.left),
      checkItems_array_ok_iff hS rest (index + 1) element (h.imp_left And.right)]

/-- The elements of a tuple from an index on, when as many are left as types. -/
theorem checkItems_tuple_ok_iff (hS : Keyless r S) : ∀ (items : List Data) (index : Nat)
    (elements : List TypeSpec), ItemsKeysAgree items ∨ (∀ type ∈ elements, S type) →
    (items.length + index = elements.length
        ∧ (checkItems r (.tuple elements) index items).ok = true ↔
      index ≤ elements.length
        ∧ TupleInhabits r (itemValues items) (elements.drop index))
  | [], index, elements, _ => by
    cases hd : elements.drop index with
    | nil =>
      have := drop_eq_nil_iff.1 hd
      simp only [length_nil, checkItems, pass_ok, itemValues, TupleInhabits,
        and_true]
      omega
    | cons type types =>
      have hlt := lt_length_of_drop hd
      simp only [length_nil, itemValues, TupleInhabits, and_false, iff_false, not_and]
      omega
  | d :: rest, index, elements, h => by
    cases hd : elements.drop index with
    | nil =>
      have := drop_eq_nil_iff.1 hd
      simp only [length_cons, itemValues, TupleInhabits, and_false, iff_false, not_and]
      omega
    | cons type types =>
      have hlt := lt_length_of_drop hd
      have htype : elements[index]? = some type := by rw [← head?_drop, hd, head?_cons]
      have htypes : elements.drop (index + 1) = types := by rw [← tail_drop, hd, tail_cons]
      have hrest := checkItems_tuple_ok_iff hS rest (index + 1) elements (h.imp_left And.right)
      rw [htypes, and_iff_right (Nat.succ_le_of_lt hlt)] at hrest
      rw [itemValues, TupleInhabits, and_iff_right (Nat.le_of_lt hlt),
        ← check_ok_iff hS d type (h.imp And.left fun hall => hall type (mem_of_getElem? htype)),
        ← hrest]
      simp only [checkItems, element?, htype, and_ok, Bool.and_eq_true,
        length_cons]
      rw [and_left_comm, Nat.add_assoc, Nat.add_comm 1 index]

end

end

/-- **Checking decides inhabitation.** Whatever the resolver, a data tree whose keys agree passes
the check against a type exactly if its value inhabits the type. -/
theorem check_decides_inhabitation (r : Resolver) (spec : TypeSpec) (d : Data) (h : d.KeysAgree) :
    (d.check r spec).ok = true ↔ d.value.Inhabits r spec :=
  have hnone : Keyless r fun _ => False := ⟨False.elim, False.elim⟩
  check_ok_iff hnone d spec (.inl h)

/-- A dict inside a dict inhabits the type of all trees of dicts, which refers to itself. -/
theorem check_decides_inhabitation_of_trees :
    let trees : Resolver := .ofList [("Tree", .block (.record (.ref "Tree")))]
    let leaf : Data := .block ⟨.dict [] [], default, default⟩
    let d : Data := .block ⟨.dict [("a", leaf)] [("a", default)], default, default⟩
    d.KeysAgree ∧ (d.check trees (.ref "Tree")).ok = true
      ∧ d.value.Inhabits trees (.ref "Tree") := by
  intro trees leaf d
  have hkeys : d.KeysAgree := by
    simp [d, leaf, KeysAgree, ContentsKeysAgree, EntriesKeysAgree]
  have hok : (d.check trees (.ref "Tree")).ok = true := by decide
  exact ⟨hkeys, hok, (check_decides_inhabitation trees (.ref "Tree") d hkeys).1 hok⟩

end Data

end TypedNotation
