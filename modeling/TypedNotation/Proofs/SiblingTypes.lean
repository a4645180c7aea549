import Mathlib.Data.List.Nodup
import TypedNotation.Proofs.CursorTypes
import TypedNotation.Proofs.DataPlaces

/-!
# Types beside the way to a position

The search for the block around a position goes down data and type together. In a block it asks the
parts one after the other, and the first one that has an answer ends it
(`Enclosing.ofBlock_eq_ofParts`). A part that does not have the position inside its block is passed,
as long as its type is known (`Enclosing.ofData_of_not_surrounds`). But a type that cannot be
resolved is an answer in itself, because it is looked up before the position is compared.

`Document.sibling_types_matter_only_if_unknown` says what follows for two searches that differ in
the type of one part beside the position: they agree if both types are known, or if an earlier part
has the position inside its block, so that the search ends there. Otherwise a type that is not known
hides the block, as in `unknown_type_hides_sibling`.
-/

namespace TypedNotation

open List Contents

/-- Whether a type leads to one that says what is wanted. -/
def TypeSpec.isKnown (r : Resolver) (type : TypeSpec) : Bool :=
  match type.resolve r with
  | .ok .missing | .error _ => false
  | .ok _ => true

/-- Whether a position is inside the block of a data tree. -/
def Data.surrounds (d : Data) (p : Position) : Bool :=
  d.innerBlock?.any fun b => (Enclosing.interior b.range).contains p

/-- The type of the block of a data tree that has some type. -/
def TypeSpec.blockFor? (r : Resolver) (type : TypeSpec) (d : Data) : Option BlockSpec :=
  match d, type.resolve r with
  | .block _, .ok (.block spec) => some spec
  | .enum tag _ (some _) _ _, .ok (.enum variants) => (variants.lookup tag).join
  | _, _ => none

namespace BlockSpec

/-- Whether every part of a block has a type of its own. -/
def hasOwnParts : BlockSpec → Bool
  | dict _ | tuple _ => true
  | record _ | array _ => false

/-- The block type with another type for one part that has its own. -/
def replacePart (spec : BlockSpec) (step : Step) (new : TypeSpec) : BlockSpec :=
  match spec, step with
  | dict fields, .key name =>
    dict (fields.map fun (key, type) => (key, if key = name then new else type))
  | tuple elements, .tupleElement i => tuple (elements.set i new)
  | spec, _ => spec

theorem dataKind_replacePart (spec : BlockSpec) (step : Step) (new : TypeSpec) :
    (spec.replacePart step new).dataKind = spec.dataKind := by
  cases spec <;> cases step <;> rfl

theorem lookup_replace (fields : List (String × TypeSpec)) (name key : String) (new : TypeSpec) :
    (fields.map fun (key, type) => (key, if key = name then new else type)).lookup key =
      (fields.lookup key).map fun type => if key = name then new else type := by
  induction fields with
  | nil => rfl
  | cons field rest ih =>
    rw [map_cons, Ordered.lookup_cons, Ordered.lookup_cons, ih]
    by_cases h : key = field.1 <;> simp [h]

/-- The replaced type is that of its part and of no other. -/
theorem part?_replacePart {spec : BlockSpec} {contents : Contents Data}
    (hkind : contents.kind = spec.dataKind) (hown : spec.hasOwnParts = true) {step step' : Step}
    {c c' : Data} (hmem : (step, c) ∈ contents.steps) (hmem' : (step', c') ∈ contents.steps)
    {old : TypeSpec} (hold : spec.part? step = some old) (new : TypeSpec) :
    (spec.replacePart step new).part? step' = if step' = step then some new
      else spec.part? step' := by
  cases contents with
  | dict entries keyRanges =>
    obtain ⟨name, rfl, -⟩ := mem_steps_dict.1 hmem
    obtain ⟨name', rfl, -⟩ := mem_steps_dict.1 hmem'
    cases spec with
    | dict fields =>
      simp only [replacePart, part?, property?, lookup_replace, Step.key.injEq] at hold ⊢
      by_cases h : name' = name
      · simp [h, hold]
      · simp [h]
    | record value => cases hown
    | array element => cases hkind
    | tuple elements => cases hkind
  | array items =>
    cases spec with
    | array element => cases hown
    | _ => cases hkind
  | tuple items =>
    obtain ⟨i, rfl, -⟩ := mem_steps_tuple.1 hmem
    obtain ⟨i', rfl, -⟩ := mem_steps_tuple.1 hmem'
    cases spec with
    | tuple elements =>
      simp only [replacePart, part?, element?, Step.tupleElement.injEq] at hold ⊢
      obtain ⟨hlt, -⟩ := List.getElem?_eq_some_iff.1 hold
      rw [getElem?_set]
      by_cases h : i' = i
      · simp [h, hlt]
      · simp [h, Ne.symm h]
    | _ => cases hkind

end BlockSpec

namespace Enclosing

variable {r : Resolver} {p : Position} {d : Data} {b : Block Data} {spec spec' : BlockSpec}
  {type : TypeSpec} {parts : List (Step × Data)} {part : Step × Data}

/-! ### One part -/

/-- A type that is not known is an answer, wherever the position is. With a known type, only a block
that has the position inside has an answer. -/
theorem ofData_eq (d : Data) (type : TypeSpec) :
    ofData r p d type =
      if type.isKnown r = false then typeFailed
      else if d.surrounds p = false then outside
      else
        match d.innerBlock?, type.blockFor? r d with
        | some b, some spec => ofBlock r p b spec
        | _, _ => typeFailed := by
  unfold ofData TypeSpec.isKnown TypeSpec.blockFor? Data.surrounds
  cases type.resolve r with
  | error issue => rfl
  | ok resolved =>
    cases d with
    | primitive s range tokens => cases resolved <;> rfl
    | block b =>
      cases hp : (interior b.range).contains p <;> cases resolved <;> simp [Data.innerBlock?, hp]
    | enum tag tagRange payload range tokens =>
      cases payload with
      | none => cases resolved <;> rfl
      | some b =>
        cases hp : (interior b.range).contains p with
        | false => cases resolved <;> simp [Data.innerBlock?, hp]
        | true =>
          cases resolved with
          | enum variants =>
            rcases hv : variants.lookup tag with _ | _ | spec <;> simp [Data.innerBlock?, hp, hv]
          | _ => simp [Data.innerBlock?, hp]

theorem ofData_of_not_surrounds (hd : d.surrounds p = false) :
    ofData r p d type = if type.isKnown r then outside else typeFailed := by
  rw [ofData_eq, if_pos hd]
  cases type.isKnown r <;> rfl

theorem orElse_ne_outside (a : Enclosing) {e : Enclosing} (he : e ≠ outside) :
    a.orElse e ≠ outside := by
  cases a <;> simp [orElse, he]

/-- The search in a block has an answer. -/
theorem ofBlock_ne_outside (b : Block Data) (spec : BlockSpec) : ofBlock r p b spec ≠ outside := by
  rw [ofBlock_eq]
  split
  · exact orElse_ne_outside _ (by simp)
  · simp

theorem ofData_ne_outside (hd : d.surrounds p = true) (type : TypeSpec) :
    ofData r p d type ≠ outside := by
  rw [ofData_eq]
  split
  · simp
  · rw [if_neg (by simp [hd])]
    split
    · exact ofBlock_ne_outside _ _
    · simp

theorem ofData_of_blockFor? (htype : type.blockFor? r d = some spec) (hb : d.innerBlock? = some b)
    (hp : (interior b.range).contains p = true) : ofData r p d type = ofBlock r p b spec := by
  have hd : d.surrounds p = true := by simpa [Data.surrounds, hb] using hp
  have hknown : type.isKnown r = true := by
    unfold TypeSpec.blockFor? at htype
    unfold TypeSpec.isKnown
    split at htype <;> simp_all
  simp [ofData_eq, hknown, hd, hb, htype]

/-! ### The parts of a block -/

/-- What a part of a block answers. -/
def ofPart (r : Resolver) (p : Position) (spec : BlockSpec) (part : Step × Data) : Enclosing :=
  match spec.part? part.1 with
  | some type => ofData r p part.2 type
  | none => if part.2.range.contains p then typeFailed else outside

/-- What some parts of a block answer: the first of them that has an answer, or else the last
one. -/
def ofParts (r : Resolver) (p : Position) (spec : BlockSpec) (last : Enclosing) :
    List (Step × Data) → Enclosing
  | [] => last
  | part :: rest => (ofPart r p spec part).orElse (ofParts r p spec last rest)

theorem orElse_assoc (a a' a'' : Enclosing) :
    (a.orElse a').orElse a'' = a.orElse (a'.orElse a'') := by
  cases a <;> rfl

theorem ofEntries_orElse (spec : BlockSpec) (last : Enclosing) (entries : List (String × Data)) :
    (ofEntries r p spec entries).orElse last =
      ofParts r p spec last (entries.map fun (key, d) => (.key key, d)) := by
  induction entries with
  | nil => rfl
  | cons e rest ih =>
    rw [ofEntries, orElse_assoc, ih]
    rfl

theorem ofItems_orElse (spec : BlockSpec) (last : Enclosing) (toStep : Nat → Step)
    (hstep : ∀ i, spec.part? (toStep i) = spec.element? i) (index : Nat) (items : List Data) :
    (ofItems r p spec index items).orElse last =
      ofParts r p spec last (items.mapIdx fun i d => (toStep (index + i), d)) := by
  induction items generalizing index with
  | nil => rfl
  | cons d rest ih =>
    have hrest : (rest.mapIdx fun i d => (toStep (index + (i + 1)), d)) =
        rest.mapIdx fun i d => (toStep (index + 1 + i), d) := by
      simp [Nat.add_assoc, Nat.add_comm 1]
    rw [ofItems, orElse_assoc, ih, mapIdx_cons, ofParts, hrest, ofPart, hstep]
    rfl

/-- In a block of the kind that is wanted, the parts are asked one after the other. -/
theorem ofBlock_eq_ofParts (hkind : b.contents.kind = spec.dataKind) :
    ofBlock r p b spec = ofParts r p spec (found b spec) b.contents.steps := by
  rw [ofBlock_eq, if_pos hkind]
  obtain ⟨contents, range, tokens⟩ := b
  cases contents with
  | dict entries keyRanges => exact ofEntries_orElse spec _ entries
  | array items =>
    simpa [steps] using ofItems_orElse spec _ .arrayElement (fun _ => rfl) 0 items
  | tuple items =>
    simpa [steps] using ofItems_orElse spec _ .tupleElement (fun _ => rfl) 0 items

/-- Parts are asked one after the other. -/
theorem ofParts_append (spec : BlockSpec) (last : Enclosing) (before after : List (Step × Data)) :
    ofParts r p spec last (before ++ after) =
      ofParts r p spec (ofParts r p spec last after) before := by
  induction before with
  | nil => rfl
  | cons part rest ih => rw [cons_append, ofParts, ofParts, ih]

/-- A part without the position in its block is passed if its type is known, and otherwise ends the
search. -/
theorem ofPart_of_part? (h : part.2.surrounds p = false) (htype : spec.part? part.1 = some type) :
    ofPart r p spec part = if type.isKnown r then outside else typeFailed := by
  simp only [ofPart, htype, ofData_of_not_surrounds h]

/-- Parts without the position in their blocks find no block. -/
theorem ofPart_of_not_surrounds (h : part.2.surrounds p = false) :
    ofPart r p spec part = outside ∨ ofPart r p spec part = typeFailed := by
  cases htype : spec.part? part.1 with
  | some type =>
    rw [ofPart_of_part? h htype]
    cases type.isKnown r <;> simp
  | none =>
    simp only [ofPart, htype]
    cases part.2.range.contains p <;> simp

theorem ofParts_typeFailed (h : ∀ part ∈ parts, part.2.surrounds p = false) :
    ofParts r p spec typeFailed parts = typeFailed := by
  induction parts with
  | nil => rfl
  | cons part rest ih =>
    rw [ofParts, ih fun part hpart => h part (mem_cons_of_mem _ hpart)]
    rcases ofPart_of_not_surrounds (h part (by simp)) with hpart | hpart <;> rw [hpart] <;> rfl

/-- A part that has the position inside its block has an answer. -/
theorem ofPart_ne_outside (h : part.2.surrounds p = true)
    (hrange : part.2.range.contains p = true) : ofPart r p spec part ≠ outside := by
  unfold ofPart
  split
  · exact ofData_ne_outside h _
  · simp [hrange]

/-! ### What is found -/

/-- What is found is found in one of the parts. -/
theorem ofParts_eq_found {last : Enclosing} (h : ofParts r p spec last parts = found b spec') :
    last = found b spec' ∨ ∃ part ∈ parts, ofPart r p spec part = found b spec' := by
  induction parts with
  | nil => exact .inl h
  | cons part rest ih =>
    rw [ofParts] at h
    cases hpart : ofPart r p spec part with
    | outside =>
      rw [hpart] at h
      exact (ih h).imp_right fun ⟨q, hq, heq⟩ => ⟨q, mem_cons_of_mem _ hq, heq⟩
    | typeFailed => simp [hpart, orElse] at h
    | found b' s => exact .inr ⟨part, by simp, by simpa [hpart, orElse] using h⟩

theorem exists_ofData_of_ofPart_eq_found
    (h : ofPart r p spec part = found b spec') :
    ∃ type, ofData r p part.2 type = found b spec' := by
  unfold ofPart at h
  split at h
  next type _ => exact ⟨type, h⟩
  next => split at h <;> cases h

/-- What is found in a block is the block or something in one of its parts. -/
theorem ofBlock_eq_found {b' : Block Data} (h : ofBlock r p b spec = found b' spec') :
    b' = b ∨ ∃ c ∈ b.contents.children, ∃ type, ofData r p c type = found b' spec' := by
  by_cases hkind : b.contents.kind = spec.dataKind
  · rw [ofBlock_eq_ofParts hkind] at h
    rcases ofParts_eq_found h with heq | ⟨part, hpart, heq⟩
    · exact .inl (found.inj heq).1.symm
    · exact .inr ⟨part.2, mem_children_iff.2 ⟨part.1, hpart⟩,
        exists_ofData_of_ofPart_eq_found heq⟩
  · rw [ofBlock_eq, if_neg hkind] at h
    cases h

/-- What is found is the block of a node. -/
theorem exists_node_of_found (d : Data) {type : TypeSpec} (h : ofData r p d type = found b spec) :
    ∃ n ∈ d.nodes, n.innerBlock? = some b := by
  induction d using Data.induction_on_parts generalizing type with
  | h d ih =>
    rw [ofData_eq] at h
    split at h
    · cases h
    split at h
    · cases h
    split at h
    next outer wanted hb _ =>
      rcases ofBlock_eq_found h with rfl | ⟨c, hc, type', hfound⟩
      · exact ⟨d, d.self_mem_nodes, hb⟩
      · obtain ⟨n, hn, heq⟩ := ih outer hb c hc hfound
        exact ⟨n, Data.mem_nodes_of_mem_children hb hc hn, heq⟩
    next => cases h

/-- The answer with another type for one part, if it is an answer about a block. -/
def replacePart (e : Enclosing) (b : Block Data) (step : Step) (new : TypeSpec) : Enclosing :=
  match e with
  | found b' spec => found b' (if b'.tokens = b.tokens then spec.replacePart step new else spec)
  | e => e

theorem replacePart_ofParts {step : Step} {new : TypeSpec} {last last' : Enclosing}
    (hparts : ∀ part ∈ parts, ofPart r p spec' part = ofPart r p spec part)
    (htokens : ∀ part ∈ parts, ∀ b' s, ofPart r p spec part = found b' s → b'.tokens ≠ b.tokens)
    (hlast : (∃ part ∈ parts, ofPart r p spec part ≠ outside) ∨
      last.replacePart b step new = last') :
    (ofParts r p spec last parts).replacePart b step new = ofParts r p spec' last' parts := by
  induction parts with
  | nil => simpa [ofParts] using hlast
  | cons part rest ih =>
    rw [ofParts, ofParts, hparts part (by simp)]
    cases hpart : ofPart r p spec part with
    | outside =>
      refine ih (fun q hq => hparts q (mem_cons_of_mem _ hq))
        (fun q hq => htokens q (mem_cons_of_mem _ hq)) (hlast.imp_left ?_)
      rintro ⟨q, hq, hne⟩
      rcases mem_cons.1 hq with rfl | hq
      · exact absurd hpart hne
      · exact ⟨q, hq, hne⟩
    | typeFailed => rfl
    | found b' s =>
      have hne := htokens part (by simp) b' s hpart
      simp [orElse, replacePart, hne]

end Enclosing

/-! ### Parsed documents -/

section Sits

variable {ts : List Token} {p : Position} {b : Block Data} {part : Step × Data} {n : Data}

theorem Data.Sits.start_le (h : n.Sits ts) (hb : n.innerBlock? = some b) :
    n.tokens.start ≤ b.tokens.start := by
  cases h with
  | block hsits =>
    obtain rfl := Option.some.inj hb
    exact Nat.le_refl _
  | payload _ _ hlt _ _ =>
    obtain rfl := Option.some.inj hb
    exact Nat.le_of_lt hlt
  | _ => cases hb

/-- The nodes of a tree do not start before it. -/
theorem Data.start_le_of_mem_nodes {d : Data} (h : ∀ n ∈ d.nodes, n.Sits ts) :
    ∀ n ∈ d.nodes, d.tokens.start ≤ n.tokens.start := by
  induction d using Data.induction_on_parts with
  | h d ih =>
    intro n hn
    rcases mem_nodes_iff.1 hn with rfl | ⟨b, hb, c, hc, hn⟩
    · exact Nat.le_refl _
    · have hsits := h d d.self_mem_nodes
      have hle := hsits.start_le hb
      have hrow := ((hsits.innerBlock hb).row.within _ (mem_map_of_mem hc)).1
      have hrest := ih b hb c hc (fun m hm => h m (mem_nodes_of_mem_children hb hc hm)) n hn
      omega

/-- A position inside the block of a node is in the range of the node. -/
theorem Data.Sits.contains_of_surrounds (hts : Token.InOrder ts) (h : n.Sits ts)
    (hp : n.surrounds p = true) : n.range.contains p = true := by
  obtain ⟨b, hb, hinterior⟩ := (Option.any_eq_true _ _).1 hp
  obtain ⟨hstart, hstop⟩ := Range.contains_iff.1 hinterior
  have hstart' : b.range.start ≤ p := by
    simp only [Enclosing.interior, Range.contract, Position.le_def] at hstart ⊢
    omega
  cases h with
  | block hsits =>
    obtain rfl := Option.some.inj hb
    exact Range.contains_iff.2 ⟨hstart', hstop⟩
  | @payload i t b' range ht hkind hlt hsits hspans =>
    obtain rfl := Option.some.inj hb
    have hsits' := Data.Sits.payload ht hkind hlt hsits hspans
    obtain ⟨-, hbehind⟩ := (hsits'.enumSits hts).behind b' rfl
    obtain ⟨-, hends⟩ := (hsits'.enumSits hts).ends b' rfl
    obtain ⟨t', ht', hrange⟩ := hspans.start
    obtain rfl := Option.some.inj (ht.symm.trans ht')
    have htag : range.start ≤ t.range.stop := hrange ▸ hts.start_le_stop ht
    have hle : range.start ≤ p := Position.le_trans htag (Position.le_trans hbehind hstart')
    exact Range.contains_iff.2 ⟨hle, hends ▸ hstop⟩
  | _ => cases hb

theorem Data.contains_of_part_surrounds (hts : Token.InOrder ts) (h : ∀ m ∈ n.nodes, m.Sits ts)
    (hb : n.innerBlock? = some b) (hpart : part ∈ b.contents.steps)
    (hp : part.2.surrounds p = true) : part.2.range.contains p = true := by
  have hchild : part.2 ∈ b.contents.children := mem_children_iff.2 ⟨part.1, hpart⟩
  have hnode := mem_nodes_of_mem_children hb hchild part.2.self_mem_nodes
  exact (h part.2 hnode).contains_of_surrounds hts hp

/-- Different parts of a block are reached by different steps. -/
theorem Block.Sits.nodup_steps (h : b.Sits ts) : (b.contents.steps.map (·.1)).Nodup := by
  have hitems : ∀ (items : List Data) (toStep : Nat → Step), Function.Injective toStep →
      ((items.mapIdx fun i d => (toStep i, d)).map (·.1)).Nodup := by
    intro items toStep hinj
    rw [nodup_iff_pairwise_ne, pairwise_iff_getElem]
    intro i j hi hj hlt heq
    simp only [getElem_map, getElem_mapIdx] at heq
    exact Nat.ne_of_lt hlt (hinj heq)
  obtain ⟨contents, range, tokens⟩ := b
  cases contents with
  | dict entries keyRanges =>
    have hmap : ((dict entries keyRanges).steps.map (·.1)) =
        (entries.map (·.1)).map Step.key := by
      simp [steps]
    rw [hmap, nodup_iff_pairwise_ne, pairwise_map]
    exact (h.keys entries keyRanges rfl).entries_nodup.imp fun hne heq => hne (Step.key.inj heq)
  | array items => exact hitems items .arrayElement fun _ _ => Step.arrayElement.inj
  | tuple items => exact hitems items .tupleElement fun _ _ => Step.tupleElement.inj

/-- Two parts of a block of which one has been replaced answer alike but for that one. -/
theorem Enclosing.ofPart_replacePart {r : Resolver} (h : b.Sits ts) {spec : BlockSpec}
    (hkind : b.contents.kind = spec.dataKind) (hown : spec.hasOwnParts = true)
    {before after : List (Step × Data)} {step : Step} {c : Data}
    (hsteps : b.contents.steps = before ++ (step, c) :: after) {old : TypeSpec}
    (hold : spec.part? step = some old) (new : TypeSpec) (hin : part ∈ before ++ after) :
    ofPart r p (spec.replacePart step new) part = ofPart r p spec part := by
  have hmem : (step, c) ∈ b.contents.steps := by simp [hsteps]
  have hpart : part ∈ b.contents.steps := by
    rw [hsteps]
    rcases mem_append.1 hin with hin | hin <;> simp [hin]
  have hne : part.1 ≠ step := by
    have hnodup := h.nodup_steps
    rw [hsteps, map_append, map_cons, nodup_middle, nodup_cons,
      ← map_append] at hnodup
    rintro rfl
    exact hnodup.1 (mem_map.2 ⟨part, hin, rfl⟩)
  unfold ofPart
  rw [BlockSpec.part?_replacePart hkind hown hmem hpart hold, if_neg hne]

/-- A block that is found in a part of another one does not start with it. -/
theorem Enclosing.tokens_ne_of_found {r : Resolver} (h : ∀ m ∈ n.nodes, m.Sits ts)
    (hb : n.innerBlock? = some b) {spec : BlockSpec} (hpart : part ∈ b.contents.steps)
    {b' : Block Data} {spec' : BlockSpec}
    (hfound : ofPart r p spec part = found b' spec') : b'.tokens ≠ b.tokens := by
  have hchild : part.2 ∈ b.contents.children := mem_children_iff.2 ⟨part.1, hpart⟩
  have hsits : ∀ m ∈ part.2.nodes, m.Sits ts :=
    fun m hm => h m (Data.mem_nodes_of_mem_children hb hchild hm)
  obtain ⟨type, hdata⟩ := exists_ofData_of_ofPart_eq_found hfound
  obtain ⟨m, hm, hb'⟩ := exists_node_of_found part.2 hdata
  have hlo := (((h n n.self_mem_nodes).innerBlock hb).row.within _ (mem_map_of_mem hchild)).1
  have hmid := Data.start_le_of_mem_nodes hsits m hm
  have hhi := (hsits m hm).start_le hb'
  intro heq
  rw [heq] at hhi
  omega

end Sits

namespace Document

open Enclosing

/-- **A type beside the way to a position matters only if it is not known.** Let a position be
inside a block of a parsed document, let the block be of the wanted kind, and let one part of the
block that does not contain the position get another type. The search for the block around the
position comes to that part unless a part before it has the position inside its block. If it does
not come there, or if the old and the new type are both known, it finds the same block with the same
type; only where it finds the block itself, the new type stands in the type that is found. If it
does come there and the new type is not known, the search fails. -/
theorem sibling_types_matter_only_if_unknown {text : String} {d n : Data} {b : Block Data}
    (hparse : (parse text).data = some d) (hn : n ∈ d.nodes) (hb : n.innerBlock? = some b)
    {p : Position} (hp : (interior b.range).contains p = true) {spec : BlockSpec}
    (hkind : b.contents.kind = spec.dataKind) (hown : spec.hasOwnParts = true)
    {before after : List (Step × Data)} {step : Step} {c : Data}
    (hsteps : b.contents.steps = before ++ (step, c) :: after)
    (hout : c.range.contains p = false) {old : TypeSpec} (hold : spec.part? step = some old)
    (new : TypeSpec) {r : Resolver} {type type' : TypeSpec} (htype : type.blockFor? r n = some spec)
    (htype' : type'.blockFor? r n = some (spec.replacePart step new)) :
    let reached := ∀ part ∈ before, part.2.surrounds p = false
    ((reached → old.isKnown r = true ∧ new.isKnown r = true) →
      ofData r p n type' = (ofData r p n type).replacePart b step new) ∧
    (reached → new.isKnown r = false → ofData r p n type' = typeFailed) := by
  intro reached
  have hts := inOrder_tokensOf text
  have hsits : ∀ m ∈ n.nodes, m.Sits (tokensOf text) :=
    fun m hm => sits_of_mem_nodes hparse m (Data.mem_nodes_trans hn hm)
  have hcontains : ∀ part ∈ b.contents.steps, part.2.surrounds p = true →
      part.2.range.contains p = true := fun part => Data.contains_of_part_surrounds hts hsits hb
  have hother : ∀ part ∈ before ++ after,
      ofPart r p (spec.replacePart step new) part = ofPart r p spec part := fun part =>
    ofPart_replacePart ((hsits n n.self_mem_nodes).innerBlock hb) hkind hown hsteps hold new
  have hinner : ∀ part ∈ b.contents.steps, ∀ b' s, ofPart r p spec part = found b' s →
      b'.tokens ≠ b.tokens := fun part hpart b' s => tokens_ne_of_found hsits hb hpart
  -- the part itself is passed with a known type, and with another one it ends the search
  have hmem : (step, c) ∈ b.contents.steps := by simp [hsteps]
  have hc : c.surrounds p = false := by
    by_contra hsurrounds
    have := hcontains _ hmem (by simpa using hsurrounds)
    simp [hout] at this
  have hcold : ofPart r p spec (step, c) = if old.isKnown r then outside else typeFailed :=
    ofPart_of_part? hc hold
  have hcnew : ofPart r p (spec.replacePart step new) (step, c) =
      if new.isKnown r then outside else typeFailed :=
    ofPart_of_part? hc (by rw [BlockSpec.part?_replacePart hkind hown hmem hmem hold, if_pos rfl])
  rw [ofData_of_blockFor? htype hb hp, ofData_of_blockFor? htype' hb hp, ofBlock_eq_ofParts hkind,
    ofBlock_eq_ofParts (hkind.trans (BlockSpec.dataKind_replacePart spec step new).symm)]
  refine ⟨fun hknown => Eq.symm ?_, fun hreached hnew => ?_⟩
  · by_cases hreached : reached
    · obtain ⟨hold', hnew⟩ := hknown hreached
      refine replacePart_ofParts (fun part hin => ?_) hinner
        (.inr (by simp [Enclosing.replacePart]))
      rw [hsteps, mem_append, mem_cons] at hin
      rcases hin with hin | rfl | hin
      · exact hother part (mem_append_left _ hin)
      · rw [hcold, hcnew, hold', hnew]
      · exact hother part (mem_append_right _ hin)
    · obtain ⟨part, hin, hsurrounds⟩ : ∃ part ∈ before, part.2.surrounds p = true := by
        simpa [reached] using hreached
      have hsub : ∀ part ∈ before, part ∈ b.contents.steps := by
        intro part hin
        simp [hsteps, hin]
      rw [hsteps, ofParts_append, ofParts_append]
      exact replacePart_ofParts (fun part hin => hother part (mem_append_left _ hin))
        (fun part hin => hinner part (hsub part hin))
        (.inl ⟨part, hin, ofPart_ne_outside hsurrounds (hcontains part (hsub part hin) hsurrounds)⟩)
  · rw [hsteps, ofParts_append, ofParts, hcnew, hnew]
    exact ofParts_typeFailed hreached

/-- Whether data is a dict of two entries whose inside contains a position, with the first entry
under `a` and away from the position. -/
def passesFirst (p : Position) : Data → Bool
  | .block ⟨.dict [(a, c), _] _, range, _⟩ =>
    a == "a" && (interior range).contains p && !c.range.contains p
  | _ => false

theorem exists_of_passesFirst {p : Position} {d : Data} (h : passesFirst p d = true) :
    ∃ c e keyRanges range tokens, d = .block ⟨.dict [("a", c), e] keyRanges, range, tokens⟩ ∧
      (interior range).contains p = true ∧ c.range.contains p = false := by
  unfold passesFirst at h
  split at h
  next a c e keyRanges range tokens =>
    simp only [Bool.and_eq_true, beq_iff_eq, Bool.not_eq_true'] at h
    obtain ⟨⟨rfl, hp⟩, hout⟩ := h
    exact ⟨c, e, keyRanges, range, tokens, rfl, hp, hout⟩
  next => cases h

/-- In `{a: 1, b: {c: 2}}`, the position before the `2` is in the block under `b`. The dict is
wanted with a number or with a string under `a`, which changes nothing; and with a type under `a`
that nothing declares, which makes the search fail. -/
theorem sibling_types_matter_only_if_unknown_of_dict :
    let r : Resolver := .ofList []
    let p : Position := ⟨0, 14⟩
    let spec : BlockSpec :=
      .dict [("a", .primitive .int), ("b", .block (.dict [("c", .primitive .int)]))]
    ∃ d b c, (parse "\x7ba: 1, b: \x7bc: 2\x7d\x7d").data = some d ∧ d.innerBlock? = some b ∧
      (.key "a", c) ∈ b.contents.steps ∧ c.range.contains p = false ∧
      ofData r p d (.block (spec.replacePart (.key "a") (.primitive .string))) =
        (ofData r p d (.block spec)).replacePart b (.key "a") (.primitive .string) ∧
      ofData r p d (.block (spec.replacePart (.key "a") (.ref "X"))) = typeFailed := by
  intro r p spec
  have hshape : (parse "\x7ba: 1, b: \x7bc: 2\x7d\x7d").data.map (passesFirst p) = some true := by
    decide +kernel
  obtain ⟨d, hd, htest⟩ := Option.map_eq_some_iff.1 hshape
  obtain ⟨c, e, keyRanges, range, tokens, rfl, hp, hout⟩ := exists_of_passesFirst htest
  have hsteps : (dict [("a", c), e] keyRanges).steps =
      [] ++ [(.key "a", c), (.key e.1, e.2)] := rfl
  have hkind : (dict [("a", c), e] keyRanges).kind = spec.dataKind := rfl
  have hown : spec.hasOwnParts = true := rfl
  have htype : ∀ s : BlockSpec, (TypeSpec.block s).blockFor? r
      (.block ⟨.dict [("a", c), e] keyRanges, range, tokens⟩) = some s := fun _ => rfl
  have hlaw := fun new => sibling_types_matter_only_if_unknown hd (Data.self_mem_nodes _) rfl hp
    hkind hown hsteps hout rfl new (htype spec) (htype (spec.replacePart (.key "a") new))
  refine ⟨_, _, c, hd, rfl, by simp [steps], hout, ?_, ?_⟩
  · exact (hlaw (.primitive .string)).1 fun _ => ⟨rfl, rfl⟩
  · exact (hlaw (.ref "X")).2 (by simp) rfl

/-- Whether a search finds a block, if no type fails on the way. -/
def finds? : Enclosing → Option Bool
  | outside => some false
  | typeFailed => none
  | found _ _ => some true

theorem exists_of_finds? {e : Enclosing} (h : finds? e = some true) : ∃ b s, e = found b s := by
  cases e <;> simp_all [finds?]

theorem eq_typeFailed_of_finds? {e : Enclosing} (h : finds? e = none) : e = typeFailed := by
  cases e <;> simp_all [finds?]

/-- Two searches for the position in the block under `b` of `{a: 1, b: {c: 2}}`. The number under
`a` does not contain it. With `#int` for the type of `a` the block is found, and with a reference to
a type that is declared twice it is not. -/
theorem unknown_type_hides_sibling :
    let r := (TypeIndex.build [("X", "#int"), ("X", "#float")]).resolver
    let p : Position := ⟨0, 14⟩
    let spec (a : TypeSpec) : TypeSpec :=
      .block (.dict [("a", a), ("b", .block (.dict [("c", .primitive .int)]))])
    ∃ d b c, (parse "\x7ba: 1, b: \x7bc: 2\x7d\x7d").data = some d ∧ d.innerBlock? = some b ∧
      (interior b.range).contains p = true ∧
      (.key "a", c) ∈ b.contents.steps ∧ c.range.contains p = false ∧
      (∃ b' s, ofData r p d (spec (.primitive .int)) = found b' s) ∧
      ofData r p d (spec (.ref "X")) = typeFailed := by
  intro r p spec
  have hshape : (parse "\x7ba: 1, b: \x7bc: 2\x7d\x7d").data.map (fun d =>
      passesFirst p d && finds? (ofData r p d (spec (.primitive .int))) == some true &&
        finds? (ofData r p d (spec (.ref "X"))) == none) = some true := by decide +kernel
  obtain ⟨d, hd, htest⟩ := Option.map_eq_some_iff.1 hshape
  rw [Bool.and_eq_true, Bool.and_eq_true] at htest
  obtain ⟨⟨hdict, hfound⟩, hfailed⟩ := htest
  have hint := exists_of_finds? (beq_iff_eq.1 hfound)
  have href := eq_typeFailed_of_finds? (beq_iff_eq.1 hfailed)
  obtain ⟨c, e, keyRanges, range, tokens, rfl, hp, hout⟩ := exists_of_passesFirst hdict
  exact ⟨_, _, c, hd, rfl, hp, by simp [steps], hout, hint, href⟩

end Document

end TypedNotation
