import Mathlib.Tactic.Common
import TypedNotation.Layout

/-!
# Parts of data trees

The parts of a data tree are those of its block, be it the tree itself or the payload of an enum
value, and in turn their parts. `Data.nodes` lists a tree with all of its parts,
`Data.induction_on_parts` is the induction that goes with it: what holds of a tree whenever it holds
of the parts of its block holds of every tree.

A dict keeps the places of its keys apart from its properties. `Data.KeysPlaced` says that in a tree
no property lacks the place of its key.
-/

namespace TypedNotation

open List

namespace Contents

variable {items : List Data} {step : Step} {d : Data}

/-- The parts of a dict. -/
theorem mem_steps_dict {entries : List (String × Data)} {keyRanges : List (String × Range)} :
    (step, d) ∈ (dict entries keyRanges).steps ↔
      ∃ name, step = .key name ∧ (name, d) ∈ entries := by
  simp only [steps, mem_map, Prod.exists, Prod.mk.injEq]
  constructor
  · rintro ⟨name, d', hmem, rfl, rfl⟩
    exact ⟨name, rfl, hmem⟩
  · rintro ⟨name, rfl, hmem⟩
    exact ⟨name, d, hmem, rfl, rfl⟩

theorem mem_mapIdx_iff {toStep : Nat → Step} :
    (step, d) ∈ items.mapIdx (fun i v => (toStep i, v)) ↔
      ∃ i, step = toStep i ∧ items[i]? = some d := by
  simp only [mem_mapIdx, Prod.mk.injEq, List.getElem?_eq_some_iff]
  constructor
  · rintro ⟨i, hi, rfl, hd⟩
    exact ⟨i, rfl, hi, hd⟩
  · rintro ⟨i, rfl, hi, hd⟩
    exact ⟨i, hi, rfl, hd⟩

/-- The parts of an array. -/
theorem mem_steps_array :
    (step, d) ∈ (array items).steps ↔ ∃ i, step = .arrayElement i ∧ items[i]? = some d :=
  mem_mapIdx_iff

/-- The parts of a tuple. -/
theorem mem_steps_tuple :
    (step, d) ∈ (tuple items).steps ↔ ∃ i, step = .tupleElement i ∧ items[i]? = some d :=
  mem_mapIdx_iff

/-- Every part has a step that reaches it. -/
theorem mem_children_iff {contents : Contents Data} :
    d ∈ contents.children ↔ ∃ step, (step, d) ∈ contents.steps := by
  have hitems : ∀ (items : List Data) (toStep : Nat → Step),
      d ∈ items ↔ ∃ step, (step, d) ∈ items.mapIdx fun i v => (toStep i, v) := by
    intro items toStep
    rw [mem_iff_getElem?]
    constructor
    · rintro ⟨i, hi⟩
      exact ⟨toStep i, mem_mapIdx_iff.2 ⟨i, rfl, hi⟩⟩
    · rintro ⟨step, hmem⟩
      obtain ⟨i, -, hi⟩ := mem_mapIdx_iff.1 hmem
      exact ⟨i, hi⟩
  cases contents with
  | dict entries keyRanges => simp [children, mem_steps_dict]
  | array items => exact hitems items .arrayElement
  | tuple items => exact hitems items .tupleElement

end Contents

namespace Data

mutual

/-- A data tree with all of its parts, parents before children. -/
def nodes : Data → List Data
  | primitive s r t => [primitive s r t]
  | block b => block b :: nodesOfBlock b
  | enum tag tagRange none r t => [enum tag tagRange none r t]
  | enum tag tagRange (some b) r t => enum tag tagRange (some b) r t :: nodesOfBlock b

/-- The parts of a block with all of theirs. -/
def nodesOfBlock : Block Data → List Data
  | ⟨contents, _, _⟩ => nodesOfContents contents

/-- The parts of the contents of a block with all of theirs. -/
def nodesOfContents : Contents Data → List Data
  | .dict entries _ => nodesOfEntries entries
  | .array items => nodesOfItems items
  | .tuple items => nodesOfItems items

/-- The properties of a dict with all of their parts. -/
def nodesOfEntries : List (String × Data) → List Data
  | [] => []
  | (_, d) :: rest => d.nodes ++ nodesOfEntries rest

/-- The elements of a list with all of their parts. -/
def nodesOfItems : List Data → List Data
  | [] => []
  | d :: rest => d.nodes ++ nodesOfItems rest

end

theorem nodesOfBlock_eq (b : Block Data) : nodesOfBlock b = b.contents.children.flatMap nodes := by
  have hentries : ∀ entries : List (String × Data),
      nodesOfEntries entries = (entries.map (·.2)).flatMap nodes := by
    intro entries
    induction entries with
    | nil => rfl
    | cons e rest ih => rw [nodesOfEntries, ih, map_cons, flatMap_cons]
  have hitems : ∀ items : List Data, nodesOfItems items = items.flatMap nodes := by
    intro items
    induction items with
    | nil => rfl
    | cons d rest ih => rw [nodesOfItems, ih, flatMap_cons]
  obtain ⟨contents, range, tokens⟩ := b
  cases contents with
  | dict entries keyRanges => exact hentries entries
  | array items => exact hitems items
  | tuple items => exact hitems items

/-- The nodes of a tree are the tree and the nodes of the parts of its block. -/
theorem mem_nodes_iff {d n : Data} :
    n ∈ d.nodes ↔ n = d ∨ ∃ b ∈ d.innerBlock?, ∃ c ∈ b.contents.children, n ∈ c.nodes := by
  match d with
  | .primitive .. | .enum _ _ none _ _ => simp [nodes, innerBlock?]
  | .block b | .enum _ _ (some b) _ _ => simp [nodes, nodesOfBlock_eq, innerBlock?]

theorem self_mem_nodes (d : Data) : d ∈ d.nodes :=
  mem_nodes_iff.2 (.inl rfl)

theorem mem_nodes_of_mem_children {d n c : Data} {b : Block Data} (hb : d.innerBlock? = some b)
    (hc : c ∈ b.contents.children) (hn : n ∈ c.nodes) : n ∈ d.nodes :=
  mem_nodes_iff.2 (.inr ⟨b, hb, c, hc, hn⟩)

/-- A part is smaller than the whole. -/
theorem sizeOf_lt_of_mem_children {d c : Data} {b : Block Data} (hb : d.innerBlock? = some b)
    (hc : c ∈ b.contents.children) : sizeOf c < sizeOf d := by
  have hblock : sizeOf c < sizeOf b := by
    obtain ⟨contents, range, tokens⟩ := b
    cases contents with
    | dict entries keyRanges =>
      obtain ⟨⟨name, c'⟩, hmem, rfl⟩ := mem_map.1 hc
      have := sizeOf_lt_of_mem hmem
      simp only [Block.mk.sizeOf_spec, Contents.dict.sizeOf_spec, Prod.mk.sizeOf_spec] at this ⊢
      omega
    | array items =>
      have := sizeOf_lt_of_mem (show c ∈ items from hc)
      simp only [Block.mk.sizeOf_spec, Contents.array.sizeOf_spec]
      omega
    | tuple items =>
      have := sizeOf_lt_of_mem (show c ∈ items from hc)
      simp only [Block.mk.sizeOf_spec, Contents.tuple.sizeOf_spec]
      omega
  match d, hb with
  | .block _, rfl =>
    simp only [block.sizeOf_spec]
    omega
  | .enum _ _ (some _) _ _, rfl =>
    simp only [enum.sizeOf_spec, Option.some.sizeOf_spec]
    omega

/-- What a tree has whenever the parts of its block have it, every tree has. -/
@[elab_as_elim]
theorem induction_on_parts {P : Data → Prop}
    (h : ∀ d, (∀ b, d.innerBlock? = some b → ∀ c ∈ b.contents.children, P c) → P d) (d : Data) :
    P d :=
  h d fun _ hb c hc =>
    have := sizeOf_lt_of_mem_children hb hc
    induction_on_parts h c
termination_by sizeOf d

/-- Parts of parts are parts. -/
theorem mem_nodes_trans {d n m : Data} (hn : n ∈ d.nodes) (hm : m ∈ n.nodes) : m ∈ d.nodes := by
  induction d using induction_on_parts with
  | h d ih =>
    rcases mem_nodes_iff.1 hn with rfl | ⟨b, hb, c, hc, hn⟩
    · exact hm
    · exact mem_nodes_of_mem_children hb hc (ih b hb c hc hn)

/-! ### Values -/

theorem entryValues_eq (entries : List (String × Data)) :
    entryValues entries = entries.map fun e => (e.1, e.2.value) := by
  induction entries with
  | nil => rfl
  | cons e rest ih => rw [entryValues, ih, map_cons]

theorem itemValues_eq (items : List Data) : itemValues items = items.map value := by
  induction items with
  | nil => rfl
  | cons d rest ih => rw [itemValues, ih, map_cons]

/-! ### Blocks -/

theorem blocksOf_eq (b : Block Data) : blocksOf b = b :: b.contents.children.flatMap blocks := by
  have hentries : ∀ entries : List (String × Data),
      entryBlocks entries = (entries.map (·.2)).flatMap blocks := by
    intro entries
    induction entries with
    | nil => rfl
    | cons e rest ih => rw [entryBlocks, ih, map_cons, flatMap_cons]
  have hitems : ∀ items : List Data, itemBlocks items = items.flatMap blocks := by
    intro items
    induction items with
    | nil => rfl
    | cons d rest ih => rw [itemBlocks, ih, flatMap_cons]
  obtain ⟨contents, range, tokens⟩ := b
  cases contents with
  | dict entries keyRanges => exact congrArg (_ :: ·) (hentries entries)
  | array items | tuple items => exact congrArg (_ :: ·) (hitems items)

/-- Every block is that of a node. -/
theorem exists_of_mem_blocks (d : Data) :
    ∀ b ∈ d.blocks, ∃ n ∈ d.nodes, n.innerBlock? = some b := by
  induction d using induction_on_parts with
  | h d ih =>
    intro b hb
    obtain ⟨own, hown, hb⟩ : ∃ own, d.innerBlock? = some own ∧ b ∈ blocksOf own := by
      match d with
      | .primitive .. => cases hb
      | .block own => exact ⟨own, rfl, hb⟩
      | .enum _ _ none _ _ => cases hb
      | .enum _ _ (some own) _ _ => exact ⟨own, rfl, hb⟩
    rw [blocksOf_eq] at hb
    rcases mem_cons.1 hb with rfl | hb
    · exact ⟨d, self_mem_nodes d, hown⟩
    · obtain ⟨part, hpart, hb⟩ := mem_flatMap.1 hb
      obtain ⟨n, hn, hinner⟩ := ih own hown part hpart b hb
      exact ⟨n, mem_nodes_of_mem_children hown hpart hn, hinner⟩

end Data

/-! ### Keys -/

/-- Every property of a dict has a place for its key. -/
def Block.KeysPlaced (b : Block Data) : Prop :=
  ∀ entries keyRanges, b.contents = .dict entries keyRanges →
    ∀ name ∈ entries.map (·.1), name ∈ keyRanges.map (·.1)

namespace Data

/-- In every dict of a tree, the keys that have a value have a place. -/
def KeysPlaced (d : Data) : Prop :=
  ∀ n ∈ d.nodes, ∀ b ∈ n.innerBlock?, b.KeysPlaced

theorem KeysPlaced.block {d : Data} {b : Block Data} (h : d.KeysPlaced)
    (hb : d.innerBlock? = some b) : b.KeysPlaced :=
  h d d.self_mem_nodes b hb

/-- The keys of a part are placed. -/
theorem KeysPlaced.part {d c : Data} {b : Block Data} (h : d.KeysPlaced)
    (hb : d.innerBlock? = some b) (hc : c ∈ b.contents.children) : c.KeysPlaced :=
  fun _ hn => h _ (mem_nodes_of_mem_children hb hc hn)

end Data

end TypedNotation
