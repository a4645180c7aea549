import TypedNotation.Proofs.DictRecovery

/-!
# Phases of a block

As long as nothing is wrong, a block that is read is at its start or behind a newline, behind a
comma, behind a key, or behind a complete item. A `Level` is a block in one of these phases,
together with the keys that were written in it, and `Level.next` says which chunk may come next.

A block is read without an error exactly if its chunks lead from phase to phase and do not end
behind a key. Then every value of it is kept, and all that is found are the findings of its values
and the needless commas (`Sequence.contents_of_run`); otherwise an error is found
(`Sequence.exists_error_contents`). Both come from what a block reports place by place: the chunks
before a place tell its phase (`Phase.behind`), with one lemma for a chunk (`Place.follows`) and one
for all chunks (`Level.run_behind`).
-/

namespace TypedNotation

open List Chunk

namespace Sequence

variable {kind : BlockKind} {cs : List Chunk} {l : Level}

/-! ### Phases -/

/-- Where in a block the next chunk comes. -/
inductive Phase where
  /-- At the start, or behind a newline. -/
  | fresh
  | comma
  /-- Behind a key that has no value yet. -/
  | key
  /-- Behind a complete item. -/
  | item
  deriving DecidableEq

/-- A block that is being read, or the document outside of all blocks. -/
structure Level where
  /-- Absent outside of all blocks. -/
  kind : Option BlockKind
  phase : Phase := .fresh
  keys : List String := []
  deriving DecidableEq

namespace Level

/-- A block behind its opening bracket. -/
def inside (kind : BlockKind) : Level where
  kind := some kind

/-- The document outside of all blocks, at its start. -/
def outside : Level where
  kind := none

/-- Whether a value may come next. -/
def takesValue (l : Level) : Bool :=
  match l.kind with
  | some .dict => l.phase == .key
  | some _ => l.phase == .fresh || l.phase == .comma
  | none => l.phase == .fresh

/-- Reads a value. -/
def value (l : Level) : Option Level :=
  if l.takesValue then some { l with phase := .item } else none

/-- Whether a key may come next. -/
def takesKey (l : Level) (name : String) : Bool :=
  l.kind == some .dict && (l.phase == .fresh || l.phase == .comma) && !l.keys.contains name

/-- Reads a key. -/
def key (l : Level) (name : String) : Option Level :=
  if l.takesKey name then some { l with phase := .key, keys := l.keys ++ [name] } else none

/-- Reads a comma. -/
def comma (l : Level) : Option Level :=
  if l.kind.isSome && (l.phase == .fresh || l.phase == .item) then some { l with phase := .comma }
  else none

/-- Reads a newline that separates items. -/
def newline (l : Level) : Level :=
  if l.kind.isSome && l.phase != .key then { l with phase := .fresh } else l

/-- Reads a separator. -/
def separate (l : Level) (weak : Bool) : Option Level :=
  if weak then if l.kind.isSome && l.phase == .key then none else some l.newline else l.comma

/-- Whether a block may end. -/
def isComplete (l : Level) : Bool :=
  l.phase != .key

/-- Reads a chunk. A value counts if nothing is wrong in it. -/
def next (l : Level) (c : Chunk) : Option Level :=
  match c with
  | .key name _ _ _ => l.key name
  | .separator weak _ _ => l.separate weak
  | c => if c.data?.all (fun found => found.2.all fun d => !d.isError) then l.value else none

/-- Reads chunks. -/
def run (l : Level) (cs : List Chunk) : Option Level :=
  cs.foldlM next l

@[simp] theorem run_nil (l : Level) : l.run [] = some l := rfl

theorem run_cons (l : Level) (c : Chunk) (cs : List Chunk) :
    l.run (c :: cs) = (l.next c).bind fun l => l.run cs := rfl

theorem run_concat (l : Level) (cs : List Chunk) (c : Chunk) :
    l.run (cs ++ [c]) = (l.run cs).bind fun l => l.next c := by
  simp [run, foldlM_append]

/-- A key and a separator have no data, and all else has. -/
theorem next_of_data? {c : Chunk} {data : Data} {problems : List Diagnostic}
    (h : c.data? = some (data, problems)) (l : Level) :
    l.next c = if problems.all (fun d => !d.isError) then l.value else none := by
  cases c with
  | key | separator => simp [data?] at h
  | _ => simp [next, h]

end Level

/-! ### What is found -/

/-- What is found at a chunk between those before it, last first, and those after it: what is found
in a value, or that a comma is needless. -/
def ownFindings (before : List Item) (c : Chunk) (after : List Item) : List Diagnostic :=
  match c.data? with
  | some (_, problems) => problems
  | none => needlessComma before c after

/-- What is found in chunks that stand behind others, if nothing is out of sequence. -/
def findings (seen : List Chunk) : List Chunk → List Diagnostic
  | [] => []
  | c :: rest =>
    ownFindings (items seen).reverse c (items rest) ++ findings (seen ++ [c]) rest

theorem items_reverse (cs : List Chunk) : items cs.reverse = (items cs).reverse := by
  simp [items_eq]

theorem items_concat (cs : List Chunk) (c : Chunk) :
    items (cs ++ [c]) = items cs ++ [⟨c, c.data?⟩] := by
  simp [items_eq]

/-! ### Levels place by place -/

/-- The phase of a block behind some chunks, which are given last first. -/
def Phase.behind (kind : BlockKind) (before : List Chunk) : Phase :=
  match kind with
  | .dict =>
    match standing before with
    | .gap => if nearest .value before = some .comma then .comma else .fresh
    | .key => .key
    | .item => .item
  | _ =>
    match nearest .key before with
    | some .value => .item
    | some .comma => .comma
    | _ => .fresh

/-- A block behind some chunks in sequence, which are given last first. -/
def Level.behind (kind : BlockKind) (before : List Chunk) : Level where
  kind := some kind
  phase := .behind kind before
  keys := (keyNames before).reverse

/-- A dict takes a new key in a gap. -/
theorem Level.takesKey_behind (before : List Chunk) (name : String) :
    (behind .dict before).takesKey name = true ↔ standing before = .gap ∧
      name ∉ keyNames before := by
  cases hs : standing before <;> simp [takesKey, behind, Phase.behind, hs]
  by_cases hcomma : nearest .value before = some .comma <;> simp [hcomma]

/-- A dict takes a value behind a key. -/
theorem Level.takesValue_behind (before : List Chunk) :
    (behind .dict before).takesValue = true ↔ standing before = .key := by
  cases hs : standing before <;> simp [takesValue, behind, Phase.behind, hs]
  split <;> simp

namespace Place

/-- What a block reports at a place, apart from the findings inside the chunk. -/
def inBlock (kind : BlockKind) (p : Place) : List Diagnostic :=
  match kind with
  | .dict => p.inDict
  | _ => p.inList

/-- What is found at a place of a block. -/
def found (kind : BlockKind) (p : Place) : List Diagnostic :=
  p.inBlock kind ++ p.chunk.problems

/-- Whether the chunk at a place is in sequence: it leads to the phase behind it and only its own
findings are reported, or it is refused and an error is reported. -/
def Follows (kind : BlockKind) (p : Place) : Prop :=
  (Level.behind kind p.before).next p.chunk = some (Level.behind kind (p.chunk :: p.before)) ∧
      p.found kind = ownFindings (items p.before) p.chunk (items p.after) ∨
    (Level.behind kind p.before).next p.chunk = none ∧ ∃ d ∈ p.found kind, d.isError = true

variable (kind : BlockKind) (before after : List Chunk)

/-- A key follows the phases, or is found fault with. -/
theorem follows_key (name : String) (nameRange r : Range) (t : TokenRange) :
    Follows kind ⟨before, .key name nameRange r t, after⟩ := by
  cases kind with
  | dict =>
    unfold Follows
    simp only [Level.next, Level.key, Level.takesKey_behind]
    by_cases hmem : name ∈ keyNames before
    · refine .inr ⟨by simp [hmem], duplicateKey (.key name nameRange r t) name, ?_, rfl⟩
      simp [found, inBlock, inDict, repeatedKey, role, key?, hmem]
    · cases hs : standing before with
      | gap =>
        refine .inl ⟨?_, ?_⟩
        · simp [hmem, Level.behind, Phase.behind, standing, role, key?]
        · simp [found, inBlock, inDict, misplacedKey, repeatedKey, role, key?, hmem, hs,
            ownFindings, data?, needlessComma, problems]
      | key =>
        refine .inr ⟨by simp, expectedValue (.key name nameRange r t), ?_, rfl⟩
        simp [found, inBlock, inDict, misplacedKey, role, hs]
      | item =>
        refine .inr ⟨by simp, expectedSeparator (items before).head?
          (.key name nameRange r t), ?_, rfl⟩
        simp [found, inBlock, inDict, misplacedKey, role, hs]
  | _ =>
    refine .inr ⟨?_, keyInList (.key name nameRange r t), ?_, rfl⟩
    · simp [Level.next, Level.key, Level.takesKey, Level.behind]
    · simp [found, inBlock, inList, role]

/-- So does a separator. -/
theorem follows_separator (weak : Bool) (r : Range) (t : TokenRange) :
    Follows kind ⟨before, .separator weak r t, after⟩ := by
  have hown : ownFindings (items before) (.separator weak r t) (items after) =
      needless ⟨before, .separator weak r t, after⟩ := needlessComma_items before weak r t after
  unfold Follows
  rw [Level.next, hown]
  cases kind with
  | dict =>
    cases hs : standing before with
    | key =>
      refine .inr ⟨?_, expectedValue (.separator weak r t), ?_, rfl⟩
      · cases weak <;> simp [Level.separate, Level.comma, Level.behind, Phase.behind, hs]
      · cases weak <;> simp [found, inBlock, inDict, role, hs]
    | item =>
      refine .inl ⟨?_, ?_⟩
      · cases weak <;>
          simp [Level.separate, Level.newline, Level.comma, Level.behind, Phase.behind, hs,
            standing, nearest_cons, role, key?]
      · cases weak <;> simp [found, inBlock, inDict, role, hs, problems, data?]
    | gap =>
      by_cases hcomma : weak = false ∧ nearest .value before = some .comma
      · obtain ⟨rfl, hcomma⟩ := hcomma
        refine .inr ⟨?_, straySeparator (.separator false r t), ?_, rfl⟩
        · simp [Level.separate, Level.comma, Level.behind, Phase.behind, hs, hcomma]
        · simp [found, inBlock, inDict, role, hs, hcomma]
      · refine .inl ⟨?_, ?_⟩
        · cases weak <;>
            simp_all [Level.separate, Level.newline, Level.comma, Level.behind, Phase.behind,
              standing, nearest_cons, role, key?]
          split <;> simp
        · cases weak <;> simp_all [found, inBlock, inDict, role, problems, data?]
  | _ =>
    by_cases hcomma : weak = false ∧ nearest .key before = some .comma
    · obtain ⟨rfl, hcomma⟩ := hcomma
      refine .inr ⟨?_, straySeparator (.separator false r t), ?_, rfl⟩
      · simp [Level.separate, Level.comma, Level.behind, Phase.behind, hcomma]
      · simp [found, inBlock, inList, role, hcomma]
    · refine .inl ⟨?_, ?_⟩
      · rcases hn : nearest .key before with _ | _ | _ | _ | _ <;> cases weak <;>
          simp_all [Level.separate, Level.newline, Level.comma, Level.behind, Phase.behind,
            nearest_cons, role, key?]
      · cases weak <;> simp_all [found, inBlock, inList, role, problems, data?,
          needless]

/-- So does a value. -/
theorem follows_value {c : Chunk} {data : Data} (hdata : c.data? = some (data, c.problems))
    (hrole : c.role = .value) (hkey : c.key? = none) : Follows kind ⟨before, c, after⟩ := by
  unfold Follows
  rw [Level.next_of_data? hdata]
  by_cases hclean : (c.problems.all fun d => !d.isError) = true
  · rw [if_pos hclean, ownFindings, hdata]
    cases kind with
    | dict =>
      simp only [Level.value, Level.takesValue_behind]
      cases hs : standing before with
      | key =>
        refine .inl ⟨?_, ?_⟩
        · simp [Level.behind, Phase.behind, standing, hs, hrole, hkey]
        · simp [found, inBlock, inDict, hrole, hs]
      | gap =>
        refine .inr ⟨by simp, expectedKey c, ?_, rfl⟩
        simp [found, inBlock, inDict, hrole, hs]
      | item =>
        refine .inr ⟨by simp, expectedSeparatorUnfixed c, ?_, rfl⟩
        simp [found, inBlock, inDict, hrole, hs]
    | _ =>
      by_cases hn : nearest .key before = some .value
      · refine .inr ⟨?_, expectedSeparator (items before).head? c, ?_, rfl⟩
        · simp [Level.value, Level.takesValue, Level.behind, Phase.behind, hn]
        · simp [found, inBlock, inList, hrole, hn]
      · refine .inl ⟨?_, ?_⟩
        · rcases hnearest : nearest .key before with _ | _ | _ | _ | _ <;>
            simp_all [Level.value, Level.takesValue, Level.behind, Phase.behind, nearest_cons]
        · simp [found, inBlock, inList, hrole, hn]
  · obtain ⟨d, hd, herror⟩ : ∃ d ∈ c.problems, d.isError = true := by simpa using hclean
    exact .inr ⟨if_neg hclean, d, mem_append_right _ hd, herror⟩

end Place

/-- **One chunk of a block.** -/
theorem Place.follows (kind : BlockKind) (p : Place) : p.Follows kind := by
  obtain ⟨before, c, after⟩ := p
  rcases c.role_cases with ⟨name, nameRange, r, t, rfl⟩ | ⟨weak, r, t, rfl⟩ |
    ⟨data, hdata, hrole, hkey⟩
  · exact follows_key kind before after name nameRange r t
  · exact follows_separator kind before after weak r t
  · exact follows_value kind before after hdata hrole hkey

/-- **The chunks of a block.** -/
theorem Level.run_behind (kind : BlockKind) (before cs : List Chunk) :
    (behind kind before).run cs = some (behind kind (cs.reverse ++ before)) ∧
        (placesFrom before cs).flatMap (Place.found kind) = findings before.reverse cs ∨
      (behind kind before).run cs = none ∧
        ∃ d ∈ (placesFrom before cs).flatMap (Place.found kind), d.isError = true := by
  induction cs generalizing before with
  | nil => exact .inl ⟨rfl, rfl⟩
  | cons c cs ih =>
    rw [Level.run_cons, placesFrom, flatMap_cons]
    rcases (Place.mk before c cs).follows kind with ⟨hnext, hfound⟩ | ⟨hnext, d, hd, herror⟩
    · dsimp only at hnext hfound
      rw [hnext, Option.bind_some, hfound, findings, reverse_cons, append_assoc,
        items_reverse, reverse_reverse]
      rcases ih (c :: before) with ⟨hrun, hrest⟩ | ⟨hrun, d, hd, herror⟩
      · rw [hrun, hrest, reverse_cons]
        exact .inl ⟨rfl, rfl⟩
      · exact .inr ⟨hrun, d, mem_append_right _ hd, herror⟩
    · dsimp only at hnext
      exact .inr ⟨by rw [hnext, Option.bind_none], d, mem_append_left _ hd, herror⟩

/-! ### Blocks -/

theorem Level.inside_eq_behind (kind : BlockKind) : inside kind = behind kind [] := by
  cases kind <;> rfl

/-- A block is complete unless it ends behind a key. -/
theorem Level.isComplete_behind (kind : BlockKind) (before : List Chunk) :
    (behind kind before).isComplete = true ↔ (kind = .dict → standing before ≠ .key) := by
  cases kind with
  | dict =>
    cases hs : standing before <;> simp [isComplete, behind, Phase.behind, hs]
    split <;> simp
  | _ =>
    rcases hn : nearest .key before with _ | _ | _ | _ | _ <;>
      simp [isComplete, behind, Phase.behind, hn]

/-- All that is found in a block is found at its places, or because it ends behind a key. -/
theorem snd_contents (kind : BlockKind) (cs : List Chunk) :
    (contents kind (items cs)).2 = (places cs).flatMap (Place.found kind) ++
      if (Level.behind kind cs.reverse).isComplete then [] else [missingLast (items cs)] := by
  simp only [Level.isComplete_behind]
  cases kind with
  | dict =>
    rw [contents, dict_eq, unfinished]
    by_cases hkey : standing cs.reverse = .key <;> simp [hkey] <;> rfl
  | _ =>
    simp only [contents, list_eq, reduceCtorEq, false_implies, if_true, append_nil]
    rfl

/-- **A block out of sequence.** Unless its chunks lead from phase to phase and do not end behind a
key, an error is found in a block. -/
theorem exists_error_contents {kind : BlockKind} {cs : List Chunk}
    (h : ∀ l, (Level.inside kind).run cs = some l → l.isComplete = false) :
    ∃ d ∈ (contents kind (items cs)).2, d.isError = true := by
  rw [Level.inside_eq_behind] at h
  rw [snd_contents]
  rcases Level.run_behind kind [] cs with ⟨hrun, -⟩ | ⟨-, d, hd, herror⟩
  · have hincomplete := h _ hrun
    rw [append_nil] at hincomplete
    exact ⟨missingLast (items cs), by simp [hincomplete], rfl⟩
  · exact ⟨d, mem_append_left _ hd, herror⟩

theorem freshName_eq_nil {before : List Chunk} (h : standing before ≠ .key) :
    freshName before = [] := by
  rw [Ne, standing_eq_key_iff, Option.not_isSome_iff_eq_none] at h
  simp [freshName, h]

/-- In a dict in sequence every value completes a property, and every key but the last has one. -/
theorem entries_of_run {before : List Chunk} (h : (Level.behind .dict before).run cs = some l)
    (hwaits : standing before = .key →
      ∃ name older, waiting before = some (name, older) ∧ name ∉ keyNames older) :
    ((placesFrom before cs).flatMap Place.newEntry).map (·.2) = cs.filterMap value? ∧
      ((placesFrom before cs).flatMap Place.newEntry).map (·.1) ++ freshName
        (cs.reverse ++ before) =
        freshName before ++ keyNames cs := by
  -- a key that waits for its value has no entry yet: `freshName` stands for it on both sides
  induction cs generalizing before with
  | nil => simp [placesFrom]
  | cons c cs ih =>
    rw [Level.run_cons] at h
    obtain ⟨m, hm, hrest⟩ := Option.bind_eq_some_iff.1 h
    obtain rfl : m = Level.behind .dict (c :: before) := by
      rcases (Place.mk before c cs).follows .dict with ⟨hnext, -⟩ | ⟨hnext, -⟩
      · exact Option.some.inj (hm.symm.trans hnext)
      · cases hm.symm.trans hnext
    rw [placesFrom, flatMap_cons, map_append, map_append, reverse_cons,
      append_assoc, append_assoc, keyNames_cons]
    rcases c.role_cases with ⟨name, nameRange, r, t, rfl⟩ | ⟨weak, r, t, rfl⟩ |
      ⟨data, hdata, hrole, hkey⟩
    · simp only [Level.next, Level.key, Level.takesKey_behind, Option.ite_none_right_eq_some] at hm
      obtain ⟨⟨hgap, hnew⟩, -⟩ := hm
      obtain ⟨hvalues, hnames⟩ := ih hrest fun _ => ⟨name, before, rfl, hnew⟩
      have hfresh : freshName (.key name nameRange r t :: before) = [name] := by
        simp [freshName, waiting, hnew]
      have hnone : freshName before = [] := freshName_eq_nil (by simp [hgap])
      rw [hfresh] at hnames
      rw [hnone]
      exact ⟨hvalues, hnames⟩
    · have hne : standing before ≠ .key := by
        intro hs
        cases weak <;> simp [Level.next, Level.separate, Level.comma, Level.behind, Phase.behind,
          hs] at hm
      have hgap : standing (.separator weak r t :: before) ≠ .key := by
        cases weak <;> simp [standing, role, hne]
      exact ih hrest fun hs => absurd hs hgap
    · simp only [Level.next_of_data? hdata, Level.value, Level.takesValue_behind,
        Option.ite_none_right_eq_some] at hm
      obtain ⟨-, hs, -⟩ := hm
      obtain ⟨name, older, hwaiting, hnew⟩ := hwaits hs
      have hvalue : c.value? = some data := by rw [value?, hdata]; rfl
      have hentry : (Place.mk before c cs).newEntry = [(name, data)] := by
        simp [Place.newEntry, hvalue, hwaiting, hnew]
      have hfresh : freshName before = [name] := by simp [freshName, hwaiting, hnew]
      have hitem : standing (c :: before) = .item := by simp [standing, hrole, hs]
      have hnone : freshName (c :: before) = [] := freshName_eq_nil (by simp [hitem])
      obtain ⟨hvalues, hnames⟩ := ih hrest fun hs => by rw [hitem] at hs; cases hs
      rw [hnone] at hnames
      rw [hentry, hfresh, hkey, filterMap_cons, hvalue, hvalues]
      exact ⟨rfl, congrArg (name :: ·) hnames⟩

/-- **A block in sequence.** If the chunks of a block lead from phase to phase and do not end behind
a key, all its values are kept, and nothing is found but what is found at each chunk. -/
theorem contents_of_run (h : (Level.inside kind).run cs = some l)
    (hcomplete : l.isComplete = true) :
    (contents kind (items cs)).2 = findings [] cs ∧
      (contents kind (items cs)).1.children = cs.filterMap value? := by
  rw [Level.inside_eq_behind] at h
  refine ⟨?_, ?_⟩
  · rcases Level.run_behind kind [] cs with ⟨hrun, hfound⟩ | ⟨hrun, -⟩
    · obtain rfl := Option.some.inj (hrun.symm.trans h)
      rw [append_nil] at hcomplete
      rw [snd_contents, hcomplete, if_pos rfl, append_nil]
      exact hfound
    · cases hrun.symm.trans h
  · cases kind with
    | dict =>
      rw [contents, dict_eq]
      exact (entries_of_run h (by simp [standing])).1
    | _ => simp [contents, list_eq, Contents.children]

/-- The properties of a dict in sequence have the keys of the dict as names, in order. -/
theorem names_of_run (h : (Level.inside .dict).run cs = some l) (hcomplete : l.isComplete = true) :
    ∃ entries ranges, (contents .dict (items cs)).1 = .dict entries ranges ∧
      entries.map (·.1) = keyNames cs := by
  rw [Level.inside_eq_behind] at h
  have hnames := (entries_of_run h (by simp [standing])).2
  rcases Level.run_behind .dict [] cs with ⟨hrun, -⟩ | ⟨hrun, -⟩
  · obtain rfl := Option.some.inj (hrun.symm.trans h)
    rw [freshName_eq_nil ((Level.isComplete_behind _ _).1 hcomplete rfl), append_nil] at hnames
    exact ⟨_, _, congrArg Prod.fst (dict_eq cs), hnames⟩
  · cases hrun.symm.trans h

end Sequence

end TypedNotation
