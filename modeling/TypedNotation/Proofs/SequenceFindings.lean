import Mathlib.Tactic.Common
import TypedNotation.Data.OfChunks

/-!
# Blocks place by place

The chunks of a block are read from left to right by machines with several flags, and reading goes
on after an error as though the sequence had been right. What such a machine does at a chunk depends
on the chunks around it alone. A `Place` is a chunk with the chunks before and after it, and

* `Place.inList` is what an array or a tuple reports there,
* `Place.inDict` is what a dict reports there, `Place.newKey` and `Place.newEntry` what it takes in,

each without the findings inside the chunk. The contents of a block and all that is found in it are
these, place after place (`Sequence.list_eq`, `Sequence.dict_eq`).

For each machine there is one relation between its flags and the chunks read so far (`Behind`), one
lemma for a step and one for a run. In a list the flags tell the nearest chunk that is not a key, in
a dict one of three standings: in a gap, behind a key that waits for its value, or behind a complete
property.
-/

namespace TypedNotation

open List Sequence.Separators Sequence

/-! ### Roles -/

/-- What a chunk is to the block that it stands in. -/
inductive Chunk.Role where
  | key
  | value
  | comma
  | newline
  deriving DecidableEq

namespace Chunk

/-- The role of a chunk. -/
def role : Chunk → Role
  | key .. => .key
  | separator true .. => .newline
  | separator false .. => .comma
  | block _ | enum .. | value .. => .value

/-- The name of a key and where it stands. -/
def key? : Chunk → Option (String × Range)
  | key name nameRange _ _ => some (name, nameRange)
  | _ => none

/-- The names of the keys among some chunks. -/
def keyNames (cs : List Chunk) : List String :=
  (cs.filterMap key?).map (·.1)

/-- The data that a chunk stands for. -/
def value? (c : Chunk) : Option Data :=
  c.data?.map Prod.fst

/-- What is found inside a chunk. -/
def problems (c : Chunk) : List Diagnostic :=
  (c.data?.map Prod.snd).getD []

/-- A chunk is a key, a separator, or a value, and only a value has data. -/
theorem role_cases (c : Chunk) :
    (∃ name nameRange r t, c = key name nameRange r t) ∨ (∃ weak r t, c = separator weak r t) ∨
      ∃ data, c.data? = some (data, c.problems) ∧ c.role = .value ∧ c.key? = none := by
  cases c with
  | key name nameRange r t => exact .inl ⟨name, nameRange, r, t, rfl⟩
  | separator weak r t => exact .inr (.inl ⟨weak, r, t, rfl⟩)
  | value v r t => exact .inr (.inr ⟨_, rfl, rfl, rfl⟩)
  | block b =>
    obtain ⟨_, _, _, _⟩ := b
    exact .inr (.inr ⟨_, rfl, rfl, rfl⟩)
  | enum tag tagRange payload r t =>
    rcases payload with _ | ⟨_, _, _, _⟩
    · exact .inr (.inr ⟨_, rfl, rfl, rfl⟩)
    · exact .inr (.inr ⟨_, rfl, rfl, rfl⟩)

theorem items_eq (cs : List Chunk) : items cs = cs.map fun c => ⟨c, c.data?⟩ := by
  induction cs with
  | nil => rfl
  | cons c rest ih => rw [items, ih, map_cons]

@[simp] theorem keyNames_nil : keyNames [] = [] := rfl

@[simp] theorem keyNames_cons (c : Chunk) (cs : List Chunk) :
    keyNames (c :: cs) = (c.key?.map (·.1)).toList ++ keyNames cs := by
  cases h : c.key? <;> simp [keyNames, h]

end Chunk

namespace Sequence

open Chunk (Role keyNames)

/-! ### Places -/

/-- A chunk among the other chunks of its block. -/
structure Place where
  /-- The chunks before it, the last one first. -/
  before : List Chunk
  chunk : Chunk
  after : List Chunk

/-- The places of chunks that stand behind others, which are given last first. -/
def placesFrom (before : List Chunk) : List Chunk → List Place
  | [] => []
  | c :: rest => ⟨before, c, rest⟩ :: placesFrom (c :: before) rest

/-- The places of the chunks of a block. -/
def places (cs : List Chunk) : List Place :=
  placesFrom [] cs

/-- The role of the nearest chunk that has not a given role. -/
def nearest (skipped : Role) (cs : List Chunk) : Option Role :=
  (cs.map Chunk.role).find? (· != skipped)

@[simp] theorem nearest_nil (skipped : Role) : nearest skipped [] = none := rfl

theorem nearest_cons (skipped : Role) (c : Chunk) (cs : List Chunk) :
    nearest skipped (c :: cs) = if c.role = skipped then nearest skipped cs else some c.role := by
  by_cases h : c.role = skipped <;> simp [nearest, h]

/-- Whether a newline, or the edge of the block, comes next after any commas. -/
def nearEdge (cs : List Chunk) : Bool :=
  (nearest .comma cs).all (· == .newline)

namespace Place

/-- Whether a comma separates nothing that is not separated anyway. -/
def isNeedless (p : Place) : Bool :=
  nearEdge p.after || nearEdge p.before

/-- The warning of a needless comma. -/
def needless (p : Place) : List Diagnostic :=
  if p.chunk.role = .comma ∧ p.isNeedless then
    [(Diagnostic.warning .unnecessaryComma p.chunk.range "Unnecessary comma").withFix
      (.delete p.chunk.range)]
  else []

end Place

/-- A place is a chunk with those around it. -/
theorem mem_placesFrom {before cs : List Chunk} {p : Place} :
    p ∈ placesFrom before cs ↔ ∃ passed, p.before = passed.reverse ++ before ∧
      cs = passed ++ p.chunk :: p.after := by
  induction cs generalizing before with
  | nil => simp [placesFrom]
  | cons c rest ih =>
    rw [placesFrom, mem_cons, ih]
    constructor
    · rintro (rfl | ⟨passed, hbefore, hcs⟩)
      · exact ⟨[], rfl, rfl⟩
      · exact ⟨c :: passed, by simp [hbefore], by simp [hcs]⟩
    · rintro ⟨_ | ⟨d, passed⟩, hbefore, hcs⟩
      · obtain ⟨rfl, rfl⟩ := List.cons.inj hcs
        exact .inl (by cases p; simpa using hbefore)
      · obtain ⟨rfl, hrest⟩ := List.cons.inj hcs
        exact .inr ⟨passed, by simp [hbefore], hrest⟩

/-- A place is a way to cut the chunks of a block at one of them. -/
theorem mem_places {cs : List Chunk} {p : Place} :
    p ∈ places cs ↔ cs = p.before.reverse ++ p.chunk :: p.after := by
  rw [places, mem_placesFrom]
  constructor
  · rintro ⟨passed, hbefore, hcs⟩
    rw [hcs, hbefore, append_nil, reverse_reverse]
  · exact fun h => ⟨p.before.reverse, by simp, h⟩

/-! ### Separators -/

/-- Items reach an edge if their chunks do. -/
theorem reachesEdge_items (cs : List Chunk) : reachesEdge (Chunk.items cs) = nearEdge cs := by
  induction cs with
  | nil => rfl
  | cons c cs ih =>
    rw [nearEdge, nearest_cons] at *
    rw [Chunk.items]
    cases c with
    | separator weak r t =>
      cases weak with
      | true => rfl
      | false => exact ih
    | _ => rfl

/-- A comma is needless by the chunks around it. -/
theorem needlessComma_items (before : List Chunk) (weak : Bool) (r : Range) (t : TokenRange)
    (after : List Chunk) :
    needlessComma (Chunk.items before) (.separator weak r t) (Chunk.items after) =
      (Place.mk before (.separator weak r t) after).needless := by
  cases weak with
  | true => rfl
  | false =>
    rw [needlessComma, reachesEdge_items, reachesEdge_items]
    simp [Place.needless, Place.isNeedless, Chunk.role, Chunk.range]

section

variable {s : Separators} (before : List Chunk) (weak : Bool) (r : Range) (t : TokenRange)
  (after : List Chunk)

/-- Behind a complete item a separator is taken. -/
theorem Separators.step_item (hexpecting : s.expecting = true) (hjust : s.justHad = false) :
    s.step weak (Chunk.items before) (.separator weak r t) (Chunk.items after) =
      (.accepted, ⟨false, true, weak⟩, (Place.mk before (.separator weak r t) after).needless) := by
  simp [step, hexpecting, hjust, needlessComma_items]

/-- Behind an item that was begun a separator is refused. -/
theorem Separators.step_key (hexpecting : s.expecting = false) (hjust : s.justHad = false) :
    s.step weak (Chunk.items before) (.separator weak r t) (Chunk.items after) =
      (.unexpected, { s with justHadWeak := weak }, []) := by
  simp [step, hexpecting, hjust]

/-- Behind a separator, or at the start, a comma is refused if the separator is a comma, and any
other separator is one with it. -/
theorem Separators.step_gap (hexpecting : s.expecting = false) (hjust : s.justHad = true) :
    s.step weak (Chunk.items before) (.separator weak r t) (Chunk.items after) =
      if !s.justHadWeak && !weak then (.unexpected, { s with justHadWeak := weak }, [])
      else (.collapsed, { s with justHadWeak := weak },
        (Place.mk before (.separator weak r t) after).needless) := by
  cases hweak : s.justHadWeak <;> cases weak <;>
    simp [step, hexpecting, hjust, hweak, needlessComma_items, Place.needless,
      Chunk.role]

end

/-! ### Arrays and tuples -/

/-- What an array or a tuple reports at a place, apart from the findings inside the chunk. -/
def Place.inList (p : Place) : List Diagnostic :=
  match p.chunk.role with
  | .key => [keyInList p.chunk]
  | .value =>
    if nearest .key p.before = some .value then
      [expectedSeparator (Chunk.items p.before).head? p.chunk]
    else []
  | .comma => if nearest .key p.before = some .comma then [straySeparator p.chunk] else p.needless
  | .newline => []

namespace ListState

/-- The flags inside a list tell the nearest chunk that is not a key. -/
structure Behind (before : List Chunk) (s : ListState) : Prop where
  expectingValue : s.expectingValue = decide (nearest .key before ≠ some .value)
  expecting : s.separators.expecting = decide (nearest .key before = some .value)
  justHad : s.separators.justHad = decide (nearest .key before ≠ some .value)
  justHadWeak : nearest .key before ≠ some .value →
    s.separators.justHadWeak = decide (nearest .key before ≠ some .comma)

theorem behind_start : Behind [] {} := by
  constructor <;> simp

/-- A step in a list adds the value of its chunk. -/
theorem items_step (s : ListState) (before : List Item) (c : Chunk) (after : List Item) :
    (s.step before ⟨c, c.data?⟩ after).items = s.items ++ c.value?.toList := by
  rcases c.role_cases with ⟨name, nameRange, r, t, rfl⟩ | ⟨weak, r, t, rfl⟩ | ⟨data, hdata, -⟩
  · exact (append_nil _).symm
  · simp only [step, Chunk.value?, Chunk.data?]
    split <;> simp [report]
  · simp only [step, Chunk.value?, hdata]
    split <;> simp [report]

/-- A list has the values of its chunks. -/
theorem items_run (s : ListState) (before : List Item) (cs : List Chunk) :
    (s.run before (Chunk.items cs)).items = s.items ++ cs.filterMap Chunk.value? := by
  induction cs generalizing s before with
  | nil => simp [Chunk.items, run]
  | cons c cs ih =>
    rw [Chunk.items, run, ih, items_step, filterMap_cons]
    cases c.value? <;> simp

/-- **One chunk of a list.** -/
theorem Behind.step {before : List Chunk} {s : ListState} (h : Behind before s) (c : Chunk)
    (after : List Chunk) :
    let s' := s.step (Chunk.items before) ⟨c, c.data?⟩ (Chunk.items after)
    Behind (c :: before) s' ∧
      s'.diagnostics = s.diagnostics ++ ((Place.mk before c after).inList ++ c.problems) := by
  obtain ⟨hvalue, hexpecting, hjust, hweak⟩ := h
  rcases c.role_cases with ⟨name, nameRange, r, t, rfl⟩ | ⟨weak, r, t, rfl⟩ |
    ⟨data, hdata, hrole, -⟩
  · -- a key changes no flag
    have hnearest : nearest .key (.key name nameRange r t :: before) = nearest .key before := by
      simp [nearest_cons, Chunk.role]
    refine ⟨?_, rfl⟩
    constructor <;> rw [hnearest] <;> assumption
  · have hnearest : nearest .key (.separator weak r t :: before) =
        some (if weak then .newline else .comma) := by
      cases weak <;> simp [nearest_cons, Chunk.role]
    have hrole : (Chunk.separator weak r t).role = if weak then .newline else .comma := by
      cases weak <;> rfl
    by_cases hn : nearest .key before = some .value
    · have hstep := step_item before weak r t after (s := s.separators)
        (by simpa [hn] using hexpecting) (by simpa [hn] using hjust)
      refine ⟨?_, ?_⟩
      · constructor <;> cases weak <;> simp [ListState.step, Chunk.data?, hstep, hnearest]
      · cases weak <;>
          simp [ListState.step, Chunk.data?, hstep, report, Place.inList, hrole, hn, Chunk.problems,
            Place.needless]
    · have hstep := step_gap before weak r t after (s := s.separators)
        (by simp [hexpecting, hn]) (by simp [hjust, hn])
      rw [hweak hn] at hstep
      by_cases hcomma : nearest .key before = some .comma
      · refine ⟨?_, ?_⟩
        · constructor <;> cases weak <;>
            simp [ListState.step, Chunk.data?, hstep, report, hnearest, hcomma, hvalue, hexpecting,
              hjust]
        · cases weak <;>
            simp [ListState.step, Chunk.data?, hstep, report, Place.inList, hrole, hcomma,
              Chunk.problems, Place.needless]
      · refine ⟨?_, ?_⟩
        · constructor <;> cases weak <;>
            simp [ListState.step, Chunk.data?, hstep, report, hnearest, hn, hcomma, hvalue,
              hexpecting, hjust]
        · cases weak <;>
            simp [ListState.step, Chunk.data?, hstep, report, Place.inList, hrole, hcomma,
              Chunk.problems, Place.needless]
  · have hnearest : nearest .key (c :: before) = some .value := by simp [nearest_cons, hrole]
    rw [hdata]
    cases hexpected : s.expectingValue with
    | true =>
      have hne : nearest .key before ≠ some .value := by simpa [hexpected] using hvalue
      refine ⟨?_, ?_⟩
      · constructor <;> simp [ListState.step, hexpected, hnearest, afterItem]
      · simp [ListState.step, hexpected, report, Place.inList, hrole, hne]
    | false =>
      have heq : nearest .key before = some .value := by simpa [hexpected] using hvalue
      refine ⟨?_, ?_⟩
      · constructor <;> simp [ListState.step, hexpected, hnearest, afterItem]
      · simp [ListState.step, hexpected, report, Place.inList, hrole, heq]

/-- **The chunks of a list.** -/
theorem Behind.run {before : List Chunk} {s : ListState} (h : Behind before s) (cs : List Chunk) :
    let s' := s.run (Chunk.items before) (Chunk.items cs)
    Behind (cs.reverse ++ before) s' ∧
      s'.diagnostics = s.diagnostics ++
        (placesFrom before cs).flatMap fun p => p.inList ++ p.chunk.problems := by
  induction cs generalizing before s with
  | nil => exact ⟨h, by simp [Chunk.items, ListState.run, placesFrom]⟩
  | cons c cs ih =>
    obtain ⟨hbehind, hfound⟩ := h.step c cs
    obtain ⟨hlast, hrest⟩ := ih hbehind
    rw [Chunk.items, ListState.run, placesFrom, flatMap_cons, reverse_cons,
      append_assoc]
    refine ⟨hlast, ?_⟩
    rw [← append_assoc, ← hfound]
    exact hrest

end ListState

/-- **Arrays and tuples, place by place.** All values are taken. No list ends where a value is
missing, as keys count for nothing in it. -/
theorem list_eq (cs : List Chunk) :
    list (Chunk.items cs) =
      (cs.filterMap Chunk.value?, (places cs).flatMap fun p => p.inList ++ p.chunk.problems) := by
  obtain ⟨hbehind, hfound⟩ := ListState.behind_start.run cs
  rw [Chunk.items] at hbehind hfound
  have hvalues : (list (Chunk.items cs)).1 = cs.filterMap Chunk.value? :=
    ListState.items_run {} [] cs
  have hdangling : (ListState.run {} [] (Chunk.items cs)).separators.dangling = false := by
    rw [dangling, hbehind.expecting, hbehind.justHad]
    simp
  refine Prod.ext hvalues ?_
  rw [list, hdangling]
  simpa [places] using hfound

/-! ### Dicts -/

/-- What the chunks read so far leave a dict to expect. -/
inductive Standing where
  /-- A key: nothing was read, or a separator since the last property. -/
  | gap
  /-- The value of a key. -/
  | key
  /-- A separator behind a complete property. -/
  | item
  deriving DecidableEq

/-- The standing behind some chunks, which are given last first. A value without a key does not
count, and neither does a separator behind a key. -/
def standing : List Chunk → Standing
  | [] => .gap
  | c :: before =>
    match c.role with
    | .key => .key
    | .value => if standing before = .gap then .gap else .item
    | .comma | .newline => if standing before = .key then .key else .gap

/-- The key that waits for its value behind some chunks, last first, and the chunks before that key.
Only separators may have come since. -/
def waiting : List Chunk → Option (String × List Chunk)
  | .key name _ _ _ :: before => some (name, before)
  | .separator _ _ _ :: before => waiting before
  | _ => none

/-- What a dict reports when it ends: a key still waits. -/
def unfinished (cs : List Chunk) : List Diagnostic :=
  if standing cs.reverse = .key then [missingLast (Chunk.items cs)] else []

namespace Place

/-- The key at a place, unless its name was written before. -/
def newKey (p : Place) : List (String × Range) :=
  p.chunk.key?.toList.filter fun k => k.1 ∉ keyNames p.before

/-- The finding that the name of a key was written before. -/
def repeatedKey (p : Place) : List Diagnostic :=
  (p.chunk.key?.toList.filter fun k => k.1 ∈ keyNames p.before).map fun k =>
    duplicateKey p.chunk k.1

/-- The property that the value at a place completes, if the key that waits for it was not written
before. -/
def newEntry (p : Place) : List (String × Data) :=
  match p.chunk.value?, waiting p.before with
  | some data, some (name, older) => if name ∈ keyNames older then [] else [(name, data)]
  | _, _ => []

/-- What a dict reports of where the key at a place stands. -/
def misplacedKey (p : Place) : List Diagnostic :=
  match standing p.before with
  | .gap => []
  | .key => [expectedValue p.chunk]
  | .item => [expectedSeparator (Chunk.items p.before).head? p.chunk]

/-- What a dict reports at a place, apart from the findings inside the chunk. -/
def inDict (p : Place) : List Diagnostic :=
  match p.chunk.role, standing p.before with
  | .key, _ => p.misplacedKey ++ p.repeatedKey
  | .value, .gap => [expectedKey p.chunk]
  | .value, .key => []
  | .value, .item => [expectedSeparatorUnfixed p.chunk]
  | _, .key => [expectedValue p.chunk]
  | .comma, .gap =>
    if nearest .value p.before = some .comma then [straySeparator p.chunk] else p.needless
  | _, _ => p.needless

end Place

/-- A key waits for its value exactly in the standing that says so. -/
theorem standing_eq_key_iff (before : List Chunk) :
    standing before = .key ↔ (waiting before).isSome = true := by
  induction before with
  | nil => simp [standing, waiting]
  | cons c before ih =>
    cases c with
    | key name nameRange r t => simp [standing, waiting, Chunk.role]
    | separator weak r t =>
      rw [waiting, ← ih]
      cases weak <;> simp [standing, Chunk.role]
    | _ =>
      simp only [standing, waiting, Chunk.role]
      split <;> simp

theorem key?_of_role_ne {c : Chunk} (h : c.role ≠ .key) : c.key? = none := by
  cases c with
  | key => exact absurd rfl h
  | _ => rfl

/-- No key waits behind a value. -/
theorem waiting_of_value {c : Chunk} (h : c.role = .value) (before : List Chunk) :
    waiting (c :: before) = none := by
  cases c with
  | key => cases h
  | separator weak => cases weak <;> cases h
  | _ => rfl

namespace DictState

/-- The flags inside a dict tell the standing, and whether the last separator was a comma; the
pending key is the one that waits. -/
structure Behind (before : List Chunk) (s : DictState) : Prop where
  expectingKey : s.expectingKey = decide (standing before = .gap)
  expecting : s.separators.expecting = decide (standing before = .item)
  justHad : s.separators.justHad = decide (standing before = .gap)
  justHadWeak : standing before = .gap →
    s.separators.justHadWeak = decide (nearest .value before ≠ some .comma)
  pendingKey : s.pendingKey = (waiting before).map fun k => (k.1, decide (k.1 ∈ keyNames k.2))
  known : ∀ name, s.keyRanges.any (·.1 == name) = decide (name ∈ keyNames before)

theorem behind_start : Behind [] {} := by
  constructor <;> simp [standing, waiting, keyNames]

/-- What reading the chunk at a place does. -/
structure Takes (p : Place) (s s' : DictState) : Prop where
  behind : Behind (p.chunk :: p.before) s'
  keyRanges : s'.keyRanges = s.keyRanges ++ p.newKey
  entries : s'.entries = s.entries ++ p.newEntry
  diagnostics : s'.diagnostics = s.diagnostics ++ (p.inDict ++ p.chunk.problems)

theorem stepSeparator_keyRanges (s : DictState) (before : List Item) (c : Chunk) (after : List Item)
    (weak : Bool) : (s.stepSeparator before c after weak).keyRanges = s.keyRanges := by
  simp only [stepSeparator]
  split <;> rfl

theorem stepSeparator_entries (s : DictState) (before : List Item) (c : Chunk) (after : List Item)
    (weak : Bool) : (s.stepSeparator before c after weak).entries = s.entries := by
  simp only [stepSeparator]
  split <;> rfl

section Step

variable {before : List Chunk} {s : DictState} (h : Behind before s) (after : List Chunk)

include h

/-- What a dict does at a key. -/
theorem Behind.takes_key (name : String) (nameRange r : Range) (t : TokenRange) :
    Takes ⟨before, .key name nameRange r t, after⟩ s
      (s.stepKey (Chunk.items before) (.key name nameRange r t) name nameRange) := by
  have hmisplaced : (if s.expectingKey then []
      else if s.separators.expecting then
        [expectedSeparator (Chunk.items before).head? (.key name nameRange r t)]
      else [expectedValue (.key name nameRange r t)]) =
      Place.misplacedKey ⟨before, .key name nameRange r t, after⟩ := by
    rw [h.expectingKey, h.expecting, Place.misplacedKey]
    cases standing before <;> simp
  unfold stepKey
  rw [hmisplaced]
  have hknown := h.known name
  constructor
  · by_cases hmem : name ∈ keyNames before
    · have hnames : ∀ other, (s.keyRanges.any (·.1 == other)) =
          decide (other = name ∨ other ∈ keyNames before) := by
        intro other
        rw [h.known]
        by_cases heq : other = name <;> simp [heq, hmem]
      constructor <;>
        simp [hknown, hmem, hnames, report, standing, waiting, Chunk.role, Chunk.key?,
          afterKey]
    · constructor <;>
        simp [hknown, hmem, h.known, report, standing, waiting, Chunk.role, Chunk.key?,
          afterKey]
      intro other
      rw [Bool.or_comm, Bool.beq_comm]
      rfl
  · by_cases hmem : name ∈ keyNames before <;>
      simp [hknown, hmem, report, Place.newKey, Chunk.key?]
  · by_cases hmem : name ∈ keyNames before <;>
      simp [hknown, hmem, report, Place.newEntry, Chunk.value?, Chunk.data?]
  · by_cases hmem : name ∈ keyNames before <;>
      simp [hknown, hmem, report, Place.inDict, Place.repeatedKey, Chunk.role, Chunk.key?,
        Chunk.problems, Chunk.data?]

/-- What a dict does at a value. -/
theorem Behind.takes_value {c : Chunk} {data : Data} (hdata : c.data? = some (data, c.problems))
    (hrole : c.role = .value) (hkey : c.key? = none) :
    Takes ⟨before, c, after⟩ s (s.stepValue c data c.problems) := by
  have hvalue : c.value? = some data := by rw [Chunk.value?, hdata]; rfl
  have hpending := h.pendingKey
  unfold stepValue
  cases hw : waiting before with
  | none =>
    -- the value has no key, and leaves all as it is
    have hkeyless : standing before ≠ .key := by simp [standing_eq_key_iff, hw]
    have hstanding : standing (c :: before) = standing before := by
      cases hs : standing before <;> simp_all [standing]
    rw [hw] at hpending
    rw [hpending]
    constructor
    · constructor
      · rw [hstanding]
        exact h.expectingKey
      · rw [hstanding]
        exact h.expecting
      · rw [hstanding]
        exact h.justHad
      · rw [hstanding, nearest_cons, if_pos hrole]
        exact h.justHadWeak
      · rw [waiting_of_value hrole]
        exact hpending
      · simpa [hkey, report] using h.known
    · simp [report, Place.newKey, hkey]
    · simp [report, Place.newEntry, hw]
    · cases hs : standing before <;>
        simp_all [report, Place.inDict, h.expectingKey]
  | some k =>
    have hstanding : standing before = .key := by simp [standing_eq_key_iff, hw]
    rw [hw] at hpending
    rw [hpending]
    constructor
    · constructor <;>
        simp [report, standing, hrole, hstanding, afterItem, waiting_of_value hrole,
          hkey, h.known]
    · simp [report, Place.newKey, hkey]
    · by_cases hmem : k.1 ∈ keyNames k.2 <;> simp [report, Place.newEntry, hvalue, hw, hmem]
    · simp [report, Place.inDict, hrole, hstanding]

/-- What a dict does at a separator. -/
theorem Behind.takes_separator (weak : Bool) (r : Range) (t : TokenRange) :
    Takes ⟨before, .separator weak r t, after⟩ s
      (s.stepSeparator (Chunk.items before) (.separator weak r t) (Chunk.items after) weak) := by
  have hnearest : nearest .value (.separator weak r t :: before) =
      some (if weak then .newline else .comma) := by
    cases weak <;> simp [nearest_cons, Chunk.role]
  have hpending := h.pendingKey
  -- a separator reads no key and completes no property
  suffices hrest : Behind (.separator weak r t :: before)
      (s.stepSeparator (Chunk.items before) (.separator weak r t) (Chunk.items after) weak) ∧
      (s.stepSeparator (Chunk.items before) (.separator weak r t)
        (Chunk.items after) weak).diagnostics =
        s.diagnostics ++ (Place.inDict ⟨before, .separator weak r t, after⟩ ++ []) from
    ⟨hrest.1, by simp [stepSeparator_keyRanges, Place.newKey, Chunk.key?],
      by simp [stepSeparator_entries, Place.newEntry, Chunk.value?, Chunk.data?], hrest.2⟩
  cases hs : standing before with
  | item =>
    have hstep := step_item before weak r t after (s := s.separators)
      (by simp [h.expecting, hs]) (by simp [h.justHad, hs])
    have hwaiting : waiting before = none := by
      rw [← Option.not_isSome_iff_eq_none, ← standing_eq_key_iff, hs]
      simp
    constructor
    · constructor <;> cases weak <;>
        simp [stepSeparator, hstep, report, standing, Chunk.role, hs, hnearest, waiting, hwaiting,
          h.known, Chunk.key?]
    · cases weak <;> simp [stepSeparator, hstep, report, Place.inDict, Chunk.role, hs]
  | key =>
    -- the key goes on waiting
    have hjust : s.separators.justHad = false := by simp [h.justHad, hs]
    have hstep := step_key before weak r t after (s := s.separators)
      (by simp [h.expecting, hs]) hjust
    constructor
    · constructor <;> cases weak <;>
        simp [stepSeparator, hstep, report, standing, Chunk.role, hs, waiting, h.known, Chunk.key?,
          h.expectingKey, h.expecting, hjust, hpending]
    · cases weak <;> simp [stepSeparator, hstep, hjust, report, Place.inDict, Chunk.role, hs]
  | gap =>
    have hjust : s.separators.justHad = true := by simp [h.justHad, hs]
    have hstep := step_gap before weak r t after (s := s.separators)
      (by simp [h.expecting, hs]) hjust
    rw [h.justHadWeak hs] at hstep
    constructor
    · by_cases hcomma : nearest .value before = some .comma <;> constructor <;> cases weak <;>
        simp [stepSeparator, hstep, hcomma, report, standing, Chunk.role, hs, hnearest, waiting,
          h.known, Chunk.key?, h.expectingKey, h.expecting, hjust, hpending]
    · by_cases hcomma : nearest .value before = some .comma <;> cases weak <;>
        simp [stepSeparator, hstep, hcomma, hjust, report, Place.inDict, Chunk.role, hs]

/-- **One chunk of a dict.** -/
theorem Behind.takes (c : Chunk) :
    Takes ⟨before, c, after⟩ s (s.step (Chunk.items before) ⟨c, c.data?⟩ (Chunk.items after)) := by
  rcases c.role_cases with ⟨name, nameRange, r, t, rfl⟩ | ⟨weak, r, t, rfl⟩ |
    ⟨data, hdata, hrole, hkey⟩
  · exact h.takes_key after name nameRange r t
  · exact h.takes_separator after weak r t
  · rw [hdata]
    exact h.takes_value after hdata hrole hkey

/-- **The chunks of a dict.** -/
theorem Behind.run (cs : List Chunk) :
    let s' := s.run (Chunk.items before) (Chunk.items cs)
    Behind (cs.reverse ++ before) s' ∧
      s'.keyRanges = s.keyRanges ++ (placesFrom before cs).flatMap Place.newKey ∧
      s'.entries = s.entries ++ (placesFrom before cs).flatMap Place.newEntry ∧
      s'.diagnostics = s.diagnostics ++
        (placesFrom before cs).flatMap fun p => p.inDict ++ p.chunk.problems := by
  induction cs generalizing before s with
  | nil => simpa [Chunk.items, DictState.run, placesFrom] using h
  | cons c cs ih =>
    have hfirst := h.takes cs c
    obtain ⟨hlast, hkeys, hentries, hfound⟩ := ih hfirst.behind
    rw [hfirst.keyRanges, append_assoc] at hkeys
    rw [hfirst.entries, append_assoc] at hentries
    rw [hfirst.diagnostics, append_assoc] at hfound
    rw [reverse_cons, append_assoc]
    exact ⟨hlast, hkeys, hentries, hfound⟩

end Step

end DictState

/-- **Dicts, place by place.** -/
theorem dict_eq (cs : List Chunk) :
    dict (Chunk.items cs) =
      (.dict ((places cs).flatMap Place.newEntry) ((places cs).flatMap Place.newKey),
        (places cs).flatMap (fun p => p.inDict ++ p.chunk.problems) ++ unfinished cs) := by
  obtain ⟨hbehind, hkeys, hentries, hfound⟩ := DictState.behind_start.run cs
  rw [Chunk.items] at hbehind hkeys hentries hfound
  have hdangling : (DictState.run {} [] (Chunk.items cs)).separators.dangling =
      decide (standing cs.reverse = .key) := by
    rw [dangling, hbehind.expecting, hbehind.justHad, append_nil]
    cases standing cs.reverse <;> simp
  rw [dict, hdangling, hkeys, hentries, hfound]
  simp [places, unfinished]

/-! ### Blocks -/

theorem mem_of_mem_places {cs : List Chunk} {p : Place} (hp : p ∈ places cs) : p.chunk ∈ cs := by
  rw [mem_places.1 hp]
  simp

/-- The values of a dict are values of its chunks, in order. -/
theorem map_snd_newEntry_sublist (before cs : List Chunk) :
    (((placesFrom before cs).flatMap Place.newEntry).map (·.2)).Sublist
      (cs.filterMap Chunk.value?) := by
  induction cs generalizing before with
  | nil => exact .slnil
  | cons c cs ih =>
    have hentry : ((Place.mk before c cs).newEntry.map (·.2)).Sublist c.value?.toList := by
      unfold Place.newEntry
      split
      next hvalue _ =>
        rw [hvalue]
        split <;> simp
      next => simp
    have hvalues : (c :: cs).filterMap Chunk.value? =
        c.value?.toList ++ cs.filterMap Chunk.value? := by
      cases h : c.value? <;> simp [h]
    rw [placesFrom, flatMap_cons, map_append, hvalues]
    exact hentry.append (ih (c :: before))

end Sequence

/-- What is read of a block are some of its values, in their order. -/
theorem Chunk.children_contents_sublist (kind : BlockKind) (cs : List Chunk) :
    (contents kind (items cs)).1.children.Sublist (cs.filterMap value?) := by
  cases kind with
  | dict =>
    rw [contents, dict_eq]
    exact map_snd_newEntry_sublist [] cs
  | array | tuple => simp [contents, list_eq, Contents.children]

end TypedNotation
