import Mathlib.Computability.RegularExpressions
import TypedNotation.Proofs.SequenceFindings

/-!
# The grammar of blocks

A dict is read without an error of its own exactly if its chunks form a list of properties: a key
and a value each, with separators between any two of them and as many as wanted around them all, no
comma directly behind a comma, and no name twice. The first part is a regular expression over the
roles of chunks, `Sequence.dictGrammar`.

Each of the three standings of a dict has a language, the ways in which the chunks may go on from
there. By the laws of Kleene algebras these satisfy one equation each (`language_gap_eq`,
`language_item_eq`), with all words on the right beginning in a role, so a word is followed role by
role (`accepts_iff_mem_language`), and an error-free dict place by place (`forall_inDict_iff`).
-/

namespace TypedNotation

namespace Sequence

open Computability Sequence.Standing Chunk Place

/-! ### The expression -/

/-- A comma or a newline. -/
def separatorGrammar : RegularExpression Role :=
  .char .comma + .char .newline

/-- A key and its value. -/
def propertyGrammar : RegularExpression Role :=
  .char .key * .char .value

/-- Properties with separators between them and around them. -/
def dictGrammar : RegularExpression Role :=
  separatorGrammar.star *
    (1 + propertyGrammar * (separatorGrammar * separatorGrammar.star * propertyGrammar).star) *
    separatorGrammar.star

/-! ### The languages of the standings -/

section KleeneAlgebra

variable {α : Type} [KleeneAlgebra α]

theorem kstar_mul_eq_add (a b : α) : a∗ * b = b + a * (a∗ * b) := by
  calc a∗ * b = (1 + a * a∗) * b := by rw [one_add_mul_kstar]
    _ = b + a * (a∗ * b) := by rw [add_mul, one_mul, mul_assoc]

/-- Separators at the end of a gap belong to the items before them, or to those at its start. -/
theorem kstar_mul_one_add_mul_kstar (s p x : α) :
    s∗ * (1 + p * x) * s∗ = s∗ * (1 + p * (x * s∗)) := by
  rw [mul_add, add_mul, mul_one, kstar_mul_kstar, mul_add, mul_one]
  simp only [mul_assoc]

/-- Items that begin with separators, and separators behind them: there is nothing, or a separator
comes first. -/
theorem kstar_mul_kstar_eq_one_add (s p : α) :
    (s * s∗ * p)∗ * s∗ = 1 + s * (s∗ * (1 + p * ((s * s∗ * p)∗ * s∗))) := by
  calc (s * s∗ * p)∗ * s∗ = s∗ + s * s∗ * p * ((s * s∗ * p)∗ * s∗) := kstar_mul_eq_add _ _
    _ = 1 + s * s∗ + s * s∗ * p * ((s * s∗ * p)∗ * s∗) := by rw [one_add_mul_kstar]
    _ = 1 + s * (s∗ * (1 + p * ((s * s∗ * p)∗ * s∗))) := by
      simp only [mul_add, mul_one, mul_assoc, add_assoc]

end KleeneAlgebra

/-- How the chunks of a dict may go on behind a complete property. -/
def itemLanguage : Language Role :=
  (separatorGrammar * separatorGrammar.star * propertyGrammar).star.matches' *
    separatorGrammar.star.matches'

/-- How the chunks of a dict may go on from a standing. -/
def language : Standing → Language Role
  | .gap => dictGrammar.matches'
  | .key => {[.value]} * itemLanguage
  | .item => itemLanguage

theorem language_gap_eq_kstar_mul :
    language .gap = separatorGrammar.matches'∗ * (1 + propertyGrammar.matches' * language .item) :=
  kstar_mul_one_add_mul_kstar _ _ _

/-- In a gap: the end, a separator or a key. -/
theorem language_gap_eq :
    language .gap = 1 + ({[.comma]} + {[.newline]}) * language .gap + {[.key]} * language .key := by
  have hkey : propertyGrammar.matches' * language .item = {[.key]} * language .key :=
    mul_assoc _ _ _
  conv_lhs =>
    rw [language_gap_eq_kstar_mul, kstar_mul_eq_add, ← language_gap_eq_kstar_mul, hkey,
      add_right_comm]
  rfl

/-- Behind a property: the end or a separator. -/
theorem language_item_eq :
    language .item = 1 + ({[.comma]} + {[.newline]}) * language .gap := by
  rw [language_gap_eq_kstar_mul]
  exact kstar_mul_kstar_eq_one_add _ _

theorem cons_mem_singleton_mul {α : Type} {a b : α} {w : List α} {l : Language α} :
    a :: w ∈ ({[b]} : Language α) * l ↔ a = b ∧ w ∈ l := by
  rw [Language.mem_mul]
  constructor
  · rintro ⟨_, rfl, v, hv, h⟩
    obtain ⟨rfl, rfl⟩ := List.cons.inj h
    exact ⟨rfl, hv⟩
  · rintro ⟨rfl, hw⟩
    exact ⟨[a], rfl, w, hw, rfl⟩

theorem nil_notMem_singleton_mul {α : Type} {b : α} {l : Language α} :
    [] ∉ ({[b]} : Language α) * l := by
  rw [Language.mem_mul]
  rintro ⟨_, rfl, v, -, h⟩
  cases h

/-! ### Following a word -/

/-- The standing behind a chunk of a role that may come next. -/
def Standing.next : Standing → Role → Option Standing
  | .gap, .key => some .key
  | .key, .value => some .item
  | .gap, .comma | .gap, .newline | .item, .comma | .item, .newline => some .gap
  | _, _ => none

/-- Whether the chunks of a dict may go on with some roles to the end. -/
def Standing.accepts : Standing → List Role → Bool
  | st, [] => st != .key
  | st, r :: rs => (st.next r).any (·.accepts rs)

/-- A dict is followed role by role. -/
theorem accepts_iff_mem_language (st : Standing) (rs : List Role) :
    st.accepts rs = true ↔ rs ∈ language st := by
  induction rs generalizing st with
  | nil =>
    cases st with
    | gap =>
      rw [language_gap_eq, Language.mem_add, Language.mem_add]
      simp [accepts]
    | key => simp [accepts, language, nil_notMem_singleton_mul]
    | item =>
      rw [language_item_eq, Language.mem_add]
      simp [accepts]
  | cons r rs ih =>
    cases st with
    | gap =>
      rw [language_gap_eq, add_mul, Language.mem_add, Language.mem_add, Language.mem_add]
      cases r <;> simp [accepts, next, cons_mem_singleton_mul, ih]
    | key =>
      rw [show language .key = {[.value]} * language .item from rfl]
      cases r <;> simp [accepts, next, cons_mem_singleton_mul, ih]
    | item =>
      rw [language_item_eq, add_mul, Language.mem_add, Language.mem_add]
      cases r <;> simp [accepts, next, cons_mem_singleton_mul, ih]

/-! ### Following a dict -/

/-- Behind a complete property stands a value. -/
theorem head_of_standing_item {before : List Chunk} (h : standing before = .item) :
    before.head?.map role = some .value := by
  cases before with
  | nil => simp [standing] at h
  | cons c before =>
    cases hrole : c.role with
    | value => simp [hrole]
    | key => simp [standing, hrole] at h
    | comma | newline => simp only [standing, hrole] at h; split at h <;> cases h

/-- A chunk that may come next leads to the standing behind it. -/
theorem standing_cons_of_next {c : Chunk} {before : List Chunk} {st : Standing}
    (h : (standing before).next c.role = some st) : standing (c :: before) = st := by
  cases hs : standing before <;> cases hrole : c.role <;>
    simp_all [standing, next]

/-- Whether two roles are not both commas. -/
def NotBothCommas (a b : Role) : Prop :=
  ¬(a = .comma ∧ b = .comma)

namespace Place

theorem isError_of_mem_needless {p : Place} {d : Diagnostic} (h : d ∈ p.needless) :
    d.isError = false := by
  unfold needless at h
  split at h
  · rw [List.mem_singleton.1 h]
    rfl
  · cases h

/-- No list ends where a value is missing. -/
theorem kind_of_mem_inList {p : Place} {d : Diagnostic} (h : d ∈ p.inList) :
    d.kind ≠ .unexpectedEndOfInput := by
  have hsingle : ∀ e : Diagnostic, d ∈ [e] → e.kind ≠ .unexpectedEndOfInput →
      d.kind ≠ .unexpectedEndOfInput := by
    intro e he hkind
    rwa [List.mem_singleton.1 he]
  unfold inList needless at h
  split at h
  · exact hsingle _ h (by rintro ⟨⟩)
  · split at h
    · exact hsingle _ h (by rintro ⟨⟩)
    · cases h
  · split at h
    · exact hsingle _ h (by rintro ⟨⟩)
    · split at h
      · exact hsingle _ h (by rintro ⟨⟩)
      · cases h
  · cases h

/-- A key is no error if its name is new. -/
theorem forall_repeatedKey_iff {p : Place} :
    (∀ d ∈ p.repeatedKey, d.isError = false) ↔ ∀ k ∈ p.chunk.key?, k.1 ∉ keyNames p.before := by
  cases hkey : p.chunk.key? with
  | none => simp [repeatedKey, hkey]
  | some k =>
    have herror : (duplicateKey p.chunk k.1).isError = true := rfl
    by_cases hmem : k.1 ∈ keyNames p.before <;> simp [repeatedKey, hkey, hmem, herror]

end Place

/-- **A place without an error** of its own: the chunk may come next, it is not a comma directly
behind a comma, and not a key that was written before. -/
theorem forall_inDict_iff {p : Place}
    (hhead : standing p.before = .gap → p.before.head?.map role ≠ some .value) :
    (∀ d ∈ p.inDict, d.isError = false) ↔
      ((standing p.before).next p.chunk.role).isSome = true ∧
        (∀ r ∈ p.before.head?.map role, NotBothCommas r p.chunk.role) ∧
        ∀ k ∈ p.chunk.key?, k.1 ∉ keyNames p.before := by
  have hvalue : (expectedValue p.chunk).isError = true := rfl
  have hseparator : (expectedSeparator (items p.before).head? p.chunk).isError = true := rfl
  have hkey : (expectedKey p.chunk).isError = true := rfl
  have hunfixed : (expectedSeparatorUnfixed p.chunk).isError = true := rfl
  have hstray : (straySeparator p.chunk).isError = true := rfl
  have hneedless : ∀ d ∈ p.needless, d.isError = false := fun d => isError_of_mem_needless
  cases hrole : p.chunk.role with
  | key =>
    rw [← forall_repeatedKey_iff]
    cases hs : standing p.before <;>
      simp [inDict, misplacedKey, hrole, hs, next, NotBothCommas, hvalue,
        hseparator]
  | value =>
    have hnone : p.chunk.key? = none := key?_of_role_ne (by simp [hrole])
    cases hs : standing p.before <;>
      simp [inDict, hrole, hs, next, NotBothCommas, hkey, hunfixed, hnone]
  | newline =>
    have hnone : p.chunk.key? = none := key?_of_role_ne (by simp [hrole])
    cases hs : standing p.before with
    | key => simp [inDict, hrole, hs, next, hvalue]
    | _ => simpa [inDict, hrole, hs, next, NotBothCommas, hnone] using hneedless
  | comma =>
    have hnone : p.chunk.key? = none := key?_of_role_ne (by simp [hrole])
    cases hs : standing p.before with
    | key => simp [inDict, hrole, hs, next, hvalue]
    | item =>
      -- the chunk before is a value, and no comma
      have hlast := head_of_standing_item hs
      simpa [inDict, hrole, hs, next, NotBothCommas, hnone, hlast] using hneedless
    | gap =>
      have hnearest : nearest .value p.before = some .comma ↔
          p.before.head?.map role = some .comma := by
        cases hb : p.before with
        | nil => simp
        | cons c before =>
          have hne : c.role ≠ .value := by simpa [hb] using hhead hs
          simp [nearest_cons, hne]
      by_cases hcomma : p.before.head?.map role = some .comma
      · simp [inDict, hrole, hs, hnearest, hcomma, hstray, NotBothCommas]
      · have hapart : ∀ r ∈ p.before.head?.map role, NotBothCommas r .comma := by
          rintro r hr ⟨rfl, -⟩
          exact hcomma hr
        simp only [inDict, hrole, hs, hnearest, hcomma, if_false]
        exact iff_of_true hneedless ⟨rfl, hapart, by simp [hnone]⟩

theorem forall_unfinished_iff {cs : List Chunk} :
    (∀ d ∈ unfinished cs, d.isError = false) ↔ standing cs.reverse ≠ .key := by
  have herror : (missingLast (items cs)).isError = true := rfl
  by_cases h : standing cs.reverse = .key <;> simp [unfinished, h, herror]

theorem isChain_toList_append_cons {α : Type} {R : α → α → Prop} {a : Option α} {b : α}
    {l : List α} : (a.toList ++ b :: l).IsChain R ↔ (∀ x ∈ a, R x b) ∧ (b :: l).IsChain R := by
  cases a <;> simp [List.isChain_cons_cons]

/-- **A dict without an error** of its own, from some place on. The chunks before have led to their
standing without a value that is out of place, and no name among them is written twice. -/
theorem forall_placesFrom_iff (cs : List Chunk) {before : List Chunk}
    (hhead : standing before = .gap → before.head?.map role ≠ some .value)
    (hnames : (keyNames before).Nodup) :
    ((∀ p ∈ placesFrom before cs, ∀ d ∈ p.inDict, d.isError = false) ∧
        standing (cs.reverse ++ before) ≠ .key) ↔
      (standing before).accepts (cs.map role) = true ∧
        ((before.head?.map role).toList ++ cs.map role).IsChain NotBothCommas ∧
        (keyNames before ++ keyNames cs).Nodup := by
  induction cs generalizing before with
  | nil =>
    have hchain : (before.head?.map role).toList.IsChain NotBothCommas := by
      cases before.head?.map role <;> simp
    simp [placesFrom, accepts, hchain, hnames]
  | cons c cs ih =>
    have hplace := forall_inDict_iff (p := ⟨before, c, cs⟩) hhead
    have hperm : (keyNames before ++ keyNames (c :: cs)).Nodup ↔
        (keyNames (c :: before) ++ keyNames cs).Nodup := by
      rw [keyNames_cons, keyNames_cons, ← List.append_assoc]
      exact (List.perm_append_comm.append_right _).nodup_iff
    rw [placesFrom, List.forall_mem_cons, hplace, hperm, List.map_cons, isChain_toList_append_cons,
      List.reverse_cons, List.append_assoc, accepts]
    cases hnext : (standing before).next c.role with
    | none => simp
    | some st =>
      -- the chunk may come next, and the rest is read from the standing behind it
      have hstanding : standing (c :: before) = st := standing_cons_of_next hnext
      have hhead' : standing (c :: before) = .gap → (c :: before).head?.map role ≠ some
          .value := by
        intro hgap hvalue
        have hrole : c.role = .value := by simpa using hvalue
        rw [hgap] at hstanding
        subst hstanding
        cases hs : standing before <;> simp [next, hs, hrole] at hnext
      have hfresh : (∀ k ∈ c.key?, k.1 ∉ keyNames before) ↔ (keyNames (c :: before)).Nodup := by
        cases hkey : c.key? <;> simp [hkey, hnames]
      by_cases hnodup : (keyNames (c :: before)).Nodup
      · have hrest := ih hhead' hnodup
        rw [hstanding] at hrest
        simp only [hfresh, hnodup, Option.isSome_some, Option.any_some, and_true, true_and]
        rw [and_assoc, and_assoc]
        exact (and_congr_right fun _ => hrest).trans and_left_comm
      · have hnot : ¬(keyNames (c :: before) ++ keyNames cs).Nodup := fun h =>
          hnodup h.of_append_left
        simp only [hfresh, hnodup, hnot, and_false, false_and]

/-- **Blocks follow their grammars.** Whatever chunks stand in a block, an array or a tuple takes
all values in order. Apart from what is found inside the values, it reports just what `Place.inList`
says of each place: each key; each value whose nearest chunk before it, keys apart, is a value; each
comma whose nearest chunk before it, keys apart, is a comma; and of the other commas those that have
a newline or the edge of the block on one side, commas apart. It never misses a value at its end.

Apart from what is found inside the values, a dict reports what `Place.inDict` says of each place,
and at its end a key that still waits. None of this is an error exactly if the chunks match the
grammar of dicts, no comma stands directly behind a comma, and no key is written twice. -/
theorem blocks_follow_their_grammars (cs : List Chunk) :
    (list (items cs)).1 = cs.filterMap value? ∧
    (list (items cs)).2 = (places cs).flatMap (fun p => p.inList ++ p.chunk.problems) ∧
    (∀ p ∈ places cs, ∀ d ∈ p.inList, d.kind ≠ .unexpectedEndOfInput) ∧
    (dict (items cs)).2 =
      (places cs).flatMap (fun p => p.inDict ++ p.chunk.problems) ++ unfinished cs ∧
    ((∀ d ∈ (places cs).flatMap inDict ++ unfinished cs, d.isError = false) ↔
      cs.map role ∈ dictGrammar.matches' ∧
        (cs.map role).IsChain NotBothCommas ∧ (keyNames cs).Nodup) := by
  refine ⟨by rw [list_eq], by rw [list_eq], fun p _ d hd => kind_of_mem_inList hd,
    by rw [dict_eq], ?_⟩
  have hplaces := @forall_placesFrom_iff cs [] (by simp) (by simp)
  rw [accepts_iff_mem_language] at hplaces
  simp only [List.forall_mem_append, List.forall_mem_flatMap, forall_unfinished_iff]
  simpa [places, standing, language] using hplaces

end Sequence

end TypedNotation
