import TypedNotation.Proofs.DataPlaces
import TypedNotation.Proofs.RoundTrip

/-!
# Canonical forms

The data of a document can be written again, whatever was found in it: the scanner gives out no key
and no tag that could not be written (`Document.spelled_tokensOf`), numbers out of range were
replaced by finite ones, and a key that was written before was dropped
(`Document.isEncodable_of_parse`).

What is written, the *canonical form*, is a document without findings and with the same value, so
its canonical form is itself.
-/

namespace TypedNotation

open List Value

/-! ### Names that the scanner finds -/

/-- The texts of keys and tags. -/
def Category.Spells (text : List Char) : Category → Prop
  | .key => isIdentifier (String.ofList text) = true
  | .tag => ∃ name, text = '#' :: name ∧ isTagName (String.ofList name) = true
  | _ => True

namespace Scanner

/-- The text of a step is one of its category. -/
def Spelled (c : Char) (cs : List Char) (step : Step) : Prop :=
  step.category.Spells (c :: cs.take step.extra)

/-- A lexeme is spelled as its category asks. -/
theorem Takes.spells {s next : Scanner} {x : Lexeme} (h : s.Takes x next) :
    x.category.Spells x.text := by
  cases h with
  | tag hne hname =>
    refine ⟨_, rfl, ?_⟩
    simpa [isTagName, hne] using hname
  | key hc hown => simpa [Category.Spells, isIdentifier] using ⟨hc, hown⟩
  | number | negative => dsimp only; split <;> exact trivial
  | _ => exact trivial

theorem Finds.spelled {s : Scanner} {c : Char} {cs : List Char} {t : Step} (h : s.Finds c cs t) :
    Spelled c cs t := by
  cases h with
  | lexeme _ h => exact h.takes.spells
  | blank | illegal | badEscape => exact trivial

/-- So is every lexeme of a line. -/
theorem spells_of_mem_scan (s : Scanner) (cs : List Char) :
    ∀ x ∈ (s.scan cs).1, x.category.Spells x.text := by
  fun_induction scan s cs with
  | case1 => simp
  | case2 s c cs t more last h ih =>
    rw [h] at ih
    exact forall_mem_cons.2 ⟨(s.finds_step c cs).spelled, ih⟩

end Scanner

/-- A key is an identifier, and a tag is a word behind its mark. -/
structure Token.Spelled (t : Token) : Prop where
  key : t.kind = .key → isIdentifier t.text = true
  tag : t.kind = .tag → isTagName t.tagName = true

theorem Lexeme.spelled_token (line column : Nat) {x : Lexeme} (h : x.category.Spells x.text) :
    (x.token line column).Spelled := by
  refine ⟨fun hkind => ?_, fun hkind => ?_⟩
  · have hkey : x.category = .key := by
      cases hc : x.category <;> simp_all [token, Category.tokenKind]
    rw [hkey] at h
    exact h
  · have htag : x.category = .tag := by
      cases hc : x.category <;> simp_all [token, Category.tokenKind]
    rw [htag] at h
    obtain ⟨name, htext, hname⟩ := h
    have hmark := dropWhile_mark hname
    rw [String.toList_ofList] at hmark
    have htagName : (x.token line column).tagName = String.ofList name := by
      rw [Token.tagName, token, String.toList_ofList, htext, hmark]
    rwa [htagName]

theorem Lexeme.spelled_tokensFrom (line column : Nat) {xs : List Lexeme}
    (h : ∀ x ∈ xs, x.category.Spells x.text) : ∀ t ∈ tokensFrom line column xs, t.Spelled := by
  induction xs generalizing column with
  | nil => simp
  | cons x xs ih =>
    obtain ⟨hx, hxs⟩ := forall_mem_cons.1 h
    exact forall_mem_cons.2 ⟨spelled_token line column hx, ih _ hxs⟩

theorem LineState.spelled_tokensOfLines (s : LineState) (line : Nat) (lines : List (List Char)) :
    ∀ t ∈ s.tokensOfLines line lines, t.Spelled := by
  induction lines generalizing s line with
  | nil => simp [tokensOfLines]
  | cons text rest ih =>
    intro t ht
    rcases mem_append.1 ht with ht | ht
    · rcases mem_append.1 ht with ht | ht
      · exact Lexeme.spelled_tokensFrom line 0 (Scanner.spells_of_mem_scan ⟨s, false⟩ text) t ht
      · rw [mem_singleton.1 ht]
        exact ⟨by simp [Token.newline], by simp [Token.newline]⟩
    · exact ih _ _ t ht

/-- The keys and the tags of a document can be written. -/
theorem Document.spelled_tokensOf (text : String) : ∀ t ∈ tokensOf text, t.Spelled := by
  rw [tokensOf_eq]
  exact LineState.spelled_tokensOfLines {} 0 (linesOf text)

/-! ### Values that can be written -/

/-- A float that is read is finite. -/
theorem Literal.isFinite_of_read {l : Literal} {t : Token} {x : Double}
    (h : (l.read t).1 = .float x) : x.isFinite = true := by
  unfold read at h
  dsimp only at h
  split at h
  next => cases h
  next => split at h <;> cases h
  next =>
    split at h
    next y hy =>
      obtain rfl := Scalar.float.inj h
      unfold float? at hy
      split at hy
      next z _ =>
        split at hy
        next hfinite => exact Option.some.inj hy ▸ hfinite
        next => cases hy
      next => cases hy
    next =>
      obtain rfl := Scalar.float.inj h
      generalize (_ == some '-') = negative
      cases negative <;> decide

namespace Value

/-- Properties can be written if each of them can. -/
theorem entriesEncodable_iff {entries : List (String × Value)} :
    entriesEncodable entries = true ↔
      ∀ e ∈ entries, isIdentifier e.1 = true ∧ e.2.isEncodable = true := by
  induction entries with
  | nil => simp [entriesEncodable]
  | cons e rest ih => simp [entriesEncodable, ih]

/-- Elements can be written if each of them can. -/
theorem itemsEncodable_iff {items : List Value} :
    itemsEncodable items = true ↔ ∀ v ∈ items, v.isEncodable = true := by
  induction items with
  | nil => simp [itemsEncodable]
  | cons v rest ih => simp [itemsEncodable, ih]

end Value

namespace Data

variable {ts : List Token}

theorem isBlock_contentsValue (contents : Contents Data) :
    (contentsValue contents).isBlock = true := by
  cases contents <;> rfl

/-- A block can be written if its parts can: its keys are tokens, and they are different. -/
theorem isEncodable_contentsValue (hts : ∀ t ∈ ts, t.Spelled) {b : Block Data} (hb : b.Sits ts)
    (hparts : ∀ d ∈ b.contents.children, d.value.isEncodable = true) :
    (contentsValue b.contents).isEncodable = true := by
  have hitems : ∀ items : List Data, (∀ d ∈ items, d.value.isEncodable = true) →
      itemsEncodable (itemValues items) = true := by
    intro items h
    rw [itemsEncodable_iff, itemValues_eq]
    simpa using h
  cases hcontents : b.contents with
  | dict entries keyRanges =>
    rw [hcontents] at hparts
    have hkeys := hb.keys entries keyRanges hcontents
    have hidentifier : ∀ e ∈ entries, isIdentifier e.1 = true := by
      intro e he
      obtain ⟨⟨name, r⟩, hmem, hname⟩ :=
        mem_map.1 (hkeys.placed e.1 (mem_map_of_mem he))
      dsimp only at hname
      obtain ⟨i, hkey⟩ := hkeys.key name r hmem
      obtain ⟨t, ht, hkind, htext, -⟩ := hkey.token
      rw [← hname, ← htext]
      exact (hts t (mem_of_getElem? ht)).key hkind
    have hnames : (entryValues entries).map (·.1) = entries.map (·.1) := by
      rw [entryValues_eq, map_map]
      rfl
    rw [contentsValue, isEncodable, hnames, Bool.and_eq_true, decide_eq_true_eq,
      entriesEncodable_iff, entryValues_eq]
    refine ⟨hkeys.entries_nodup, forall_mem_map.2 fun e he => ⟨hidentifier e he, ?_⟩⟩
    exact hparts e.2 (mem_map_of_mem he)
  | array items | tuple items =>
    rw [hcontents] at hparts
    exact hitems items hparts

/-- Data whose nodes sit where the tokens say can be written. -/
theorem isEncodable_value (hts : ∀ t ∈ ts, t.Spelled) {d : Data} (h : ∀ n ∈ d.nodes, n.Sits ts) :
    d.value.isEncodable = true := by
  induction d using induction_on_parts with
  | h d ih =>
    have hblock : ∀ b, d.innerBlock? = some b → (contentsValue b.contents).isEncodable = true := by
      intro b hb
      have hsits := (h d d.self_mem_nodes).innerBlock hb
      refine isEncodable_contentsValue hts hsits fun part hpart => ?_
      exact ih b hb part hpart fun n hn => h n (mem_nodes_of_mem_children hb hpart hn)
    cases h d d.self_mem_nodes with
    | @literal i t l ht hkind =>
      cases hscalar : (l.read t).1 with
      | float x => exact Literal.isFinite_of_read hscalar
      | _ => rfl
    | string hspans => rfl
    | unit ht hkind => exact (hts _ (mem_of_getElem? ht)).tag hkind
    | @block b hb => exact hblock b rfl
    | @payload i t b r ht hkind hlt hb hspans =>
      have htag := (hts t (mem_of_getElem? ht)).tag hkind
      simp [value, isEncodable, htag, isBlock_contentsValue, hblock b rfl]

end Data

/-! ### The canonical form -/

namespace Document

/-- A document that has data is written again in one way, whatever its text. -/
def canonical? (text : String) : Option String :=
  (value? text).map source

/-- The value of a text can be written. -/
theorem isEncodable_of_parse {text : String} {d : Data} (h : (parse text).data = some d) :
    d.value.isEncodable = true :=
  Data.isEncodable_value (spelled_tokensOf text) (sits_of_mem_nodes h)

/-- What is written for a value is a document of that value in which nothing is found. -/
theorem exists_parse_source {v : Value} (h : v.isEncodable = true) :
    ∃ d, (parse v.source).data = some d ∧ d.value = v ∧
      (parse v.source).report.diagnostics = [] := by
  obtain ⟨c, r, t, ⟨d, hdata, hvalue, -⟩, hchunks⟩ := exists_ofTokens_source h
  refine ⟨d, ?_, hvalue, ?_⟩
  · simp [parse, hchunks, ofChunks_of_data hdata]
  · simp [parse, hchunks, ofChunks_of_data hdata]

/-- **Every document that has data has a canonical form**, be it without findings or not. The value
of its data can be written. What is written is a document in which nothing is found and which has
the same value, so that it is its own canonical form. -/
theorem parsed_data_has_canonical_form {text : String} {d : Data} (h : (parse text).data = some d) :
    d.value.isEncodable = true ∧
      (∃ d', (parse d.value.source).data = some d' ∧ d'.value = d.value) ∧
      (parse d.value.source).report.diagnostics = [] ∧
      canonical? text = some d.value.source ∧
      canonical? d.value.source = some d.value.source := by
  have hencodable := isEncodable_of_parse h
  obtain ⟨d', hdata, hvalue, hdiagnostics⟩ := exists_parse_source hencodable
  refine ⟨hencodable, ⟨d', hdata, hvalue⟩, hdiagnostics, ?_, ?_⟩
  · rw [canonical?, value?, h]
    rfl
  · rw [canonical?, value?, hdata, Option.map_some, Option.map_some, hvalue]

/-- A number out of range, a stray comma, a key in a list, a string with a bad escape, a key that is
written twice and one without a value: what is left has a canonical form. -/
theorem parsed_data_has_canonical_form_of_recovered :
    let text := "\x7ba: [1e999,, b: \"\\q\"], a: 2, c: \x7d"
    ∃ d, (parse text).data = some d ∧ (parse text).report.diagnostics ≠ [] ∧
      d.value.isEncodable = true ∧
      (∃ d', (parse d.value.source).data = some d' ∧ d'.value = d.value) ∧
      (parse d.value.source).report.diagnostics = [] ∧
      canonical? text = some d.value.source ∧
      canonical? d.value.source = some d.value.source := by
  intro text
  have hsome : (parse text).data.isSome = true ∧ (parse text).report.diagnostics.length ≠ 0 := by
    decide +kernel
  obtain ⟨d, hd⟩ := Option.isSome_iff_exists.1 hsome.1
  refine ⟨d, hd, fun hnil => ?_, parsed_data_has_canonical_form hd⟩
  rw [hnil] at hsome
  exact hsome.2 rfl

end Document

end TypedNotation
