import TypedNotation.Proofs.Assembly
import TypedNotation.Proofs.BuilderSteps
import TypedNotation.Proofs.ScannerSteps

/-!
# Nesting, scanned and built

The scanner of lines and the builder of chunks both keep track of the open blocks. All that passes
from one to the other is a token, with its kind and a depth.

`Scanner.Moves s t next` says all that a token tells of the scanner that found it, and
`Scanner.Finds.leads` that every step of the scanner is such a move. The two are *in step* when they
have the same blocks open and agree on strings and keys (`InStep`). A move keeps them in step
(`InStep.step`), and the token is then one that the builder is made for (`InStep.faithful`).

A `Visit` is a token with the states of the grammar around it. The visits of a document are a walk
of the scanner (`Document.walk_visits`), so by induction on the walk:

* the builder has the blocks open that the grammar has, before and after every token;
* a closing bracket ends the same blocks for both, though the builder only has the depths of two
  brackets to go by (`Outline.after_closing`);
* the findings about nesting can be told from the states of the grammar alone
  (`Document.exists_diagnostics_ofTokens`).
-/

namespace TypedNotation

open List Chunk.Builder LineState Diagnostic Chunk

namespace TokenKind

/-- The kinds that leave blocks, strings and keys alone. -/
def isItem : TokenKind → Bool
  | comma | tag | literal _ | invalid _ => true
  | _ => false

end TokenKind

/-! ### Moves of the scanner -/

namespace Scanner

/-- From a state of the scanner a token leads to a next one. -/
inductive Moves (s : Scanner) (t : Token) : Scanner → Prop
  | ignored {mode : Mode} {afterKey : Bool} (hs : s.mode ≠ .string) (ht : t.kind = .ignored)
      (hmode : mode ≠ .string) (hkey : afterKey = true → s.afterKey = true) :
      Moves s t ⟨⟨s.blocks, mode⟩, afterKey⟩
  | newline (ht : t.kind = .newline) : Moves s t ⟨⟨s.blocks, s.mode⟩, false⟩
  | item (hs : s.mode ≠ .string) (ht : t.kind.isItem = true) : Moves s t ⟨⟨s.blocks, .plain⟩, false⟩
  | key (hs : s.mode ≠ .string) (ht : t.kind = .key) : Moves s t ⟨⟨s.blocks, .plain⟩, true⟩
  | colon (hs : s.mode ≠ .string) (ht : t.kind = .colon) (hkey : s.afterKey = true) :
      Moves s t ⟨⟨s.blocks, .plain⟩, false⟩
  | openQuote (hs : s.mode ≠ .string) (ht : t.kind = .quote .opening) :
      Moves s t ⟨⟨s.blocks, .string⟩, false⟩
  | text (hs : s.mode = .string) (ht : Builder.keepsString t = true) :
      Moves s t ⟨⟨s.blocks, .string⟩, s.afterKey⟩
  | closeQuote (hs : s.mode = .string) (ht : t.kind = .quote .closing) :
      Moves s t ⟨⟨s.blocks, .plain⟩, s.afterKey⟩
  | openBlock {kind : BlockKind} (hs : s.mode ≠ .string) (ht : t.kind = .bracket kind .opening)
      (hdepth : t.depth = s.blocks.length + 1) : Moves s t ⟨⟨kind :: s.blocks, .plain⟩, false⟩
  /-- A closing bracket ends the innermost block of its kind, whatever is open inside of it. -/
  | closeBlock {kind : BlockKind} {skipped outer : List BlockKind} (hs : s.mode ≠ .string)
      (ht : t.kind = .bracket kind .closing) (hblocks : s.blocks = skipped ++ kind :: outer)
      (hskipped : kind ∉ skipped) (hdepth : t.depth = outer.length + 1) :
      Moves s t ⟨⟨outer, .plain⟩, false⟩

namespace Moves

variable {s next : Scanner} {t : Token}

/-- A closing bracket ends the nearest block of its kind. -/
theorem of_closing {kind : BlockKind} (h : s.Moves t next) (ht : t.kind = .bracket kind .closing) :
    ∃ skipped outer, s.mode ≠ .string ∧ s.blocks = skipped ++ kind :: outer ∧ kind ∉ skipped ∧
      t.depth = outer.length + 1 ∧ next.blocks = outer := by
  cases h with
  | @closeBlock kind' skipped outer hs ht' hblocks hskipped hdepth =>
    obtain rfl : kind' = kind := by simpa [ht] using ht'.symm
    exact ⟨skipped, outer, hs, hblocks, hskipped, hdepth, rfl⟩
  | _ => simp_all [TokenKind.isItem, Builder.keepsString]

/-- A colon stands behind a key only. -/
theorem of_colon (h : s.Moves t next) (ht : t.kind = .colon) : s.afterKey = true := by
  cases h with
  | colon _ _ hkey => exact hkey
  | _ => simp_all [TokenKind.isItem, Builder.keepsString]

/-- Text of a string stands inside one. -/
theorem of_stringText {escape : Bool} (h : s.Moves t next) (ht : t.kind = .stringText escape) :
    s.mode = .string := by
  cases h with
  | text hs _ => exact hs
  | _ => simp_all [TokenKind.isItem]

/-- A closing quote stands inside a string. -/
theorem of_closing_quote (h : s.Moves t next) (ht : t.kind = .quote .closing) :
    s.mode = .string := by
  cases h with
  | closeQuote hs _ => exact hs
  | _ => simp_all [TokenKind.isItem, Builder.keepsString]

/-- In a string there are its text, newlines and its end. -/
theorem of_string (h : s.Moves t next) (hs : s.mode = .string) :
    Builder.keepsString t = true ∨ t.kind = .quote .closing := by
  cases h with
  | newline ht => exact .inl (by simp [Builder.keepsString, ht])
  | text _ ht => exact .inl ht
  | closeQuote _ ht => exact .inr ht
  | _ => contradiction

end Moves

/-- The tokens of a step lead to what is known after it. -/
def Leads (s : Scanner) (step : Step) : Prop :=
  ∀ t : Token, t.kind = step.category.tokenKind → t.depth = step.blocks.length → s.Moves t step.next

/-- Every lexeme that is taken is a move. -/
theorem Takes.moves {s next : Scanner} {x : Lexeme} (h : s.Takes x next) {t : Token}
    (ht : t.kind = x.category.tokenKind) (hdepth : t.depth = x.blocks.length) : s.Moves t next := by
  cases h with
  | comma | tag | boolean => exact .item (by simp) (by rw [ht]; rfl)
  | number | negative => exact .item (by simp) (by rw [ht]; split <;> rfl)
  | key => exact .key (by simp) ht
  | colon => exact .colon (by simp) ht rfl
  | lineComment | comment | openComment => exact .ignored (by simp) ht (by simp) (by simp)
  | commentEnd | commentMore => exact .ignored (by simp) ht (by simp) id
  | openingQuote => exact .openQuote (by simp) ht
  | closingQuote => exact .closeQuote rfl ht
  | escape | stringText =>
    exact .text rfl (by simp [Builder.keepsString, ht, Category.tokenKind])
  | opening => exact .openBlock (by simp) ht hdepth
  | @closing blocks outer _ kind h =>
    have hblocks : blocks = blocks.takeWhile (· != kind) ++ kind :: outer := by
      rw [← h, takeWhile_append_dropWhile]
    refine .closeBlock (by simp) ht hblocks (fun hmem => ?_) hdepth
    simpa using mem_takeWhile_imp hmem

/-- Every step of the scanner is a move. -/
theorem Finds.leads {s : Scanner} {c : Char} {cs : List Char} {step : Step}
    (h : s.Finds c cs step) : s.Leads step := by
  intro t ht hdepth
  cases h with
  | lexeme _ h => exact h.takes.moves ht hdepth
  | blank hmode => exact .ignored (by simp [hmode]) ht (by simp [hmode]) id
  | illegal hmode => exact .item (by simp [hmode]) (by rw [ht]; rfl)
  | badEscape hmode =>
    exact .text hmode (by simp [Builder.keepsString, ht, plainStep, Category.tokenKind])

end Scanner

/-! ### In step -/

namespace Chunk

namespace Outline

/-- The blocks of an outline, each with the depth of its opening bracket. -/
def depths (outline : Outline) : List (BlockKind × Nat) :=
  outline.map fun (kind, bracket) => (kind, bracket.depth)

/-- Blocks, innermost first, each with the number of blocks from the outermost one to it. -/
def numbered : List BlockKind → List (BlockKind × Nat)
  | [] => []
  | kind :: outer => (kind, outer.length + 1) :: numbered outer

/-- The numbers of outer blocks do not depend on inner ones. -/
theorem drop_numbered (skipped outer : List BlockKind) :
    (numbered (skipped ++ outer)).drop skipped.length = numbered outer := by
  induction skipped with
  | nil => rfl
  | cons kind skipped ih => exact ih

/-- The kinds of numbered blocks. -/
theorem map_fst_numbered (blocks : List BlockKind) : (numbered blocks).map Prod.fst = blocks := by
  induction blocks with
  | nil => rfl
  | cons kind outer ih => rw [numbered, map_cons, ih]

/-- The depths of the brackets tell how many blocks a closing bracket ends: those inside of its own
and its own. -/
theorem after_closing {outline : Outline} {t : Token} {kind : BlockKind}
    {skipped outer : List BlockKind} (ht : t.kind = .bracket kind .closing)
    (hdepth : t.depth = outer.length + 1) (hskipped : kind ∉ skipped)
    (houtline : outline.depths = numbered (skipped ++ kind :: outer)) :
    outline.after t = outline.drop (skipped.length + 1) := by
  cases outline with
  | nil => simp [after, ht]
  | cons head rest =>
    obtain ⟨open', bracket⟩ := head
    cases skipped with
    | nil =>
      have hopen : open' = kind := by
        simp only [depths, map_cons, nil_append, numbered, List.cons.injEq,
          Prod.mk.injEq] at houtline
        exact houtline.1.1
      simp [after, ht, hopen]
    | cons first skipped =>
      -- the innermost bracket is as deep as there are open blocks, the closing one as its own block
      simp only [depths, map_cons, cons_append, numbered, List.cons.injEq,
        Prod.mk.injEq] at houtline
      obtain ⟨⟨rfl, hbracket⟩, -⟩ := houtline
      have hne : open' ≠ kind := fun h => hskipped (by simp [h])
      have hcount : bracket.depth - t.depth = skipped.length + 1 := by
        rw [hbracket, hdepth, length_append, length_cons]
        omega
      simp [after, ht, hne, hcount]

/-- The number of mismatched brackets that are found at a token. -/
def mismatches (outline : Outline) (t : Token) : Nat :=
  match t.kind, outline with
  | .bracket kind .closing, (open', _) :: _ => if open' = kind then 0 else 1
  | _, _ => 0

/-- The mismatches among the findings, counted. -/
theorem countP_findings (outline : Outline) (t : Token) :
    (outline.findings t).countP (·.kind == .bracketMismatch) = outline.mismatches t := by
  cases ht : t.kind with
  | bracket kind side =>
    cases side with
    | opening => simp [findings, mismatches, ht]
    | closing =>
      cases outline with
      | nil => simp [findings, mismatches, ht, invalidToken, error]
      | cons head rest =>
        by_cases h : head.1 = kind <;>
          simp [findings, mismatches, ht, h, mismatch, fatalError]
  | literal l =>
    have hliteral : (l.read t).2.countP (·.kind == .bracketMismatch) = 0 := by
      rw [countP_eq_zero]
      intro d hd
      obtain ⟨message, rfl⟩ := Literal.exists_eq_of_mem_read hd
      simp [error]
    simpa [findings, mismatches, ht] using hliteral
  | quote side =>
    cases side <;> simp [findings, mismatches, ht, invalidToken, error]
  | _ => simp [findings, mismatches, ht, invalidToken, error]

/-- No token outside of strings is found to end anything too early. -/
theorem kind_of_mem_findings {outline : Outline} {t : Token} {d : Diagnostic}
    (hd : d ∈ outline.findings t) :
    d.kind ≠ .unexpectedEndOfInput ∧ d.kind ≠ .unterminatedString := by
  rcases mem_findings_cases hd with rfl | ⟨message, rfl⟩ | ⟨bracket, -, rfl⟩
  · simp [invalidToken, error]
  · simp [error]
  · simp [mismatch, fatalError]

end Outline

namespace Builder

/-- The kinds of the open blocks, innermost first. -/
def kinds (b : Builder) : List BlockKind :=
  b.frames.map (·.kind)

theorem kinds_eq (b : Builder) : b.kinds = b.outline.depths.map Prod.fst := by
  simp [kinds, outline, Outline.ofFrames, Outline.depths]

/-- A token that a builder is not made for. -/
inductive Strays (b : Builder) (t : Token) : Prop
  /-- A closing bracket with nothing open. -/
  | bracket {kind : BlockKind} (ht : t.kind = .bracket kind .closing) (hb : b.frames = [])
  /-- A colon behind no key. -/
  | colon (ht : t.kind = .colon) (hb : ¬b.AwaitsColon)
  /-- The text of a string outside of one. -/
  | text {escape : Bool} (ht : t.kind = .stringText escape) (hb : ¬b.InString)
  /-- The end of a string outside of one. -/
  | closeQuote (ht : t.kind = .quote .closing) (hb : ¬b.InString)
  /-- A token that cuts a string off. -/
  | cut (hb : b.InString) (htext : keepsString t = false) (hquote : t.kind ≠ .quote .closing)

end Builder

end Chunk

/-- The scanner and the builder have the same blocks open and agree on strings. Where the scanner
takes a colon for the colon of a key, the builder waits for it. -/
structure InStep (s : Scanner) (b : Builder) : Prop where
  outline : b.outline.depths = Outline.numbered s.blocks
  string : b.InString ↔ s.mode = .string
  key : s.afterKey = true → b.AwaitsColon

namespace InStep

variable {s next : Scanner} {b : Builder} {t : Token}

/-- Scanner and builder start in step. -/
theorem start : InStep {} {} :=
  ⟨rfl, by simp [InString], by simp⟩

/-- A token inside a string counts. -/
theorem kind_ne_ignored (h : InStep s b) (hmoves : s.Moves t next) (hin : b.InString) :
    t.kind ≠ .ignored := by
  intro ht
  rcases hmoves.of_string (h.string.1 hin) with hk | hk
  · simp [keepsString, ht] at hk
  · simp [ht] at hk

/-- In step, the same blocks are open. -/
theorem kinds (h : InStep s b) : b.kinds = s.blocks := by
  rw [b.kinds_eq, h.outline, Outline.map_fst_numbered]

theorem frames_eq_nil_iff (h : InStep s b) : b.frames = [] ↔ s.blocks = [] := by
  rw [← h.kinds, Builder.kinds, map_eq_nil_iff]

/-- In step, the two agree on strings. -/
theorem not_inString (h : InStep s b) (hs : s.mode ≠ .string) : ¬b.InString :=
  fun hb => hs (h.string.1 hb)

/-- A token outside of strings that leaves the blocks alone. -/
theorem step_plain (h : InStep s b) (hs : s.mode ≠ .string)
    (hafter : b.outline.after t = b.outline) {mode : Mode} {afterKey : Bool}
    (hmode : t.kind = .quote .opening ↔ mode = .string)
    (hkey : afterKey = true → (b.step t).AwaitsColon) :
    InStep ⟨⟨s.blocks, mode⟩, afterKey⟩ (b.step t) where
  outline := by rw [outline_step (h.not_inString hs), hafter, h.outline]
  string := (inString_step (h.not_inString hs)).trans hmode
  key := hkey

/-- A move keeps the scanner and the builder in step. -/
theorem step (h : InStep s b) (hmoves : s.Moves t next) : InStep next (b.step t) := by
  cases hmoves with
  | ignored hs ht hmode hkey =>
    refine h.step_plain hs (by simp [Outline.after, ht]) (by simp [ht, hmode]) fun hafter => ?_
    exact awaitsColon_step_ignored (h.key (hkey hafter)) ht
  | newline ht =>
    by_cases hs : s.mode = .string
    · obtain ⟨hstring, houtline, -⟩ :=
        step_keepsString (h.string.2 hs) (t := t) (by simp [keepsString, ht])
      exact ⟨houtline ▸ h.outline, by simp [hstring, hs], by simp⟩
    · exact h.step_plain hs (by simp [Outline.after, ht]) (by simp [ht, hs]) (by simp)
  | item hs ht =>
    refine h.step_plain hs ?_ ?_ (by simp)
    · cases hk : t.kind <;> simp_all [Outline.after, TokenKind.isItem]
    · cases hk : t.kind <;> simp_all [TokenKind.isItem]
  | key hs ht =>
    refine h.step_plain hs (by simp [Outline.after, ht]) (by simp [ht]) fun _ => ?_
    exact awaitsColon_step_key (h.not_inString hs) ht
  | colon hs ht _ | openQuote hs ht =>
    exact h.step_plain hs (by simp [Outline.after, ht]) (by simp [ht]) (by simp)
  | text hs ht =>
    have hstring := h.string.2 hs
    obtain ⟨hstring', houtline, -⟩ := step_keepsString hstring ht
    -- in a string no key is waiting, since the builder waits for one thing at a time
    refine ⟨houtline ▸ h.outline, by simp [hstring'], fun hafter => ?_⟩
    exact absurd hstring (h.key hafter).not_inString
  | closeQuote hs ht =>
    have hstring := h.string.2 hs
    obtain ⟨hstring', houtline, -⟩ := step_closing_quote hstring ht
    refine ⟨houtline ▸ h.outline, by simp [hstring'], fun hafter => ?_⟩
    exact absurd hstring (h.key hafter).not_inString
  | openBlock hs ht hdepth =>
    refine ⟨?_, ?_, by simp⟩
    · rw [outline_step (h.not_inString hs)]
      simp [Outline.after, ht, Outline.depths, Outline.numbered, hdepth, ← h.outline]
    · simp [inString_step (h.not_inString hs), ht]
  | @closeBlock kind skipped outer hs ht hblocks hskipped hdepth =>
    refine ⟨?_, ?_, by simp⟩
    · have houtline := h.outline
      rw [hblocks] at houtline
      rw [outline_step (h.not_inString hs),
        Outline.after_closing ht hdepth hskipped houtline]
      -- what is left of the outline are the blocks outside of the one that was closed
      have hdrop := Outline.drop_numbered (skipped ++ [kind]) outer
      rw [append_assoc, singleton_append, length_append, length_singleton,
        ← houtline] at hdrop
      rw [← hdrop, Outline.depths, Outline.depths, map_drop]
    · simp [inString_step (h.not_inString hs), ht]

/-- The builder is made for the tokens that the scanner finds. -/
theorem not_strays (h : InStep s b) (hmoves : s.Moves t next) : ¬b.Strays t := by
  intro hstrays
  cases hstrays with
  | bracket ht hb =>
    -- the scanner takes a closing bracket for one only if its block is open
    obtain ⟨skipped, outer, -, hblocks, -⟩ := hmoves.of_closing ht
    have hkinds := h.kinds
    simp [Builder.kinds, hb, hblocks] at hkinds
  | colon ht hb => exact hb (h.key (hmoves.of_colon ht))
  | text ht hb => exact hb (h.string.2 (hmoves.of_stringText ht))
  | closeQuote ht hb => exact hb (h.string.2 (hmoves.of_closing_quote ht))
  | cut hb htext hquote =>
    rcases hmoves.of_string (h.string.1 hb) with ht | ht
    · rw [ht] at htext
      cases htext
    · exact hquote ht

/-- A closing bracket ends the same blocks for both. -/
theorem outline_step_closing (h : InStep s b) {kind : BlockKind} {skipped outer : List BlockKind}
    (ht : t.kind = .bracket kind .closing) (hs : s.mode ≠ .string)
    (hblocks : s.blocks = skipped ++ kind :: outer) (hskipped : kind ∉ skipped)
    (hdepth : t.depth = outer.length + 1) :
    (b.step t).outline = b.outline.drop (skipped.length + 1) := by
  rw [outline_step (h.not_inString hs)]
  exact Outline.after_closing ht hdepth hskipped (hblocks ▸ h.outline)

end InStep

/-! ### Visits -/

/-- A token with the states of the grammar before and after it. -/
structure Visit where
  before : LineState
  token : Token
  after : LineState

namespace Visit

/-- Whether a closing bracket ends more blocks than its own. -/
def skips (v : Visit) : Bool :=
  match v.token.kind with
  | .bracket _ .closing => v.after.blocks.length + 1 < v.before.blocks.length
  | _ => false

end Visit

/-- A builder takes a token as the grammar does. -/
structure Faithful (b : Builder) (v : Visit) : Prop where
  before : b.kinds = v.before.blocks
  after : (b.step v.token).kinds = v.after.blocks
  string : b.InString ↔ v.before.mode = .string
  not_strays : ¬b.Strays v.token
  /-- A closing bracket ends the innermost block of its kind, and of the open blocks those stay that
  the grammar keeps. -/
  closing : ∀ kind, v.token.kind = .bracket kind .closing →
    ∃ skipped, kind ∉ skipped ∧ v.before.blocks = skipped ++ kind :: v.after.blocks ∧
      (b.step v.token).outline = b.outline.drop (skipped.length + 1)

/-- The findings that a token adds: a mismatch for a closing bracket that skips blocks, and nothing
about an end. -/
structure Adds (v : Visit) (ds : List Diagnostic) : Prop where
  mismatches : ds.countP (·.kind == .bracketMismatch) = if v.skips then 1 else 0
  kinds : ∀ d ∈ ds, d.kind ≠ .unexpectedEndOfInput ∧ d.kind ≠ .unterminatedString

namespace InStep

variable {s next : Scanner} {b : Builder} {t : Token}

/-- In step, a token is one that the builder is made for. -/
theorem faithful (h : InStep s b) (hmoves : s.Moves t next) :
    Faithful b ⟨s.toLineState, t, next.toLineState⟩ where
  before := h.kinds
  after := (h.step hmoves).kinds
  string := h.string
  not_strays := h.not_strays hmoves
  closing := by
    intro kind ht
    obtain ⟨skipped, outer, hs, hblocks, hskipped, hdepth, rfl⟩ := hmoves.of_closing ht
    exact ⟨skipped, hskipped, hblocks, h.outline_step_closing ht hs hblocks hskipped hdepth⟩

/-- A bracket is mismatched when the innermost block is not of its kind, and then it skips that
block. -/
theorem mismatches_eq (h : InStep s b) (hmoves : s.Moves t next) :
    b.outline.mismatches t =
      if Visit.skips ⟨s.toLineState, t, next.toLineState⟩ then 1 else 0 := by
  cases ht : t.kind with
  | bracket kind side =>
    cases side with
    | opening => simp [Outline.mismatches, Visit.skips, ht]
    | closing =>
      obtain ⟨skipped, outer, -, hblocks, hskipped, -, rfl⟩ := hmoves.of_closing ht
      have hkinds := h.kinds
      rw [hblocks, b.kinds_eq] at hkinds
      cases houtline : b.outline with
      | nil => simp [houtline, Outline.depths] at hkinds
      | cons head rest =>
        obtain ⟨open', bracket⟩ := head
        rw [houtline] at hkinds
        cases skipped with
        | nil =>
          have hopen : open' = kind := (List.cons.inj hkinds).1
          have hlength : ¬next.blocks.length + 1 < s.blocks.length := by
            rw [hblocks, nil_append, length_cons]
            omega
          simp [Outline.mismatches, Visit.skips, ht, hopen, hlength]
        | cons first skipped =>
          have hopen : open' = first := (List.cons.inj hkinds).1
          have hne : first ≠ kind := fun heq => hskipped (by simp [heq])
          have hlength : next.blocks.length + 1 < s.blocks.length := by
            rw [hblocks, length_append, length_cons, length_cons]
            omega
          simp [Outline.mismatches, Visit.skips, ht, hopen, hne, hlength]
  | _ => simp [Outline.mismatches, Visit.skips, ht]

/-- In step, the findings can be told from the states. -/
theorem exists_adds (h : InStep s b) (hmoves : s.Moves t next) :
    ∃ ds, (b.step t).diagnostics = b.diagnostics ++ ds ∧
      Adds ⟨s.toLineState, t, next.toLineState⟩ ds := by
  by_cases hs : s.mode = .string
  · -- in a string there are no brackets, so nothing is skipped
    have hskips : Visit.skips ⟨s.toLineState, t, next.toLineState⟩ = false := by
      rcases hmoves.of_string hs with ht | ht
      · cases hk : t.kind <;> simp_all [Visit.skips, keepsString]
      · simp [Visit.skips, ht]
    rcases hmoves.of_string hs with ht | ht
    · obtain ⟨-, -, n, hn⟩ := step_keepsString (h.string.2 hs) ht
      refine ⟨_, hn, ?_, ?_⟩
      · simp [hskips, countP_replicate, invalidToken, error]
      · intro d hd
        rw [(mem_replicate.1 hd).2]
        simp [invalidToken, error]
    · obtain ⟨-, -, hn⟩ := step_closing_quote (h.string.2 hs) ht
      exact ⟨[], by simpa using hn, by simp [hskips], by simp⟩
  · by_cases ht : t.kind = .colon
    · have hn := diagnostics_step_colon (h.key (hmoves.of_colon ht)) ht
      exact ⟨[], by simpa using hn, by simp [Visit.skips, ht], by simp⟩
    · have hn := diagnostics_step (t := t) (h.not_inString hs) fun _ => ht
      refine ⟨_, hn, ?_, fun d hd => Outline.kind_of_mem_findings hd⟩
      rw [Outline.countP_findings, h.mismatches_eq hmoves]

end InStep

/-! ### Runs -/

/-- Visits that lead from one state of the scanner to another, move by move. -/
inductive Walk : Scanner → List Visit → Scanner → Prop
  | nil (s : Scanner) : Walk s [] s
  | cons {s next last : Scanner} {t : Token} {vs : List Visit} (hmoves : s.Moves t next)
      (hwalk : Walk next vs last) : Walk s (⟨s.toLineState, t, next.toLineState⟩ :: vs) last

namespace Walk

variable {s middle last : Scanner} {b : Builder} {vs ws : List Visit}

/-- Two walks, one behind the other. -/
theorem append (hvs : Walk s vs middle) (hws : Walk middle ws last) : Walk s (vs ++ ws) last := by
  induction hvs with
  | nil => exact hws
  | cons hmoves _ ih => exact .cons hmoves (ih hws)

/-- A walk keeps scanner and builder in step. -/
theorem inStep (h : Walk s vs last) (hb : InStep s b) : InStep last (b.run (vs.map (·.token))) := by
  induction h generalizing b with
  | nil => exact hb
  | cons hmoves _ ih => exact ih (hb.step hmoves)

/-- Every visit of a walk is one that the builder is made for. -/
theorem faithful (h : Walk s vs last) (hb : InStep s b) {before after : List Visit} {v : Visit}
    (hvs : vs = before ++ v :: after) : Faithful (b.run (before.map (·.token))) v := by
  induction h generalizing b before with
  | nil => simp at hvs
  | cons hmoves _ ih =>
    cases before with
    | nil =>
      obtain ⟨rfl, -⟩ := List.cons.inj hvs
      exact hb.faithful hmoves
    | cons w before =>
      obtain ⟨rfl, hrest⟩ := List.cons.inj hvs
      exact ih (hb.step hmoves) hrest

/-- The findings of a run are those of its visits. -/
theorem exists_diagnostics (h : Walk s vs last) (hb : InStep s b) :
    ∃ ds, (b.run (vs.map (·.token))).diagnostics = b.diagnostics ++ ds ∧
      ds.countP (·.kind == .bracketMismatch) = vs.countP (·.skips) ∧
      ∀ d ∈ ds, d.kind ≠ .unexpectedEndOfInput ∧ d.kind ≠ .unterminatedString := by
  induction h generalizing b with
  | nil => exact ⟨[], by simp, rfl, by simp⟩
  | cons hmoves _ ih =>
    obtain ⟨ds, hds, hadds⟩ := hb.exists_adds hmoves
    obtain ⟨es, hes, hcount, hkinds⟩ := ih (hb.step hmoves)
    refine ⟨ds ++ es, ?_, ?_, ?_⟩
    · rw [map_cons, run_cons, hes, hds, append_assoc]
    · rw [countP_append, hadds.mismatches, hcount, countP_cons, Nat.add_comm]
    · intro d hd
      rcases mem_append.1 hd with hd | hd
      · exact hadds.kinds d hd
      · exact hkinds d hd

end Walk

namespace Scanner

/-- The visits of the rest of a line, from a column on. -/
def visits (s : Scanner) (line column : Nat) : List Char → List Visit
  | [] => []
  | c :: cs =>
    let t := s.step c cs
    let x : Lexeme := ⟨c :: cs.take t.extra, t.category, t.blocks⟩
    ⟨s.toLineState, x.token line column, t.next.toLineState⟩ ::
      t.next.visits line (column + Text.units16 x.text) (cs.drop t.extra)
termination_by cs => cs.length
decreasing_by simp only [length_drop, length_cons]; omega

theorem map_token_visits (s : Scanner) (line column : Nat) (cs : List Char) :
    (s.visits line column cs).map (·.token) = Lexeme.tokensFrom line column (s.scan cs).1 := by
  fun_induction visits s line column cs with
  | case1 => simp [scan]
  | case2 s column c cs t x ih =>
    rw [map_cons, ih, scan]
    rfl

/-- The visits of a part of a line are a walk. -/
theorem walk_visits (s : Scanner) (line column : Nat) (cs : List Char) :
    Walk s (s.visits line column cs) (s.scan cs).2 := by
  fun_induction visits s line column cs with
  | case1 s => simpa [scan] using Walk.nil s
  | case2 s column c cs t x ih =>
    rw [scan]
    exact .cons ((s.finds_step c cs).leads _ rfl rfl) ih

end Scanner

namespace LineState

/-- The state of the grammar behind some lines. -/
def afterLines (s : LineState) (lines : List (List Char)) : LineState :=
  lines.foldl (fun s line => (s.scan line).2) s

/-- The visits of a line, the newline included. -/
def visits (s : LineState) (line : Nat) (text : List Char) : List Visit :=
  Scanner.visits ⟨s, false⟩ line 0 text ++
    [⟨(s.scan text).2, .newline line (Text.units16 text), (s.scan text).2⟩]

/-- The visits of the lines from a given number on. -/
def visitsOfLines (s : LineState) (line : Nat) : List (List Char) → List Visit
  | [] => []
  | text :: rest => s.visits line text ++ (s.scan text).2.visitsOfLines (line + 1) rest

theorem map_token_visitsOfLines (s : LineState) (line : Nat) (lines : List (List Char)) :
    (s.visitsOfLines line lines).map (·.token) = s.tokensOfLines line lines := by
  induction lines generalizing s line with
  | nil => rfl
  | cons text rest ih =>
    rw [visitsOfLines, map_append, ih, visits, map_append, Scanner.map_token_visits]
    rfl

/-- The visits of a line are a walk. -/
theorem walk_visits (s : LineState) (line : Nat) (text : List Char) :
    Walk ⟨s, false⟩ (s.visits line text) ⟨(s.scan text).2, false⟩ := by
  have hnewline : (Scanner.scan ⟨s, false⟩ text).2.Moves (.newline line (Text.units16 text))
      ⟨(s.scan text).2, false⟩ := .newline rfl
  have hend := Walk.cons hnewline (.nil _)
  exact (Scanner.walk_visits ⟨s, false⟩ line 0 text).append hend

/-- The visits of lines are a walk. -/
theorem walk_visitsOfLines (s : LineState) (line : Nat) (lines : List (List Char)) :
    Walk ⟨s, false⟩ (s.visitsOfLines line lines) ⟨s.afterLines lines, false⟩ := by
  induction lines generalizing s line with
  | nil => exact .nil _
  | cons text rest ih => exact (s.walk_visits line text).append (ih _ _)

/-- The tokens of lines, cut in two. -/
theorem tokensOfLines_append (s : LineState) (line : Nat) (front back : List (List Char)) :
    s.tokensOfLines line (front ++ back) = s.tokensOfLines line front ++
      (s.afterLines front).tokensOfLines (line + front.length) back := by
  induction front generalizing s line with
  | nil => rfl
  | cons text rest ih =>
    rw [cons_append, tokensOfLines, ih, tokensOfLines, append_assoc, length_cons,
      Nat.add_assoc, Nat.add_comm 1]
    rfl

end LineState

namespace Document

/-- The state of the grammar behind a text. -/
def finalState (text : String) : LineState :=
  afterLines {} (linesOf text)

/-- The tokens of a text, each with the states of the grammar around it. -/
def visits (text : String) : List Visit :=
  visitsOfLines {} 0 (linesOf text)

theorem map_token_visits (text : String) : (visits text).map (·.token) = tokensOf text := by
  rw [visits, map_token_visitsOfLines, tokensOf_eq]

theorem walk_visits (text : String) : Walk {} (visits text) ⟨finalState text, false⟩ :=
  walk_visitsOfLines {} 0 (linesOf text)

theorem lex_standard (lines : List (List Char)) :
    Token.lex .standard lines = tokensOfLines {} 0 lines :=
  Token.lexFrom_standard {} 0 lines

/-- Behind some lines the builder has the blocks open that the grammar has. -/
theorem kinds_run_lex (front : List (List Char)) :
    (run {} (Token.lex .standard front)).kinds =
      (afterLines {} front).blocks := by
  have hwalk := walk_visitsOfLines {} 0 front
  rw [lex_standard, ← map_token_visitsOfLines]
  exact (hwalk.inStep .start).kinds

/-- The first lines have the first tokens. -/
theorem lex_isPrefix_tokensOf {text : String} {front back : List (List Char)}
    (h : linesOf text = front ++ back) : Token.lex .standard front <+: tokensOf text := by
  refine ⟨tokensOfLines (afterLines {} front) (0 + front.length) back, ?_⟩
  rw [tokensOf_eq, h, tokensOfLines_append, lex_standard]

/-- The findings of the builder: those of the visits, and then, if something is open at the end,
that the input ends too early. -/
theorem exists_diagnostics_ofTokens (text : String) :
    ∃ ds n d, (ofTokens (tokensOf text)).2.diagnostics = ds ++ .replicate n d ∧
      ds.countP (·.kind == .bracketMismatch) = (visits text).countP (·.skips) ∧
      (∀ d ∈ ds, d.kind ≠ .unexpectedEndOfInput ∧ d.kind ≠ .unterminatedString) ∧
      d.kind = .unexpectedEndOfInput ∧ d.fatal = true ∧
      (n ≠ 0 ↔ (finalState text).blocks ≠ [] ∨ (finalState text).mode = .string) := by
  have hwalk := walk_visits text
  have hstep := hwalk.inStep .start
  obtain ⟨ds, hds, hcount, hkinds⟩ := hwalk.exists_diagnostics .start
  rw [map_token_visits] at hstep hds
  obtain ⟨n, hfinish, hn⟩ := exists_diagnostics_finish (run {} (tokensOf text))
    last_ne_none
  refine ⟨ds, n, (run {} (tokensOf text)).tooEarly, ?_, hcount, hkinds, rfl, rfl, ?_⟩
  · have hfinish' := hfinish
    rw [hds, nil_append] at hfinish'
    exact hfinish'
  · rw [hn, ne_eq, hstep.frames_eq_nil_iff, hstep.string, or_comm]

/-- The builder keeps step with the grammar on every text:

* behind any number of lines, and before and after every token, both have the same blocks open;
* no token is one that the builder is not made for, and a closing bracket ends the same blocks for
  both, those that it skips included;
* the input is found to end too early exactly if the grammar ends in an open block or in a string;
* a mismatch is found once for every closing bracket that skips blocks, and no string is cut off. -/
theorem builder_keeps_step_with_grammar (text : String) :
    (∀ front back, linesOf text = front ++ back →
      Token.lex .standard front <+: tokensOf text ∧
      (run {} (Token.lex .standard front)).kinds = (afterLines {} front).blocks) ∧
    (visits text).map (·.token) = tokensOf text ∧
    (∀ before v after, visits text = before ++ v :: after →
      Faithful (run {} (before.map (·.token))) v) ∧
    ((∃ d ∈ (ofTokens (tokensOf text)).2.diagnostics,
        d.kind = .unexpectedEndOfInput ∧ d.fatal = true) ↔
      (finalState text).blocks ≠ [] ∨ (finalState text).mode = .string) ∧
    (ofTokens (tokensOf text)).2.diagnostics.countP (·.kind == .bracketMismatch) =
      (visits text).countP (·.skips) ∧
    ∀ d ∈ (ofTokens (tokensOf text)).2.diagnostics, d.kind ≠ .unterminatedString := by
  obtain ⟨ds, n, e, hds, hcount, hkinds, hkind, hfatal, hn⟩ := exists_diagnostics_ofTokens text
  refine ⟨fun front back h => ⟨lex_isPrefix_tokensOf h, kinds_run_lex front⟩, map_token_visits text,
    fun before v after h => (walk_visits text).faithful .start h, ?_, ?_, ?_⟩
  · rw [← hn, hds]
    constructor
    · rintro ⟨d, hd, hend, -⟩
      rcases mem_append.1 hd with hd | hd
      · exact absurd hend (hkinds d hd).1
      · exact (mem_replicate.1 hd).1
    · intro hn
      exact ⟨e, by simp [hn], hkind, hfatal⟩
  · rw [hds, countP_append, hcount]
    simp [countP_replicate, hkind]
  · intro d hd
    rw [hds] at hd
    rcases mem_append.1 hd with hd | hd
    · exact (hkinds d hd).2
    · rw [(mem_replicate.1 hd).2, hkind]
      simp

end Document

end TypedNotation
