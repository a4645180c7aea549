import Mathlib.Tactic.TFAE
import TypedNotation.Proofs.Nesting
import TypedNotation.Proofs.Severities

/-!
# When a document has no data

A document has data unless something fatal was found, and what is fatal can be told from the tokens
alone, without building anything.

The *outers* of a document are the values, keys and commas that stand outside of every block. They
can be read off the visits (`Visit.outers`) and off the chunks (`Chunk.outer?`), and a builder in
between has some of them on its way: the chunks outside of blocks, a pending chunk, or the block
that is open (`Builder.outers`). A token adds to the outers of the builder just what its visit says
(`Builder.outers_step`), so at the end the two readings agree (`Document.outers_ofTokens`).

The outers are legal if they are one value and nothing else. What else is fatal the builder finds:
blocks and strings that are not closed, and brackets that skip blocks.
-/

namespace TypedNotation

open List Chunk Report

/-! ### Outers -/

/-- What can stand outside of every block, but for newlines. -/
inductive Outer where
  | value
  | key
  | comma
  deriving DecidableEq

/-- What a chunk is, outside of every block. -/
def Chunk.outer? : Chunk → Option Outer
  | .block _ | .enum .. | .value .. => some .value
  | .key .. => some .key
  | .separator false _ _ => some .comma
  | .separator true _ _ => none

namespace Token

/-- Whether the next token, but for blanks, comments and tokens that stand for nothing, opens a
block. -/
def opensNext : List Token → Bool
  | [] => false
  | t :: rest =>
    match t.kind with
    | .ignored | .invalid _ => opensNext rest
    | .bracket _ .opening => true
    | _ => false

/-- What begins at a token that is outside of every block, in front of other tokens. A tag that is
not a unit belongs to the block behind it. -/
def outer? (t : Token) (rest : List Token) : Option Outer :=
  match t.kind with
  | .literal _ | .quote .opening | .bracket _ .opening => some .value
  | .tag => if opensNext rest then none else some .value
  | .key => some .key
  | .comma => some .comma
  | _ => none

end Token

namespace Visit

/-- What begins at a visit, if it is outside of every block. -/
def outer? (v : Visit) (rest : List Visit) : Option Outer :=
  if v.before.blocks = [] then v.token.outer? (rest.map (·.token)) else none

/-- What stands outside of every block, in order. -/
def outers : List Visit → List Outer
  | [] => []
  | v :: rest => (v.outer? rest).toList ++ outers rest

/-- The number of values outside of every block: literals, strings, units, and blocks with their
tags or without. -/
def outerValues (vs : List Visit) : Nat :=
  (outers vs).count .value

/-- Whether a key or a comma stands outside of every block. -/
def isStray (v : Visit) : Bool :=
  v.before.blocks.isEmpty && (v.token.kind == .key || v.token.kind == .comma)

/-- The keys and commas among the outers are the strays. -/
theorem exists_isStray_iff (vs : List Visit) :
    (∃ v ∈ vs, v.isStray = true) ↔ .key ∈ outers vs ∨ .comma ∈ outers vs := by
  induction vs with
  | nil => simp [outers]
  | cons v rest ih =>
    have hv : v.isStray = true ↔ v.outer? rest = some .key ∨ v.outer? rest = some .comma := by
      unfold isStray outer?
      by_cases hblocks : v.before.blocks = []
      · cases hk : v.token.kind with
        | quote side | bracket kind side => cases side <;> simp [hblocks, Token.outer?, hk]
        | tag => cases hnext : Token.opensNext (rest.map (·.token)) <;>
            simp [hblocks, Token.outer?, hk, hnext]
        | _ => simp [hblocks, Token.outer?, hk]
      · simp [hblocks]
    simp only [mem_cons, exists_eq_or_imp, ih, hv, outers, mem_append, Option.mem_toList]
    tauto

end Visit

/-! ### Building -/

namespace Chunk

namespace Builder

/-- What is pending outside of every block, in front of other tokens. -/
def pendingOuters (pending : Pending) (rest : List Token) : List Outer :=
  match pending with
  | .none => []
  | .tag _ => if Token.opensNext rest then [] else [.value]
  | .key _ _ => [.key]
  | .string _ => [.value]

/-- What was found outside of every block so far, in front of other tokens: the chunks there, and
either the open block or what is pending. -/
def outers (b : Builder) (rest : List Token) : List Outer :=
  b.top.filterMap outer? ++
    if b.frames = [] then pendingOuters b.pending rest else [.value]

section Operations

variable (b : Builder) (t : Token) (rest : List Token)

theorem frames_push_eq_nil (c : Chunk) : (b.push c).frames = [] ↔ b.frames = [] := by
  unfold push
  split
  next h => simp [h]
  next f fs h => simp [h]

theorem top_push (c : Chunk) :
    (b.push c).top = if b.frames = [] then b.top ++ [c] else b.top := by
  unfold push
  split
  next h => simp [h]
  next f fs h => simp [h]

theorem filterMap_outer?_singleton (c : Chunk) : [c].filterMap outer? = c.outer?.toList := by
  cases h : c.outer? <;> simp [h]

/-- A chunk in the place of the pending one. -/
theorem outers_complete (c : Chunk) (weak : Bool) :
    (b.complete c weak).outers rest =
      b.top.filterMap outer? ++ if b.frames = [] then c.outer?.toList else [.value] := by
  have hframes : (b.complete c weak).frames = [] ↔ b.frames = [] := frames_push_eq_nil b c
  have htop : (b.complete c weak).top = if b.frames = [] then b.top ++ [c] else b.top :=
    top_push b c
  have hpending : (b.complete c weak).pending = .none := rfl
  by_cases h : b.frames = []
  · simp [outers, hframes, htop, hpending, h, pendingOuters, filterMap_outer?_singleton]
  · simp [outers, hframes, htop, h]

theorem outers_push (c : Chunk) (hpending : b.pending = .none) :
    (b.push c).outers rest =
      b.top.filterMap outer? ++ if b.frames = [] then c.outer?.toList else [.value] := by
  rw [← outers_complete b rest c b.weakAllowed, outers, outers, pending_push, hpending]
  rfl

theorem outer?_frame_chunk (f : Frame) (index : Nat) : (f.chunk t index).outer? = some .value := by
  unfold Frame.chunk
  dsimp only
  split <;> rfl

/-- To close a block changes nothing outside of it. -/
theorem outers_pop (index : Nat) (hpending : b.pending = .none) :
    (b.pop t index).outers rest = b.outers rest := by
  unfold pop
  split
  next h => rfl
  next f fs h =>
    rw [outers_push { b with frames := fs } rest _ hpending]
    simp [outers, h, outer?_frame_chunk]

theorem outers_popMany (index n : Nat) (hpending : b.pending = .none) :
    (b.popMany t index n).outers rest = b.outers rest := by
  induction n generalizing b with
  | zero => rfl
  | succ n ih =>
    have hpop : (b.pop t index).pending = .none := (pending_pop b t index).trans hpending
    rw [popMany, ih _ hpop, outers_pop b t rest index hpending]

theorem outers_close (kind : BlockKind) (hpending : b.pending = .none) :
    (b.close t kind).outers rest = b.outers rest := by
  unfold close
  split
  next h => rfl
  next f fs h =>
    dsimp only
    split
    · exact outers_pop b t rest b.index hpending
    · exact outers_popMany (b.report _) t rest b.index _ hpending

/-- What a token adds to the outers when nothing is pending. -/
theorem outers_read (hpending : b.pending = .none) :
    (b.read t).outers rest =
      b.outers rest ++ if b.frames = [] then (t.outer? rest).toList else [] := by
  have hsame : (t.outer? rest).toList = [] → b.outers rest =
      b.outers rest ++ if b.frames = [] then (t.outer? rest).toList else [] := by
    intro h
    simp [h]
  have hpush : ∀ (ds : List Diagnostic) (c : Chunk), c.outer? = t.outer? rest →
      (push { b with diagnostics := ds } c).outers rest =
        b.outers rest ++ if b.frames = [] then (t.outer? rest).toList else [] := by
    intro ds c hc
    rw [outers_push { b with diagnostics := ds } rest c hpending, hc]
    by_cases h : b.frames = [] <;> simp [outers, h, hpending, pendingOuters]
  unfold read
  split
  next ht => exact hsame (by simp [Token.outer?, ht])
  next ht => exact hsame (by simp [Token.outer?, ht])
  next ht =>
    split
    · exact hpush b.diagnostics _ (by simp [Token.outer?, ht, outer?])
    · exact hsame (by simp [Token.outer?, ht])
  next ht => exact hpush b.diagnostics _ (by simp [Token.outer?, ht, outer?])
  next ht => exact hsame (by simp [Token.outer?, ht])
  next l ht =>
    dsimp only
    rw [foldl_report]
    exact hpush _ _ (by simp [Token.outer?, ht, outer?])
  next ht =>
    by_cases h : b.frames = [] <;> simp [outers, h, hpending, pendingOuters, Token.outer?, ht]
  next ht =>
    by_cases h : b.frames = [] <;> simp [outers, h, hpending, pendingOuters, Token.outer?, ht]
  next ht => exact hsame (by simp [Token.outer?, ht])
  next ht => exact hsame (by simp [Token.outer?, ht])
  next ht =>
    cases hnext : Token.opensNext rest <;>
      by_cases h : b.frames = [] <;>
        simp [outers, h, hpending, pendingOuters, Token.outer?, ht, hnext]
  next ht =>
    by_cases h : b.frames = [] <;> simp [outers, h, hpending, pendingOuters, Token.outer?, ht]
  next kind ht =>
    rw [outers_close b t rest kind hpending]
    exact hsame (by simp [Token.outer?, ht])

/-- What a token adds to the outers once a chunk has taken the place of the pending one. -/
theorem outers_read_complete (c : Chunk) (weak : Bool) :
    ((b.complete c weak).read t).outers rest =
      (b.top.filterMap outer? ++ if b.frames = [] then c.outer?.toList else [.value]) ++
        if b.frames = [] then (t.outer? rest).toList else [] := by
  have hframes : (b.complete c weak).frames = [] ↔ b.frames = [] := frames_push_eq_nil b c
  rw [outers_read _ t rest rfl, outers_complete]
  simp only [hframes]

/-- A token that is outside of every block adds to the outers what begins at it, and no other token
adds anything. -/
theorem outers_step :
    (b.step t).outers rest =
      b.outers (t :: rest) ++ if b.frames = [] then (t.outer? rest).toList else [] := by
  have hstep : (b.step t).outers rest = (b.readNext t).outers rest := rfl
  have hkept : keepsString t = true → t.outer? rest = none := by
    intro hkeeps
    cases ht : t.kind <;> simp_all [keepsString, Token.outer?]
  have houtcome := outcome_readNext b t
  rw [hstep]
  generalize b.readNext t = b' at houtcome ⊢
  cases houtcome with
  | skip hstring ht =>
    cases hpending : b.pending with
    | string s => exact absurd hpending (hstring s)
    | _ => simp [outers, hpending, pendingOuters, Token.opensNext, Token.outer?, ht]
  | read hpending _ =>
    rw [outers_read b t rest hpending]
    simp [outers, hpending, pendingOuters]
  | invalid hpending ht =>
    simp [outers, hpending, pendingOuters, Token.opensNext, Token.outer?, ht, invalid, report]
  | payload hpending ht =>
    by_cases h : b.frames = [] <;>
      simp [outers, hpending, pendingOuters, Token.opensNext, Token.outer?, ht, h]
  | unit hpending hkeeps =>
    -- the tag is a unit: the token neither opens a block nor leaves the question open
    have hnext : Token.opensNext (t :: rest) = false := by
      cases ht : t.kind with
      | bracket kind side => cases side <;> simp_all [keepsTag, Token.opensNext]
      | _ => simp_all [keepsTag, Token.opensNext]
    rw [outers_read_complete]
    simp [outers, hpending, pendingOuters, hnext, Tag.unit, outer?]
  | colon hpending ht =>
    rw [outers_complete]
    simp [outers, hpending, pendingOuters, Token.outer?, ht, keyWithColon, outer?]
  | bareKey hpending _ _ =>
    rw [outers_read_complete]
    simp [outers, hpending, pendingOuters, bareKey, outer?]
  | text hpending hpart =>
    simp [outers, hpending, pendingOuters, hkept (keepsString_of_stringPart? hpart)]
  | badText hpending hkeeps _ =>
    simp [outers, hpending, pendingOuters, hkept hkeeps, invalid, report]
  | closingQuote hpending ht =>
    rw [outers_complete]
    simp [outers, hpending, pendingOuters, Token.outer?, ht, OpenString.chunk, outer?]
  | cut hpending _ _ =>
    rw [outers_read_complete]
    simp [outers, hpending, pendingOuters, OpenString.chunk, outer?, report]

/-- When the tokens end and nothing is open, the outers are the chunks outside of blocks. -/
theorem outers_finish (hframes : b.frames = []) (hstring : ¬b.InString) :
    b.finish.top.filterMap outer? = b.outers [] := by
  have hcomplete : ∀ (c : Chunk) (weak : Bool), c.outer?.toList = pendingOuters b.pending [] →
      (b.complete c weak).top.filterMap outer? = b.outers [] := by
    intro c weak hc
    have htop : (b.complete c weak).top = b.top ++ [c] := (top_push b c).trans (if_pos hframes)
    simp [htop, outers, hframes, filterMap_outer?_singleton, hc]
  rw [finish_eq_settle b hframes]
  cases hpending : b.pending with
  | none => simp [settle, hpending, hframes, outers, pendingOuters]
  | tag tag =>
    rw [settle, hpending]
    exact hcomplete _ _ (by simp [hpending, pendingOuters, Token.opensNext, Tag.unit, outer?])
  | key key index =>
    rw [settle, hpending]
    exact hcomplete _ _ (by simp [hpending, pendingOuters, bareKey, outer?])
  | string s => exact absurd ⟨s, hpending⟩ hstring

end Operations

end Builder

end Chunk

/-! ### Runs -/

/-- The outers of a run are those of its visits. -/
theorem Walk.outers_run {s last : Scanner} {vs : List Visit} (h : Walk s vs last)
    {b : Builder} (hb : InStep s b) :
    (b.run (vs.map (·.token))).outers [] = b.outers (vs.map (·.token)) ++ Visit.outers vs := by
  induction h generalizing b with
  | nil => simp [Visit.outers]
  | @cons s next last t vs hmoves hwalk ih =>
    have hframes := hb.frames_eq_nil_iff
    rw [map_cons, Builder.run_cons, ih (hb.step hmoves), Builder.outers_step,
      append_assoc]
    by_cases hs : s.blocks = []
    · simp [Visit.outers, Visit.outer?, hframes, hs]
    · simp [Visit.outers, Visit.outer?, hframes, hs]

/-! ### Reading -/

namespace Data

variable {chunks : List Chunk} {earlier : Report}

/-- Reading finds something fatal, at the latest at its end, exactly if it gives no data. -/
theorem canContinue_ofChunks (chunks : List Chunk) (earlier : Report) :
    (ofChunks chunks earlier).2.canContinue = false ↔ (ofChunks chunks earlier).1 = none := by
  rcases ofChunks_cases chunks earlier with ⟨hfatal, h⟩ | ⟨-, -, kind, range, message, h⟩ |
    ⟨hcontinue, c, data, problems, -, hdata, h⟩
  · simp [h, hfatal]
  · simp [h, Diagnostic.fatalError]
  · have hproblems : canContinue ⟨problems⟩ = true := by
      simp only [canContinue, all_eq_true]
      intro d hd
      simp [(allMild_data? hdata d hd).not_fatal]
    simp [h, hcontinue, hproblems]

theorem canContinue_topLevelReport (chunks : List Chunk) (earlier : Report) :
    (topLevelReport chunks earlier).canContinue = false ↔ earlier.canContinue = false ∨
      .key ∈ chunks.filterMap outer? ∨ .comma ∈ chunks.filterMap outer? := by
  have hchunk : ∀ c : Chunk, canContinue ⟨c.illegalTopLevel⟩ = false ↔
      c.outer? = some .key ∨ c.outer? = some .comma := by
    intro c
    cases c with
    | separator weak range tokens =>
      cases weak <;>
        simp [illegalTopLevel, outer?, canContinue, Diagnostic.fatalError]
    | _ => simp [illegalTopLevel, outer?, canContinue, Diagnostic.fatalError]
  have hchunks : canContinue ⟨chunks.flatMap illegalTopLevel⟩ = false ↔
      .key ∈ chunks.filterMap outer? ∨ .comma ∈ chunks.filterMap outer? := by
    induction chunks with
    | nil => simp [canContinue]
    | cons c rest ih =>
      have hmerge : mk ((c :: rest).flatMap illegalTopLevel) =
          merge ⟨c.illegalTopLevel⟩ ⟨rest.flatMap illegalTopLevel⟩ := rfl
      simp only [hmerge, canContinue_merge, Bool.and_eq_false_iff, hchunk, ih,
        mem_filterMap, mem_cons, exists_eq_or_imp]
      exact or_or_or_comm
  rw [topLevelReport, canContinue_merge, Bool.and_eq_false_iff, hchunks]

theorem length_filter_isValue (chunks : List Chunk) :
    (chunks.filter isValue).length = (chunks.filterMap outer?).count .value := by
  induction chunks with
  | nil => rfl
  | cons c rest ih =>
    rw [filter_cons, filterMap_cons]
    cases c with
    | separator weak range tokens => cases weak <;> simp [isValue, outer?, ih]
    | _ => simp [isValue, outer?, ih]

/-- A document has no data exactly if something fatal was found before, or if what stands outside of
every block is not one value. -/
theorem ofChunks_eq_none_iff (chunks : List Chunk) (earlier : Report) :
    (ofChunks chunks earlier).1 = none ↔ earlier.canContinue = false ∨
      (.key ∈ chunks.filterMap outer? ∨ .comma ∈ chunks.filterMap outer?) ∨
        (chunks.filterMap outer?).count .value ≠ 1 := by
  rw [← or_assoc, ← canContinue_topLevelReport, ← length_filter_isValue]
  rcases ofChunks_cases chunks earlier with ⟨hfatal, h⟩ | ⟨-, hvalues, kind, range, message, h⟩ |
    ⟨hcontinue, c, data, problems, hvalues, -, h⟩
  · simp [h, hfatal]
  · simp [h, hvalues]
  · simp [h, hcontinue, hvalues]

end Data

namespace Document

/-- What the builder finds is fatal exactly if something is open at the end or a bracket skips
blocks. -/
theorem canContinue_ofTokens (text : String) :
    (ofTokens (tokensOf text)).2.canContinue = false ↔
      ((finalState text).blocks ≠ [] ∨ (finalState text).mode = .string) ∨
        ∃ v ∈ visits text, v.skips = true := by
  obtain ⟨ds, n, e, hds, hcount, hkinds, hend, hfatal, hn⟩ := exists_diagnostics_ofTokens text
  have hskips : (∃ v ∈ visits text, v.skips = true) ↔ ∃ d ∈ ds, d.kind = .bracketMismatch := by
    rw [← countP_pos_iff, ← hcount, countP_pos_iff]
    simp
  have hmismatch : ∀ d ∈ ds, (d.fatal = true ↔ d.kind = .bracketMismatch) := by
    intro d hd
    have hmem : d ∈ (ofTokens (tokensOf text)).2.diagnostics := by
      rw [hds]
      exact mem_append_left _ hd
    rcases mem_diagnostics_ofTokens hmem with hfinding | rfl
    · cases hfinding with
      | error hkind range message => simpa [Diagnostic.error] using hkind
      | mismatch opened closed => simp [Builder.mismatch, Diagnostic.fatalError]
    · exact absurd rfl (hkinds _ hd).1
  have hcontinue : (ofTokens (tokensOf text)).2.canContinue = false ↔
      n ≠ 0 ∨ ∃ d ∈ ds, d.fatal = true := by
    rw [canContinue, hds]
    by_cases hzero : n = 0 <;> simp [hzero, hfatal]
  rw [hcontinue, ← hn, hskips]
  exact or_congr_right (exists_congr fun d => and_congr_right (hmismatch d))

/-- What stands outside of every block is the same, read off the chunks or off the visits. -/
theorem outers_ofTokens {text : String} (hblocks : (finalState text).blocks = [])
    (hmode : (finalState text).mode ≠ .string) :
    (ofTokens (tokensOf text)).1.filterMap outer? = Visit.outers (visits text) := by
  have hwalk := walk_visits text
  have hstep := hwalk.inStep .start
  have houters := hwalk.outers_run .start
  rw [map_token_visits] at hstep houters
  have hfinish := Builder.outers_finish _ (hstep.frames_eq_nil_iff.2 hblocks)
    (hstep.not_inString hmode)
  rw [houters] at hfinish
  exact hfinish

/-- **A document has no data exactly if something fatal was found**, and that is so for one of these
reasons: its tokens end in an open block or in a string; a closing bracket ends deeper blocks than
its own; a key or a comma stands outside of every block; the number of values there is not one. -/
theorem data_is_missing_tfae (text : String) :
    (visits text).map (·.token) = (parse text).tokens ∧
    [(parse text).data = none,
      ∃ d ∈ (parse text).report.diagnostics, d.fatal = true,
      (parse text).report.canContinue = false,
      ((finalState text).blocks ≠ [] ∨ (finalState text).mode = .string) ∨
        (∃ v ∈ visits text, v.skips = true) ∨
        (∃ v ∈ visits text, v.isStray = true) ∨
        Visit.outerValues (visits text) ≠ 1].TFAE := by
  have hdata := congrArg Prod.fst (data_report_parse text)
  have hreport := congrArg Prod.snd (data_report_parse text)
  dsimp only at hdata hreport
  refine ⟨by rw [map_token_visits, parse], ?_⟩
  tfae_have 1 ↔ 3 := by
    rw [hdata, hreport, Data.canContinue_ofChunks]
  tfae_have 2 ↔ 3 := by
    simp [canContinue]
  tfae_have 1 ↔ 4 := by
    rw [hdata, Data.ofChunks_eq_none_iff, canContinue_ofTokens, Visit.exists_isStray_iff,
      Visit.outerValues, or_assoc]
    by_cases hopen : (finalState text).blocks ≠ [] ∨ (finalState text).mode = .string
    · simp [hopen]
    · rw [not_or, not_not] at hopen
      rw [outers_ofTokens hopen.1 hopen.2]
  tfae_finish

end Document

end TypedNotation
