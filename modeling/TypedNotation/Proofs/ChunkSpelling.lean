import TypedNotation.Proofs.Acceptance

/-!
# Chunks and the tokens between them

`Chunk.Spelled ts cs` says that the tokens `ts` are the chunks `cs`, one behind the other, with
nothing between them but blanks, comments and newlines that separate nothing. A builder that has
found nothing wrong keeps its chunks and tokens in this relation (`Covers.step`), so the chunks of a
document without errors are spelled by its tokens (`Document.Accepted.spelled`).

It follows that a comma is found needless only if, blanks and comments left out, it stands behind a
newline or an opening bracket, or in front of a newline or a closing one (`Chunk.Spelled.needless`).
-/

namespace TypedNotation

open List Sequence

namespace Chunk

/-! ### Spelling -/

/-- Whether a chunk is a value without a block, or a key. -/
def isPlain : Chunk → Bool
  | .value .. | .enum _ _ none _ _ | .key .. => true
  | _ => false

/-- Whether a token is a bracket. -/
def isBracket (t : Token) : Bool :=
  match t.kind with
  | .bracket _ _ => true
  | _ => false

/-- The tokens of a chunk that is no block. -/
inductive Piece : List Token → Chunk → Prop
  | weak {t : Token} {n : TokenRange} (ht : t.kind = .newline) : Piece [t]
      (.separator true t.range n)
  | comma {t : Token} {n : TokenRange} (ht : t.kind = .comma) : Piece [t]
      (.separator false t.range n)
  | plain {us : List Token} {c : Chunk} (hc : c.isPlain = true)
      (hus : ∀ t ∈ us, isBracket t = false) : Piece us c

/-- The chunk of a block, which may be the payload of a tag. -/
inductive Wraps (b : Bracketed Chunk) : Chunk → Prop
  | block : Wraps b (.block b)
  | payload {name : String} {tagRange range : Range} {n : TokenRange} :
      Wraps b (.enum name tagRange (some b) range n)

/-- Some tokens are some chunks, with what may stand between them. -/
inductive Spelled : List Token → List Chunk → Prop
  | nil : Spelled [] []
  | ignored {ts : List Token} {cs : List Chunk} {t : Token} (hts : Spelled ts cs)
      (ht : t.kind = .ignored) : Spelled (ts ++ [t]) cs
  | newline {ts : List Token} {cs : List Chunk} {t : Token} (hts : Spelled ts cs)
      (ht : t.kind = .newline) (hends : cs.getLast?.any Builder.endsItem = false) :
      Spelled (ts ++ [t]) cs
  | piece {ts us : List Token} {cs : List Chunk} {c : Chunk} (hts : Spelled ts cs)
      (hus : Piece us c) : Spelled (ts ++ us) (cs ++ [c])
  | block {ts tag us : List Token} {cs ds : List Chunk} {opening closing : Token} {kind : BlockKind}
      {n : TokenRange} {c : Chunk} (hts : Spelled ts cs) (htag : ∀ t ∈ tag, isBracket t = false)
      (hopening : opening.kind = .bracket kind .opening) (hus : Spelled us ds)
      (hclosing : closing.kind = .bracket kind .closing)
      (hc : Wraps ⟨kind, ds, ⟨opening.range.start, closing.range.stop⟩, n⟩ c) :
      Spelled (ts ++ (tag ++ opening :: (us ++ [closing]))) (cs ++ [c])

/-! ### What a builder has read -/

/-- The tokens of open blocks: those of the chunks around them, then for each block its bracket,
with what is in front of it, and the tokens of its chunks. -/
inductive Opened (top : List Chunk) : List Frame → List Token → Prop
  | outside {ts : List Token} (hts : Spelled ts top) : Opened top [] ts
  | inside {fs : List Frame} {ts tag us : List Token} {f : Frame} (hfs : Opened top fs ts)
      (htag : ∀ t ∈ tag, isBracket t = false) (hopening : f.bracket.kind = .bracket f.kind .opening)
      (hus : Spelled us f.children) : Opened top (f :: fs) (ts ++ (tag ++ f.bracket :: us))

/-- More tokens of the innermost block, without a chunk. -/
theorem Opened.extend {b : Builder} {ts vs : List Token} (h : Opened b.top b.frames ts)
    (hvs : ∀ us, Spelled us b.innermost → Spelled (us ++ vs) b.innermost) :
    Opened b.top b.frames (ts ++ vs) := by
  unfold Builder.innermost at hvs
  cases hframes : b.frames with
  | nil =>
    rw [hframes] at h hvs
    cases h with
    | outside hts => exact .outside (hvs ts hts)
  | cons f fs =>
    rw [hframes] at h hvs
    cases h with
    | inside hfs htag hopening hus =>
      have hnew := Opened.inside hfs htag hopening (hvs _ hus)
      simpa using hnew

/-- More tokens of the innermost block, with a chunk. -/
theorem Opened.push {b : Builder} {ts vs : List Token} {c : Chunk} (h : Opened b.top b.frames ts)
    (hvs : ∀ us, Spelled us b.innermost → Spelled (us ++ vs) (b.innermost ++ [c])) :
    Opened (b.push c).top (b.push c).frames (ts ++ vs) := by
  unfold Builder.innermost at hvs
  unfold Builder.push
  cases hframes : b.frames with
  | nil =>
    rw [hframes] at h hvs
    cases h with
    | outside hts => exact .outside (hvs ts hts)
  | cons f fs =>
    rw [hframes] at h hvs
    cases h with
    | @inside _ ts₀ tag us _ hfs htag hopening hus =>
      have hnew := Opened.inside (f := { f with children := f.children ++ [c] }) hfs htag hopening
        (hvs _ hus)
      simpa using hnew

theorem Opened.piece {b : Builder} {ts vs : List Token} {c : Chunk} (h : Opened b.top b.frames ts)
    (hvs : Piece vs c) : Opened (b.push c).top (b.push c).frames (ts ++ vs) :=
  h.push fun _ hus => hus.piece hvs

/-- The range from an opening bracket through a closing one behind it. -/
theorem combine_of_run {start stop : Position} {ts : List Token} {a b : Token}
    (h : Token.Run start stop (ts ++ [b])) (ha : a ∈ ts) :
    a.range.combine b.range = ⟨a.range.start, b.range.stop⟩ := by
  have hle : a.range.stop ≤ b.range.start :=
    (pairwise_append.1 h.ordered).2.2 a ha b (by simp)
  have hwa := (h.within a (by simp [ha])).2.1
  have hwb := (h.within b (by simp)).2.1
  have hstart : a.range.start ≤ b.range.start := Position.le_trans hwa hle
  have hstop : a.range.stop ≤ b.range.stop := Position.le_trans hle hwb
  simp [Range.combine, min, max, hstart, hstop]

/-- What a builder has built is spelled by the tokens read so far, up to a chunk that is not
complete. -/
structure Covers (b : Builder) (ts : List Token) : Prop where
  parts : ∃ front back, ts = front ++ back ∧ Opened b.top b.frames front ∧
    (∀ t ∈ back, isBracket t = false) ∧ (b.pending = .none → back = [])

namespace Covers

variable {b : Builder} {ts : List Token} {t : Token}

theorem of_opened (h : Opened b.top b.frames ts) : Covers b ts :=
  ⟨ts, [], by simp, h, by simp, fun _ => rfl⟩

theorem opened (h : Covers b ts) (hpending : b.pending = .none) : Opened b.top b.frames ts := by
  obtain ⟨front, back, rfl, hopened, -, hback⟩ := h.parts
  simpa [hback hpending] using hopened

/-- A pending chunk goes on. -/
theorem more (h : Covers b ts) (ht : isBracket t = false) {p : Pending} (hp : p ≠ .none)
    (weak : Bool) : Covers { b with pending := p, weakAllowed := weak } (ts ++ [t]) := by
  obtain ⟨front, back, rfl, hopened, hback, -⟩ := h.parts
  refine ⟨front, back ++ [t], by simp, hopened, fun u hu => ?_, fun hn => absurd hn hp⟩
  rcases mem_append.1 hu with hu | hu
  · exact hback u hu
  · rwa [mem_singleton.1 hu]

/-- A pending chunk is complete. -/
theorem complete (h : Covers b ts) {c : Chunk} (hc : c.isPlain = true) (weak : Bool) :
    Opened (b.complete c weak).top (b.complete c weak).frames ts := by
  obtain ⟨front, back, rfl, hopened, hback, -⟩ := h.parts
  exact hopened.piece (.plain hc hback)

/-- A pending chunk is complete with a token. -/
theorem complete_with (h : Covers b ts) {c : Chunk} (hc : c.isPlain = true) (weak : Bool)
    (ht : isBracket t = false) :
    Opened (b.complete c weak).top (b.complete c weak).frames (ts ++ [t]) := by
  obtain ⟨front, back, rfl, hopened, hback, -⟩ := h.parts
  have hpiece : Piece (back ++ [t]) c := .plain hc fun u hu => by
    rcases mem_append.1 hu with hu | hu
    · exact hback u hu
    · rwa [mem_singleton.1 hu]
  rw [append_assoc]
  exact hopened.piece hpiece

/-- An opening bracket. What is pending is a tag in front of it. -/
theorem open_ (h : Covers b ts) {kind : BlockKind} (ht : t.kind = .bracket kind .opening)
    {tag : Option Tag} {index : Nat} :
    Opened b.top (⟨kind, t, index, tag, []⟩ :: b.frames) (ts ++ [t]) := by
  obtain ⟨front, back, rfl, hopened, hback, -⟩ := h.parts
  have hnew := Opened.inside (f := ⟨kind, t, index, tag, []⟩) hopened hback ht .nil
  simpa using hnew

/-- A closing bracket of the kind of the innermost block. -/
theorem close (h : Opened b.top b.frames ts) {f : Frame} {fs : List Frame}
    (hframes : b.frames = f :: fs) (ht : t.kind = .bracket f.kind .closing) {start stop : Position}
    (hrun : Token.Run start stop (ts ++ [t])) (index : Nat) :
    Opened (Builder.push { b with frames := fs } (f.chunk t index)).top
      (Builder.push { b with frames := fs } (f.chunk t index)).frames (ts ++ [t]) := by
  rw [hframes] at h
  cases h with
  | @inside _ ts₀ tag us _ hfs htag hopening hus =>
    have hrange := combine_of_run hrun (a := f.bracket) (by simp)
    have hwraps : ∃ n, Wraps ⟨f.kind, f.children, ⟨f.bracket.range.start, t.range.stop⟩, n⟩
        (f.chunk t index) := by
      refine ⟨⟨f.index, index + 1⟩, ?_⟩
      unfold Frame.chunk
      dsimp only
      rw [hrange]
      split
      · exact .payload
      · exact .block
    obtain ⟨n, hwraps⟩ := hwraps
    have hpush := Opened.push (b := { b with frames := fs }) hfs
      fun ws hws => hws.block htag hopening hus ht hwraps
    simpa using hpush

/-- Reading a token with nothing pending. -/
theorem read (h : Opened b.top b.frames ts) (hpending : b.pending = .none) (hready : b.Ready)
    (hdiagnostics : (b.read t).diagnostics = []) {start stop : Position}
    (hrun : Token.Run start stop (ts ++ [t])) : Covers (b.read t) (ts ++ [t]) := by
  have hfound : b.diagnostics = [] := by
    rw [Builder.diagnostics_read] at hdiagnostics
    exact (append_eq_nil_iff.1 hdiagnostics).1
  have hcovers := of_opened h
  have hinvalid : ∀ {p : Prop}, (b.invalid t).diagnostics = [] → p := fun hnil => by
    simp [Builder.diagnostics_invalid] at hnil
  cases hk : t.kind with
  | ignored =>
    have hsame : b.read t = b := by simp [Builder.read, hk]
    rw [hsame]
    exact of_opened (h.extend fun us hus => hus.ignored hk)
  | newline =>
    cases hweak : b.weakAllowed with
    | true =>
      simp only [Builder.read, hk, hweak, if_true]
      exact of_opened (h.piece (.weak hk))
    | false =>
      have hsame : b.read t = b := by simp [Builder.read, hk, hweak]
      rw [hsame]
      exact of_opened (h.extend fun us hus =>
        hus.newline hk ((hready hfound hpending).symm.trans hweak))
  | comma =>
    simp only [Builder.read, hk]
    exact of_opened (h.piece (.comma hk))
  | literal l =>
    simp only [Builder.read, hk, Builder.foldl_report]
    exact of_opened (Opened.piece (b := { b with diagnostics := b.diagnostics ++ (l.read t).2 }) h
      (.plain rfl (by simp [isBracket, hk])))
  | key | tag =>
    simp only [Builder.read, hk]
    exact hcovers.more (by simp [isBracket, hk]) (by simp) _
  | quote side =>
    cases side with
    | opening =>
      simp only [Builder.read, hk]
      exact hcovers.more (by simp [isBracket, hk]) (by simp) _
    | closing => exact hinvalid (by simpa [Builder.read, hk] using hdiagnostics)
  | bracket kind side =>
    cases side with
    | opening =>
      simp only [Builder.read, hk]
      exact of_opened (hcovers.open_ hk)
    | closing =>
      cases hframes : b.frames with
      | nil =>
        exact hinvalid (by simpa [Builder.read, hk, Builder.close, hframes] using hdiagnostics)
      | cons f fs =>
        obtain rfl : f.kind = kind := by
          by_contra hne
          simp [Builder.read, hk, Builder.close, hframes, hne, Builder.report] at hdiagnostics
        simp only [Builder.read, hk, b.close_of_frames t hframes]
        exact of_opened (close h hframes hk hrun b.index)
  | colon | stringText escape | invalid unknown =>
    exact hinvalid (by simpa [Builder.read, hk] using hdiagnostics)

/-- **Reading a token keeps the builder covered**, as long as nothing is wrong. -/
theorem step (h : Covers b ts) (hready : b.Ready) (hdiagnostics : (b.step t).diagnostics = [])
    {start stop : Position} (hrun : Token.Run start stop (ts ++ [t])) :
    Covers (b.step t) (ts ++ [t]) := by
  suffices hnext : Covers (b.readNext t) (ts ++ [t]) from ⟨hnext.parts⟩
  have hpart : ∀ {text}, Builder.stringPart? t = some text → isBracket t = false := by
    intro text hpart
    have hkeeps := Builder.keepsString_of_stringPart? hpart
    cases hk : t.kind <;> simp_all [Builder.keepsString, isBracket]
  have houtcome := b.outcome_readNext t
  rw [Builder.diagnostics_step_eq] at hdiagnostics
  generalize b.readNext t = b' at houtcome hdiagnostics ⊢
  cases houtcome with
  | skip _ hk =>
    by_cases hpending : b.pending = .none
    · exact of_opened ((h.opened hpending).extend fun us hus => hus.ignored hk)
    · exact h.more (by simp [isBracket, hk]) hpending b.weakAllowed
  | read hpending _ => exact read (h.opened hpending) hpending hready hdiagnostics hrun
  | invalid | badText => simp [Builder.diagnostics_invalid] at hdiagnostics
  | payload _ hk => exact of_opened (h.open_ hk)
  | unit => exact read (h.complete rfl true) rfl (Builder.ready_complete b rfl) hdiagnostics hrun
  | colon _ hk => exact of_opened (h.complete_with rfl false (by simp [isBracket, hk]))
  | bareKey =>
    exact read (h.complete rfl false) rfl (Builder.ready_complete b rfl) hdiagnostics hrun
  | text _ ht => exact h.more (hpart ht) (by simp) b.weakAllowed
  | closingQuote _ hk => exact of_opened (h.complete_with rfl true (by simp [isBracket, hk]))
  | cut => simp [Builder.diagnostics_read, Builder.report] at hdiagnostics

end Covers

theorem Builder.exists_diagnostics_run (b : Builder) (ts : List Token) :
    ∃ ds, (b.run ts).diagnostics = b.diagnostics ++ ds := by
  induction ts generalizing b with
  | nil => exact ⟨[], by simp⟩
  | cons t ts ih =>
    obtain ⟨ds, hds, -⟩ := b.exists_diagnostics_step t
    obtain ⟨es, hes⟩ := ih (b.step t)
    exact ⟨ds ++ es, by rw [Builder.run_cons, hes, hds, append_assoc]⟩

end Chunk

open Chunk (Builder)

/-- A builder that walks through the tokens of a text without finding anything is covered. -/
theorem Walk.covers_run {s last : Scanner} {vs : List Visit} (h : Walk s vs last) {b : Builder}
    (hb : InStep s b) (hready : b.Ready) {ts : List Token} (hcovers : Chunk.Covers b ts)
    (hdiagnostics : (b.run (vs.map (·.token))).diagnostics = []) {start stop : Position}
    (hrun : Token.Run start stop (ts ++ vs.map (·.token))) :
    Chunk.Covers (b.run (vs.map (·.token))) (ts ++ vs.map (·.token)) := by
  induction h generalizing b ts with
  | nil => simpa using hcovers
  | @cons s next last t vs hmoves _ ih =>
    have hnext := (Builder.config?_step hready (hb.kind_ne_ignored hmoves)).2
    simp only [map_cons, Builder.run_cons] at hdiagnostics hrun ⊢
    have hfound : (b.step t).diagnostics = [] := by
      obtain ⟨ds, hds⟩ := (b.step t).exists_diagnostics_run (vs.map (·.token))
      rw [hdiagnostics] at hds
      exact (append_eq_nil_iff.1 hds.symm).1
    have hassoc : ts ++ t :: vs.map (·.token) = (ts ++ [t]) ++ vs.map (·.token) := by simp
    rw [hassoc] at hrun ⊢
    have hfirst : Token.Run start stop (ts ++ [t]) :=
      ⟨hrun.le, fun u hu => hrun.within u (mem_append_left _ hu),
        (pairwise_append.1 hrun.ordered).1⟩
    exact ih (hb.step hmoves) hnext (hcovers.step hready hfound hfirst) hdiagnostics hrun

/-- The tokens of an accepted document spell its chunks. -/
theorem Document.Accepted.spelled {text : String} {c : Chunk} {data : Data}
    (h : Accepted text c data) : Chunk.Spelled (tokensOf text) (parse text).chunks := by
  obtain ⟨start, stop, hrun⟩ := inOrder_tokensOf text
  have hstart : Chunk.Covers {} [] := .of_opened (.outside .nil)
  have hwalk := (walk_visits text).covers_run .start (fun _ _ => rfl) hstart
  simp only [map_token_visits, nil_append] at hwalk
  have hcovers := hwalk h.diagnostics hrun
  rw [h.chunks]
  have hsettled : Chunk.Opened (builderOf text).settle.top (builderOf text).settle.frames
      (tokensOf text) := by
    unfold Builder.settle
    split
    next hpending => exact hcovers.opened hpending
    next => exact hcovers.complete rfl true
    next => exact hcovers.complete rfl false
    next s hpending => exact absurd ⟨s, hpending⟩ h.string
  rw [(builderOf text).frames_settle_eq_nil.2 h.frames] at hsettled
  cases hsettled with
  | outside hts => exact hts

namespace Chunk

/-! ### Chunks without errors -/

/-- What is read off a block, whether it is a payload or not. -/
theorem Wraps.data? {b : Bracketed Chunk} {c : Chunk} (h : Wraps b c) :
    ∃ data, c.data? = some (data, (contents b.kind (items b.children)).2) ∧
      ∀ p, data.depthAt p = Data.blockDepthAt p
        ⟨(contents b.kind (items b.children)).1, b.range, b.tokens⟩ := by
  obtain ⟨kind, children, range, tokens⟩ := b
  cases h with
  | block | payload => exact ⟨_, rfl, fun p => by rw [Data.depthAt]; rfl⟩

/-- There is nothing to be found in a value without a block. -/
theorem snd_eq_nil_of_isPlain {c : Chunk} (h : c.isPlain = true) {found : Data × List Diagnostic}
    (hfound : c.data? = some found) : found.2 = [] := by
  cases c with
  | enum tag tagRange payload r n =>
    cases payload with
    | none =>
      obtain rfl := Option.some.inj hfound
      rfl
    | some b => simp [isPlain] at h
  | value v r n =>
    obtain rfl := Option.some.inj hfound
    rfl
  | key | separator => simp [data?] at hfound
  | block => simp [isPlain] at h

/-- A block without errors is in sequence. -/
theorem Wraps.exists_run {b : Bracketed Chunk} {c : Chunk} (h : Wraps b c)
    (hclean : c.isClean = true) :
    ∃ l, (Level.inside b.kind).run b.children = some l ∧ l.isComplete = true := by
  obtain ⟨data, hdata, -⟩ := h.data?
  by_contra hnone
  obtain ⟨d, hd, herror⟩ := @exists_error_contents b.kind b.children
    fun l hl => by
      by_contra hcomplete
      exact hnone ⟨l, hl, by simpa using hcomplete⟩
  simp only [isClean, hdata, Option.all_some, all_eq_true, Bool.not_eq_true'] at hclean
  rw [hclean d hd] at herror
  cases herror

/-- The chunks of a block in sequence are without errors. -/
theorem isClean_of_run {l l' : Level} {cs : List Chunk} (h : l.run cs = some l') :
    ∀ c ∈ cs, c.isClean = true := by
  induction cs generalizing l with
  | nil => simp
  | cons c cs ih =>
    rw [Level.run_cons] at h
    obtain ⟨m, hm, hrest⟩ := Option.bind_eq_some_iff.1 h
    refine forall_mem_cons.2 ⟨?_, ih hrest⟩
    cases hvalue : c.isValue with
    | true =>
      rw [next_of_isValue hvalue, Option.ite_none_right_eq_some] at hm
      exact hm.1
    | false => cases c <;> simp_all [isValue, isClean, data?]

/-- There are no two commas in a row in a block in sequence. -/
theorem not_run_two_commas {l l' : Level} {before after : List Chunk} {r r' : Range}
    {n n' : TokenRange} (h : l.run
      (before ++ .separator false r n :: .separator false r' n' :: after) = some l') : False := by
  rw [Level.run, foldlM_append] at h
  obtain ⟨m, -, hrest⟩ := Option.bind_eq_some_iff.1 h
  simp only [foldlM_cons, Option.bind_eq_bind, Option.bind_eq_some_iff] at hrest
  obtain ⟨m₁, h₁, m₂, h₂, -⟩ := hrest
  simp only [Level.next, Level.separate, Bool.false_eq_true, if_false, Level.comma,
    Option.ite_none_right_eq_some, Option.some.injEq] at h₁ h₂
  obtain ⟨-, rfl⟩ := h₁
  simp at h₂

/-! ### Needless commas -/

/-- Behind some tokens a line or a block starts, blanks and comments left out. -/
def OpensLine (ts : List Token) : Prop :=
  ∃ front y gap, ts = front ++ y :: gap ∧ (∀ t ∈ gap, t.kind = .ignored) ∧
    (y.kind = .newline ∨ ∃ kind, y.kind = .bracket kind .opening)

/-- In front of some tokens a line or a block ends, blanks and comments left out. -/
def EndsLine (ts : List Token) : Prop :=
  ∃ gap y back, ts = gap ++ y :: back ∧ (∀ t ∈ gap, t.kind = .ignored) ∧
    (y.kind = .newline ∨ ∃ kind, y.kind = .bracket kind .closing)

theorem OpensLine.append_left {ts : List Token} (h : OpensLine ts) (us : List Token) :
    OpensLine (us ++ ts) := by
  obtain ⟨front, y, gap, rfl, hgap, hy⟩ := h
  exact ⟨us ++ front, y, gap, by simp, hgap, hy⟩

theorem EndsLine.append_right {ts : List Token} (h : EndsLine ts) (us : List Token) :
    EndsLine (ts ++ us) := by
  obtain ⟨gap, y, back, rfl, hgap, hy⟩ := h
  exact ⟨gap, y, back ++ us, by simp, hgap, hy⟩

/-- The finding of a needless comma. -/
def needless (r : Range) : Diagnostic :=
  (Diagnostic.warning .unnecessaryComma r "Unnecessary comma").withFix (.delete r)

/-- A finding is that of a comma among some tokens that does not separate items. -/
def NeedlessIn (ts : List Token) (d : Diagnostic) : Prop :=
  ∃ front t back, ts = front ++ t :: back ∧ t.kind = .comma ∧ d = needless t.range ∧
    (OpensLine front ∨ EndsLine back)

theorem NeedlessIn.append {ts : List Token} {d : Diagnostic} (h : NeedlessIn ts d)
    (us vs : List Token) : NeedlessIn (us ++ (ts ++ vs)) d := by
  obtain ⟨front, t, back, rfl, ht, hd, hline⟩ := h
  exact ⟨us ++ front, t, back ++ vs, by simp, ht, hd,
    hline.imp (·.append_left us) (·.append_right vs)⟩

namespace Spelled

variable {ts : List Token} {cs : List Chunk}

/-- Behind a newline, or behind nothing, there is the start of a line, or nothing but blanks and
comments. -/
theorem opensLine (h : Spelled ts cs) (hlast : ∀ c ∈ cs.getLast?, ∃ r n, c = .separator true r n) :
    (∀ t ∈ ts, t.kind = .ignored) ∨ OpensLine ts := by
  induction h with
  | nil => exact .inl (by simp)
  | @ignored ts cs t hts ht ih =>
    rcases ih hlast with hall | ⟨front, y, gap, rfl, hgap, hy⟩
    · exact .inl (by simpa [or_imp, forall_and, ht] using hall)
    · refine .inr ⟨front, y, gap ++ [t], by simp, ?_, hy⟩
      simpa [or_imp, forall_and, ht] using hgap
  | @newline ts cs t hts ht _ _ => exact .inr ⟨ts, t, [], rfl, by simp, .inl ht⟩
  | @piece ts us cs c hts hus _ =>
    obtain ⟨r, n, rfl⟩ := hlast c (by simp)
    cases hus with
    | @weak t _ ht => exact .inr ⟨ts, t, [], rfl, by simp, .inl ht⟩
    | plain hc _ => simp [isPlain] at hc
  | @block _ _ _ _ _ _ _ _ _ c _ _ _ _ _ hc _ _ =>
    obtain ⟨r, n, rfl⟩ := hlast c (by simp)
    cases hc

/-- The tokens around a comma. -/
theorem split_comma (h : Spelled ts cs) {before after : List Chunk} {r : Range} {n : TokenRange}
    (hcs : cs = before ++ .separator false r n :: after) :
    ∃ front t back, ts = front ++ t :: back ∧ Spelled front before ∧ t.kind = .comma ∧ t.range = r ∧
      (after = [] → ∀ u ∈ back, u.kind = .ignored) ∧
      (∀ r' n' rest, after = .separator true r' n' :: rest → EndsLine back) := by
  -- chunks are added at the end, so the comma is the last one or in what came before
  induction h generalizing after with
  | nil => simp at hcs
  | @ignored ts cs u hts hu ih =>
    obtain ⟨front, t, back, rfl, hfront, ht, hr, hnil, hweak⟩ := ih hcs
    refine ⟨front, t, back ++ [u], by simp, hfront, ht, hr, fun hafter => ?_,
      fun r' n' rest hafter => ?_⟩
    · simpa [or_imp, forall_and, hu] using hnil hafter
    · exact (hweak r' n' rest hafter).append_right [u]
  | @newline ts cs u hts hu hends ih =>
    obtain ⟨front, t, back, rfl, hfront, ht, hr, -, hweak⟩ := ih hcs
    refine ⟨front, t, back ++ [u], by simp, hfront, ht, hr, fun hafter => ?_,
      fun r' n' rest hafter => ?_⟩
    · simp [hcs, hafter, Builder.endsItem] at hends
    · exact (hweak r' n' rest hafter).append_right [u]
  | @piece ts us cs c hts hus ih =>
    rcases eq_nil_or_concat after with rfl | ⟨after, d, rfl⟩
    · obtain ⟨rfl, hc⟩ := append_inj' hcs rfl
      obtain rfl := singleton_inj.1 hc
      cases hus with
      | @comma t _ ht => exact ⟨ts, t, [], rfl, hts, ht, rfl, by simp, by simp⟩
      | plain hc _ => simp [isPlain] at hc
    · rw [concat_eq_append, ← cons_append, ← append_assoc] at hcs
      obtain ⟨hfirst, hd⟩ := append_inj' hcs rfl
      obtain rfl := singleton_inj.1 hd
      obtain ⟨front, t, back, rfl, hfront, ht, hr, hnil, hweak⟩ := ih hfirst
      refine ⟨front, t, back ++ us, by simp, hfront, ht, hr, by simp, fun r' n' rest hafter => ?_⟩
      cases after with
      | nil =>
        obtain ⟨rfl, -⟩ : c = .separator true r' n' ∧ rest = [] := by simpa using hafter
        cases hus with
        | @weak u _ hu => exact ⟨back, u, [], rfl, hnil rfl, .inl hu⟩
        | plain hc _ => simp [isPlain] at hc
      | cons e after =>
        obtain rfl : e = .separator true r' n' := by simpa using (List.cons.inj hafter).1
        exact (hweak r' n' after rfl).append_right us
  | @block ts tag us cs ds opening closing kind m c hts _ _ _ _ hc ih _ =>
    rcases eq_nil_or_concat after with rfl | ⟨after, d, rfl⟩
    · obtain ⟨rfl, hc'⟩ := append_inj' hcs rfl
      obtain rfl := singleton_inj.1 hc'
      cases hc
    · rw [concat_eq_append, ← cons_append, ← append_assoc] at hcs
      obtain ⟨hfirst, hd⟩ := append_inj' hcs rfl
      obtain rfl := singleton_inj.1 hd
      obtain ⟨front, t, back, rfl, hfront, ht, hr, -, hweak⟩ := ih hfirst
      refine ⟨front, t, back ++ (tag ++ opening :: (us ++ [closing])), by simp, hfront, ht, hr,
        by simp, fun r' n' rest hafter => ?_⟩
      cases after with
      | nil =>
        obtain ⟨rfl, -⟩ : c = .separator true r' n' ∧ rest = [] := by simpa using hafter
        cases hc
      | cons e after =>
        obtain rfl : e = .separator true r' n' := by simpa using (List.cons.inj hafter).1
        exact (hweak r' n' after rfl).append_right _

/-- What is found in chunks is found at one of them. -/
theorem exists_of_mem_findings {d : Diagnostic} {seen : List Chunk}
    (h : d ∈ findings seen cs) :
    ∃ before c after, cs = before ++ c :: after ∧
      d ∈ ownFindings (items (seen ++ before)).reverse c (items after) := by
  induction cs generalizing seen with
  | nil => simp [findings] at h
  | cons c cs ih =>
    rw [findings] at h
    rcases mem_append.1 h with h | h
    · exact ⟨[], c, cs, rfl, by simpa using h⟩
    · obtain ⟨before, e, after, rfl, hd⟩ := ih h
      exact ⟨c :: before, e, after, rfl, by simpa using hd⟩

/-- A comma of a block in sequence from which only separators lie on the way to an edge has the edge
next to it. -/
theorem needlessIn_of_needlessComma (h : Spelled ts cs) {l l' : Level} (hrun : l.run cs = some l')
    {opening closing : Token} {kind : BlockKind} (hopening : opening.kind = .bracket kind .opening)
    (hclosing : closing.kind = .bracket kind .closing) {before after : List Chunk} {c : Chunk}
    (hcs : cs = before ++ c :: after) {d : Diagnostic}
    (hd : d ∈ needlessComma (items before).reverse c (items after)) :
    NeedlessIn (opening :: (ts ++ [closing])) d := by
  unfold needlessComma at hd
  split at hd
  next r n =>
    split at hd
    next hedge =>
      obtain ⟨front, t, back, rfl, hfront, ht, rfl, hnil, hweak⟩ := h.split_comma hcs
      refine ⟨opening :: front, t, back ++ [closing], by simp, ht, mem_singleton.1 hd, ?_⟩
      rw [Bool.or_eq_true] at hedge
      rcases hedge with hedge | hedge
      · refine .inr ?_
        cases after with
        | nil => exact ⟨back, closing, [], rfl, hnil rfl, .inr ⟨kind, hclosing⟩⟩
        | cons e after =>
          cases e with
          | separator weak r' n' =>
            cases weak with
            | true => exact (hweak r' n' after rfl).append_right _
            | false => exact absurd (hcs ▸ hrun) not_run_two_commas
          | _ => simp [items, reachesEdge] at hedge
      · refine .inl ?_
        have hlast : ∀ e ∈ before.getLast?, ∃ r n, e = .separator true r n := by
          intro e he
          obtain ⟨before, rfl⟩ := getLast?_eq_some_iff.1 he
          rw [items_concat, reverse_append] at hedge
          cases e with
          | separator weak r' n' =>
            cases weak with
            | true => exact ⟨r', n', rfl⟩
            | false =>
              rw [hcs, append_assoc] at hrun
              exact absurd hrun not_run_two_commas
          | _ => simp [reachesEdge] at hedge
        rcases hfront.opensLine hlast with hall | hopens
        · exact ⟨[], opening, front, rfl, hall, .inr ⟨kind, hopening⟩⟩
        · exact hopens.append_left [opening]
    next => simp at hd
  next => simp at hd

/-- **Needless commas.** What is found in chunks without errors are commas that have an edge of a
line or of a block next to them. -/
theorem needless (h : Spelled ts cs) {c : Chunk} (hc : c ∈ cs) (hclean : c.isClean = true)
    {found : Data × List Diagnostic} (hfound : c.data? = some found) :
    ∀ d ∈ found.2, NeedlessIn ts d := by
  induction h generalizing c found with
  | nil => simp at hc
  | @ignored ts cs t hts ht ih | @newline ts cs t hts ht _ ih =>
    exact fun d hd => (ih hc hclean hfound d hd).append [] [t]
  | @piece ts us cs e hts hus ih =>
    intro d hd
    rcases mem_append.1 hc with hc | hc
    · exact (ih hc hclean hfound d hd).append [] us
    · obtain rfl := mem_singleton.1 hc
      have hnothing : found.2 = [] := by
        cases hus with
        | weak | comma => simp [data?] at hfound
        | plain hplain _ => exact snd_eq_nil_of_isPlain hplain hfound
      simp [hnothing] at hd
  | @block ts tag us cs ds opening closing kind n e hts _ hopening hus hclosing hwraps ih ihin =>
    intro d hd
    rcases mem_append.1 hc with hc | hc
    · exact (ih hc hclean hfound d hd).append [] _
    · obtain rfl := mem_singleton.1 hc
      obtain ⟨l, hrun, hcomplete⟩ := hwraps.exists_run hclean
      obtain ⟨data, hdata, -⟩ := hwraps.data?
      obtain rfl := Option.some.inj (hfound.symm.trans hdata)
      dsimp only at hd hrun
      rw [(contents_of_run hrun hcomplete).1] at hd
      obtain ⟨before, x, after, hds, hx⟩ := exists_of_mem_findings hd
      have hin : NeedlessIn (opening :: (us ++ [closing])) d := by
        unfold ownFindings at hx
        split at hx
        next data problems hxdata =>
          have hmem : x ∈ ds := by simp [hds]
          exact (ihin hmem (isClean_of_run hrun x hmem) hxdata d hx).append [opening] [closing]
        next => exact hus.needlessIn_of_needlessComma hrun hopening hclosing hds hx
      have happend := hin.append (ts ++ tag) []
      simpa using happend

end Spelled

end Chunk

/-- All that is found in an accepted document are needless commas. -/
theorem Document.Accepted.needless {text : String} {c : Chunk} {data : Data}
    (h : Accepted text c data) :
    ∀ d ∈ (parse text).report.diagnostics, Chunk.NeedlessIn (tokensOf text) d := by
  have hmem : c ∈ (parse text).chunks := by
    have hvalue : c ∈ (parse text).chunks.filter Chunk.isValue := by simp [h.values]
    exact (mem_filter.1 hvalue).1
  exact h.spelled.needless hmem (Chunk.isClean_of_run h.run c hmem) h.data?_eq

end TypedNotation
