import Mathlib.Algebra.BigOperators.Group.List.Basic
import Mathlib.Algebra.Ring.Int.Defs
import TypedNotation.Proofs.ChunkSpelling

/-!
# The number of blocks around a place

The layout of a document goes by the number of blocks around a place, which is found by going down
the data. In a document without errors that number can be told from the tokens: it is the number of
brackets in front of the place that are open there (`Document.Accepted.depthAt_eq`). Where the place
is in a closing bracket, the block that it closes does not count.
-/

namespace TypedNotation

open List Data Position TokenKind

namespace TokenKind

/-- What a token adds to the number of open brackets. -/
def turn : TokenKind → Int
  | bracket _ .opening => 1
  | bracket _ .closing => -1
  | _ => 0

/-- Whether a token is a closing bracket. -/
def isClosing : TokenKind → Bool
  | bracket _ .closing => true
  | _ => false

theorem isClosing_iff {k : TokenKind} :
    k.isClosing = true ↔ ∃ kind, k = .bracket kind .closing := by
  unfold isClosing
  split
  · simp
  next h => simpa using fun kind hk => h kind hk

end TokenKind

namespace Token

/-- The number of brackets that are open behind some tokens. -/
def balance (ts : List Token) : Int :=
  (ts.map (·.kind.turn)).sum

@[simp] theorem balance_nil : balance [] = 0 := rfl

@[simp] theorem balance_cons (t : Token) (ts : List Token) :
    balance (t :: ts) = t.kind.turn + balance ts := by
  simp [balance]

@[simp] theorem balance_append (ts us : List Token) :
    balance (ts ++ us) = balance ts + balance us := by
  simp [balance]

theorem turn_of_isBracket {t : Token} (h : Chunk.isBracket t = false) : t.kind.turn = 0 := by
  unfold turn
  split <;> simp_all [Chunk.isBracket]

/-- Without brackets the balance is even. -/
theorem balance_eq_zero {ts : List Token} (h : ∀ t ∈ ts, Chunk.isBracket t = false) :
    balance ts = 0 := by
  induction ts with
  | nil => rfl
  | cons t ts ih =>
    rw [balance_cons, turn_of_isBracket (h t (by simp)), ih fun u hu => h u (by simp [hu])]
    rfl

/-- Brackets are one column wide. -/
def BracketsFit (ts : List Token) : Prop :=
  ∀ t ∈ ts, Chunk.isBracket t = true →
    t.range.stop = ⟨t.range.start.line, t.range.start.character + 1⟩

theorem BracketsFit.sublist {ts us : List Token} (h : BracketsFit ts) (hus : us.Sublist ts) :
    BracketsFit us :=
  fun t ht => h t (hus.subset ht)

theorem Run.sublist {start stop : Position} {ts us : List Token} (h : Run start stop ts)
    (hus : us.Sublist ts) : Run start stop us :=
  ⟨h.le, fun t ht => h.within t (hus.subset ht), h.ordered.sublist hus⟩

/-- The tokens in front of a place of a token and those behind it. -/
theorem Run.around {start stop : Position} {front back : List Token} {t : Token}
    (h : Run start stop (front ++ t :: back)) {p : Position} (hp : t.range.contains p = true) :
    (∀ u ∈ front, u.range.stop ≤ p) ∧ ∀ u ∈ back, p < u.range.start := by
  obtain ⟨hle, hlt⟩ := Range.contains_iff.1 hp
  obtain ⟨-, hcons, hcross⟩ := pairwise_append.1 h.ordered
  refine ⟨fun u hu => le_trans (hcross u hu t (by simp)) hle, fun u hu => ?_⟩
  have hnext := (pairwise_cons.1 hcons).1 u hu
  simp only [lt_def, le_def] at hlt hnext ⊢
  omega

/-- A token of two lists is in the first or in the second. -/
theorem split_append {ts us front back : List Token} {t : Token}
    (h : ts ++ us = front ++ t :: back) :
    (∃ mid, ts = front ++ t :: mid ∧ back = mid ++ us) ∨
      ∃ mid, front = ts ++ mid ∧ us = mid ++ t :: back := by
  rcases append_eq_append_iff.1 h with ⟨mid, rfl, rfl⟩ | ⟨mid, rfl, hus⟩
  · exact .inr ⟨mid, rfl, rfl⟩
  · cases mid with
    | nil => exact .inr ⟨[], by simp, by simpa using hus.symm⟩
    | cons u mid =>
      obtain ⟨rfl, rfl⟩ := List.cons.inj hus
      exact .inl ⟨mid, rfl, rfl⟩

theorem singleton_split {u t : Token} {mid back : List Token} (h : [u] = mid ++ t :: back) :
    mid = [] ∧ u = t := by
  cases mid with
  | nil => exact ⟨rfl, (List.cons.inj h).1⟩
  | cons v mid => simp at h

end Token

open Token (balance)

namespace Data

/-- The depth in elements is the greatest one. -/
theorem itemsDepthAt_append (p : Position) (items more : List Data) :
    itemsDepthAt p (items ++ more) = max (itemsDepthAt p items) (itemsDepthAt p more) := by
  induction items with
  | nil => simp [itemsDepthAt]
  | cons d items ih => simp [itemsDepthAt, ih, Nat.max_assoc]

theorem entriesDepthAt_eq (p : Position) (entries : List (String × Data)) :
    entriesDepthAt p entries = itemsDepthAt p (entries.map (·.2)) := by
  induction entries with
  | nil => simp [entriesDepthAt, itemsDepthAt]
  | cons e entries ih => simp [entriesDepthAt, itemsDepthAt, ih]

/-- The number of blocks around a place, by the parts of a block. -/
theorem blockDepthAt_children (p : Position) (b : Block Data) :
    blockDepthAt p b =
      if (b.range.contract 1 1).contains p then 1 + itemsDepthAt p b.contents.children else 0 := by
  obtain ⟨contents, range, tokens⟩ := b
  cases contents with
  | dict entries ranges =>
    rw [Contents.children, ← entriesDepthAt_eq]
    rfl
  | array items => rfl
  | tuple items => rfl

/-- The number of blocks around a place, for a block with its brackets. -/
theorem blockDepthAt_eq (p : Position) (contents : Contents Data) (opening closing : Token)
    (n : TokenRange)
    (hopening : opening.range.stop = ⟨opening.range.start.line, opening.range.start.character + 1⟩)
    (hclosing : closing.range.stop =
      ⟨closing.range.start.line, closing.range.start.character + 1⟩) :
    blockDepthAt p ⟨contents, ⟨opening.range.start, closing.range.stop⟩, n⟩ =
      if opening.range.stop ≤ p ∧ p < closing.range.start then 1 + itemsDepthAt p contents.children
      else 0 := by
  have hinner : (Range.contract ⟨opening.range.start, closing.range.stop⟩ 1 1).contains p = true ↔
      opening.range.stop ≤ p ∧ p < closing.range.start := by
    rw [Range.contains_iff, hopening, Range.contract, hclosing]
    rfl
  rw [blockDepthAt_children]
  exact if_congr hinner rfl rfl

end Data

namespace Chunk

/-- A chunk without a block has no depth. -/
theorem depthAt_of_isPlain {c : Chunk} (h : c.isPlain = true) {data : Data}
    (hvalue : c.value? = some data) (p : Position) : data.depthAt p = 0 := by
  cases c with
  | enum tag tagRange payload r n =>
    cases payload with
    | none =>
      obtain rfl := Option.some.inj hvalue
      rw [depthAt]
    | some b => simp [isPlain] at h
  | value v r n =>
    obtain rfl := Option.some.inj hvalue
    rw [depthAt]
  | key => simp [value?, data?] at hvalue
  | separator => simp [isPlain] at h
  | block => simp [isPlain] at h

/-- There are no blocks in a chunk that is no block. -/
theorem Piece.depthAt {us : List Token} {c : Chunk} (h : Piece us c) (p : Position) :
    itemsDepthAt p ([c].filterMap value?) = 0 := by
  cases hvalue : c.value? with
  | none => simp [hvalue, itemsDepthAt]
  | some data =>
    have hzero : data.depthAt p = 0 := by
      cases h with
      | weak | comma => simp [value?, data?] at hvalue
      | plain hc _ => exact depthAt_of_isPlain hc hvalue p
    simp [hvalue, itemsDepthAt, hzero]

/-- The number of blocks around a place, for the chunk of a block. -/
theorem Wraps.depthAt {kind : BlockKind} {ds : List Chunk} {opening closing : Token}
    {n : TokenRange} {c : Chunk}
    (h : Wraps ⟨kind, ds, ⟨opening.range.start, closing.range.stop⟩, n⟩ c) (p : Position)
    (hopening : opening.range.stop = ⟨opening.range.start.line, opening.range.start.character + 1⟩)
    (hclosing : closing.range.stop =
      ⟨closing.range.start.line, closing.range.start.character + 1⟩) :
    itemsDepthAt p ([c].filterMap value?) =
      if opening.range.stop ≤ p ∧ p < closing.range.start then
        1 + itemsDepthAt p (Sequence.contents kind (items ds)).1.children
      else 0 := by
  obtain ⟨data, hdata, hdepth⟩ := h.data?
  have hvalue : c.value? = some data := by simp [value?, hdata]
  simp only [filterMap_cons, hvalue, filterMap_nil, itemsDepthAt, hdepth, Nat.max_zero]
  exact blockDepthAt_eq p _ opening closing n hopening hclosing

namespace Spelled

variable {ts : List Token} {cs : List Chunk}

/-- Chunks that are spelled out are balanced. -/
theorem balance_eq_zero (h : Spelled ts cs) : balance ts = 0 := by
  induction h with
  | nil => rfl
  | ignored _ ht ih | newline _ ht _ ih => simp [ih, turn, ht]
  | piece _ hus ih =>
    cases hus with
    | weak ht | comma ht => simp [ih, turn, ht]
    | plain _ hus => simp [ih, Token.balance_eq_zero hus]
  | block _ htag hopening _ hclosing _ ih ihin =>
    simp [ih, ihin, Token.balance_eq_zero htag, turn, hopening, hclosing]

/-- Behind the tokens of some chunks there are no blocks around a place. -/
theorem depthAt_eq_zero (h : Spelled ts cs) (hfit : Token.BracketsFit ts) {p : Position}
    (hp : ∀ t ∈ ts, t.range.stop ≤ p) : itemsDepthAt p (cs.filterMap value?) = 0 := by
  induction h with
  | nil => simp [itemsDepthAt]
  | ignored _ _ ih | newline _ _ _ ih =>
    exact ih (fun t ht => hfit t (mem_append_left _ ht)) fun t ht => hp t (mem_append_left _ ht)
  | @piece ts us cs c _ hus ih =>
    have hrest := ih (fun t ht => hfit t (mem_append_left _ ht))
      fun t ht => hp t (mem_append_left _ ht)
    rw [filterMap_append, itemsDepthAt_append, hrest, hus.depthAt]
    rfl
  | @block ts tag us cs ds opening closing kind n c _ _ hopening _ hclosing hwraps ih _ =>
    have hrest := ih (fun t ht => hfit t (mem_append_left _ ht))
      fun t ht => hp t (mem_append_left _ ht)
    have hbehind : ¬(opening.range.stop ≤ p ∧ p < closing.range.start) := by
      rintro ⟨-, hlt⟩
      have hle := hp closing (by simp)
      rw [hfit closing (by simp) (by simp [isBracket, hclosing])] at hle
      simp only [lt_def, le_def] at hlt hle
      omega
    rw [filterMap_append, itemsDepthAt_append, hrest,
      hwraps.depthAt p (hfit opening (by simp) (by simp [isBracket, hopening]))
        (hfit closing (by simp) (by simp [isBracket, hclosing])), if_neg hbehind]
    rfl

end Spelled

/-- A piece has no brackets. -/
theorem Piece.isBracket_eq_false {us : List Token} {c : Chunk} (h : Piece us c) :
    ∀ t ∈ us, isBracket t = false := by
  cases h with
  | weak ht | comma ht => simp [isBracket, ht]
  | plain _ hus => exact hus

/-- The number of blocks around a place of a token, as the tokens in front of it tell. -/
def depthIn (front : List Token) (t : Token) : Int :=
  balance front - if t.kind.isClosing then 1 else 0

theorem depthIn_of_isBracket {t : Token} (ht : isBracket t = false) {front : List Token}
    (hfront : balance front = 0) : depthIn front t = 0 := by
  have hclosing : t.kind.isClosing = false := by
    unfold isClosing
    split <;> simp_all [isBracket]
  simp [depthIn, hfront, hclosing]

/-- Balanced tokens in front do not matter. -/
theorem depthIn_append {front : List Token} (hfront : balance front = 0) (mid : List Token)
    (t : Token) : depthIn (front ++ mid) t = depthIn mid t := by
  simp [depthIn, hfront]

/-- The depth at a place of a block, its brackets included: a block more than inside it, unless the
place is on a bracket. -/
theorem depthIn_block {us : List Token} {opening closing : Token} {kind : BlockKind}
    (hopening : opening.kind = .bracket kind .opening) (hus : balance us = 0)
    (hclosing : closing.kind = .bracket kind .closing) {front back : List Token} {t : Token}
    (hts : opening :: (us ++ [closing]) = front ++ t :: back) {p : Position}
    (hp : t.range.contains p = true)
    (hplace : (∀ v ∈ front, v.range.stop ≤ p) ∧ ∀ v ∈ back, p < v.range.start) {depth : Nat}
    (hin : ∀ {front back}, us = front ++ t :: back →
      ((∀ v ∈ front, v.range.stop ≤ p) ∧ ∀ v ∈ back, p < v.range.start) →
        (depth : Int) = depthIn front t) :
    ((if opening.range.stop ≤ p ∧ p < closing.range.start then 1 + depth else 0 : Nat) : Int) =
      depthIn front t := by
  have hturn : opening.kind.turn = 1 := by simp [turn, hopening]
  cases front with
  | nil =>
    obtain ⟨rfl, rfl⟩ := List.cons.inj hts
    have hnot : ¬(opening.range.stop ≤ p ∧ p < closing.range.start) := by
      rintro ⟨hle, -⟩
      exact absurd (Range.contains_iff.1 hp).2 (not_lt.2 hle)
    simp [if_neg hnot, depthIn, isClosing, hopening]
  | cons o front =>
    obtain ⟨rfl, hrest⟩ := List.cons.inj hts
    rcases Token.split_append hrest with ⟨mid, hmid, hback⟩ | ⟨mid, rfl, hmid⟩
    · have hinside : opening.range.stop ≤ p ∧ p < closing.range.start :=
        ⟨hplace.1 opening (by simp), hplace.2 closing (by simp [hback])⟩
      have hdepth := hin hmid
        ⟨fun v hv => hplace.1 v (by simp [hv]), fun v hv => hplace.2 v (by simp [hback, hv])⟩
      rw [if_pos hinside]
      simp only [depthIn, Token.balance_cons, hturn] at hdepth ⊢
      omega
    · obtain ⟨rfl, rfl⟩ := Token.singleton_split hmid
      have hnot : ¬(opening.range.stop ≤ p ∧ p < closing.range.start) := by
        rintro ⟨-, hlt⟩
        exact absurd (Range.contains_iff.1 hp).1 (not_le.2 hlt)
      simp [if_neg hnot, depthIn, isClosing, hclosing, hturn, hus]

namespace Spelled

variable {ts : List Token} {cs : List Chunk}

/-- Tokens behind some chunks change nothing for the places in front of them, and have no block
around them, as long as there are no brackets among them. -/
theorem depthAt_skip (h : Spelled ts cs) {us : List Token} (hus : ∀ u ∈ us, isBracket u = false)
    (hfit : Token.BracketsFit (ts ++ us)) {front back : List Token} {t : Token}
    (hts : ts ++ us = front ++ t :: back) {p : Position}
    (hplace : (∀ v ∈ front, v.range.stop ≤ p) ∧ ∀ v ∈ back, p < v.range.start)
    (hin : ∀ {back}, ts = front ++ t :: back →
      ((∀ v ∈ front, v.range.stop ≤ p) ∧ ∀ v ∈ back, p < v.range.start) →
      (itemsDepthAt p (cs.filterMap value?) : Int) = depthIn front t) :
    (itemsDepthAt p (cs.filterMap value?) : Int) = depthIn front t := by
  rcases Token.split_append hts with ⟨mid, hmid, hback⟩ | ⟨mid, rfl, hmid⟩
  · exact hin hmid ⟨hplace.1, fun v hv => hplace.2 v (by simp [hback, hv])⟩
  · rw [h.depthAt_eq_zero (hfit.sublist (sublist_append_left ts us))
      fun v hv => hplace.1 v (by simp [hv])]
    rw [depthIn_append h.balance_eq_zero]
    exact (depthIn_of_isBracket (hus t (by simp [hmid]))
      (Token.balance_eq_zero fun v hv => hus v (by simp [hmid, hv]))).symm

/-- **Open brackets are blocks.** The number of blocks around a place of a token is the number of
brackets open in front of it. -/
theorem depthAt_eq (h : Spelled ts cs) (hclean : ∀ c ∈ cs, c.isClean = true)
    (hfit : Token.BracketsFit ts) {start stop : Position} (hrun : Token.Run start stop ts)
    {front back : List Token} {t : Token} (hts : ts = front ++ t :: back) {p : Position}
    (hp : t.range.contains p = true) :
    (itemsDepthAt p (cs.filterMap value?) : Int) = depthIn front t := by
  have hplace := (hts ▸ hrun).around hp
  induction h generalizing front back with
  | nil => simp at hts
  | @ignored ts cs u hs hu ih | @newline ts cs u hs hu _ ih =>
    refine hs.depthAt_skip (by simp [isBracket, hu]) hfit hts hplace fun hmid => ?_
    exact ih hclean (hfit.sublist (sublist_append_left ts [u]))
      (hrun.sublist (sublist_append_left ts [u])) hmid
  | @piece ts us cs c hs hus ih =>
    rw [filterMap_append, itemsDepthAt_append, hus.depthAt, Nat.max_zero]
    refine hs.depthAt_skip hus.isBracket_eq_false hfit hts hplace fun hmid => ?_
    exact ih (fun d hd => hclean d (by simp [hd])) (hfit.sublist (sublist_append_left ts us))
      (hrun.sublist (sublist_append_left ts us)) hmid
  | @block ts tag us cs ds opening closing kind n c hs htag hopening hus hclosing hwraps ih ihin =>
    have hfit' := hfit.sublist (sublist_append_left ts (tag ++ opening :: (us ++ [closing])))
    have hwide := hfit opening (by simp) (by simp [isBracket, hopening])
    have hwide' := hfit closing (by simp) (by simp [isBracket, hclosing])
    obtain ⟨l, hseq, hcomplete⟩ := hwraps.exists_run (hclean c (by simp))
    rw [filterMap_append, itemsDepthAt_append, hwraps.depthAt p hwide hwide',
      (Sequence.contents_of_run hseq hcomplete).2]
    dsimp only
    -- in front of the bracket the block does not count
    have hbefore : opening ∈ back → ¬(opening.range.stop ≤ p ∧ p < closing.range.start) := by
      rintro hmem ⟨hle, -⟩
      have hlt := hplace.2 opening hmem
      rw [hwide] at hle
      simp only [lt_def, le_def] at hlt hle
      omega
    rcases Token.split_append hts with ⟨mid, hmid, hback⟩ | ⟨mid, rfl, hmid⟩
    · rw [if_neg (hbefore (by simp [hback])), Nat.max_zero]
      exact ih (fun d hd => hclean d (by simp [hd])) hfit'
        (hrun.sublist (sublist_append_left ts _)) hmid
        ⟨hplace.1, fun v hv => hplace.2 v (by simp [hback, hv])⟩
    · rw [hs.depthAt_eq_zero hfit' fun v hv => hplace.1 v (by simp [hv]), Nat.zero_max]
      rcases Token.split_append hmid with ⟨mid', hmid', hback⟩ | ⟨mid', rfl, hmid'⟩
      · rw [if_neg (hbefore (by simp [hback]))]
        rw [depthIn_append hs.balance_eq_zero]
        exact (depthIn_of_isBracket (htag t (by simp [hmid']))
          (Token.balance_eq_zero fun v hv => htag v (by simp [hmid', hv]))).symm
      · rw [depthIn_append hs.balance_eq_zero, depthIn_append (Token.balance_eq_zero htag)]
        have hsub : us.Sublist (ts ++ (tag ++ opening :: (us ++ [closing]))) := by
          refine (sublist_append_left us [closing]).trans ?_
          exact ((sublist_cons_self opening _).trans (sublist_append_right tag _)).trans
            (sublist_append_right ts _)
        exact depthIn_block hopening hus.balance_eq_zero hclosing hmid' hp
          ⟨fun v hv => hplace.1 v (by simp [hv]), hplace.2⟩
          (ihin (isClean_of_run hseq) (hfit.sublist hsub) (hrun.sublist hsub))

end Spelled

theorem filterMap_value?_filter (cs : List Chunk) :
    (cs.filter isValue).filterMap value? = cs.filterMap value? := by
  induction cs with
  | nil => rfl
  | cons c cs ih =>
    cases hvalue : c.isValue with
    | true => simp [hvalue, ih, filterMap_cons]
    | false =>
      have hnone : c.value? = none := by cases c <;> simp_all [isValue, value?, data?]
      simp [hvalue, hnone, ih]

end Chunk

/-- The number of blocks around a place of an accepted document. -/
theorem Document.Accepted.depthAt_eq {text : String} {c : Chunk} {data : Data}
    (h : Accepted text c data) (hfit : Token.BracketsFit (tokensOf text)) {front back : List Token}
    {t : Token} (hts : tokensOf text = front ++ t :: back) {p : Position}
    (hp : t.range.contains p = true) : (data.depthAt p : Int) = Chunk.depthIn front t := by
  obtain ⟨start, stop, hrun⟩ := inOrder_tokensOf text
  have hvalue : c.value? = some data := by simp [Chunk.value?, h.data?_eq]
  have hdepth := h.spelled.depthAt_eq (Chunk.isClean_of_run h.run) hfit hrun hts hp
  rw [← Chunk.filterMap_value?_filter, h.values] at hdepth
  simpa [hvalue, itemsDepthAt] using hdepth

end TypedNotation
