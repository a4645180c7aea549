import TypedNotation.Proofs.DataPlaces
import TypedNotation.Proofs.TokenCover

/-!
# Places among the items of a block

The values and the recorded keys of a block are the landmarks by which a position in it is found.
`CursorPlace.Tells p ls place` says what landmarks tell of a position, in whatever order. One that
has begun adds to what those before it tell (`Tells.pass`), and those ahead of the position add
nothing (`Tells.ahead`). So a walk may stop at the first landmark ahead, and at one around the
position, if the landmarks lie in a row (`tells_walk`).

In a document they do: values and keys have tokens of their own, so none is empty and no two overlap
(`Block.Sits.inRow_landmarks`).
-/

namespace TypedNotation

open List CursorPlace Position

/-- The keys that are recorded in a block, each where it is written first. -/
def Contents.recordedKeys {α : Type} : Contents α → List (String × Range)
  | dict _ keyRanges => keyRanges
  | array _ | tuple _ => []

namespace CursorPlace

variable {p : Position} {place : CursorPlace} {ls ms seen coming : List (Range × Option String)}
  {l : Range × Option String} {r : Range} {name : String}

/-! ### What landmarks tell -/

/-- A landmark lets a key be the passed one: another key does unless it has begun behind that key,
and a value does unless it has ended behind that key. -/
def Spares (p : Position) (r : Range) (l : Range × Option String) : Prop :=
  match l.2 with
  | some _ => l.1.start ≤ p → l.1.start ≤ r.start
  | none => r.start < l.1.start → p < l.1.stop

/-- A key has begun, is the last to do so, and no value behind it has ended. -/
structure IsPassed (p : Position) (ls : List (Range × Option String)) (name : String) (r : Range) :
    Prop where
  mem : (r, some name) ∈ ls
  start_le : r.start ≤ p
  spared : ∀ l ∈ ls, Spares p r l

/-- What landmarks tell of a position. -/
structure Tells (p : Position) (ls : List (Range × Option String)) (place : CursorPlace) :
    Prop where
  valuesBefore : place.valuesBefore = ls.countP fun l => l.2.isNone && l.1.stop ≤ p
  isInside : place.isInside = true ↔ ∃ l ∈ ls, l.1.contains p = true
  passedKey : ∀ name, place.passedKey = some name ↔ ∃ r, IsPassed p ls name r

theorem IsPassed.perm (h : IsPassed p ls name r) (hperm : ls.Perm ms) : IsPassed p ms name r :=
  ⟨hperm.mem_iff.1 h.mem, h.start_le, fun l hl => h.spared l (hperm.mem_iff.2 hl)⟩

theorem Tells.perm (h : Tells p ls place) (hperm : ls.Perm ms) : Tells p ms place := by
  refine ⟨h.valuesBefore.trans (hperm.countP_eq _), h.isInside.trans ?_, fun name =>
    (h.passedKey name).trans ?_⟩
  · simp only [hperm.mem_iff]
  · exact exists_congr fun r => ⟨fun hr => hr.perm hperm, fun hr => hr.perm hperm.symm⟩

/-- Keys that have not begun and values that have not ended leave the passed key as it was. -/
theorem isPassed_append_iff
    (h : ∀ l ∈ coming, if l.2.isSome then p < l.1.start else p < l.1.stop) :
    IsPassed p (seen ++ coming) name r ↔ IsPassed p seen name r := by
  constructor
  · rintro ⟨hmem, hle, hspared⟩
    refine ⟨(mem_append.1 hmem).resolve_right fun hcoming => ?_, hle,
      fun l hl => hspared l (mem_append_left _ hl)⟩
    exact absurd hle (not_le.2 (h _ hcoming))
  · rintro ⟨hmem, hle, hspared⟩
    refine ⟨mem_append_left _ hmem, hle, forall_mem_append.2 ⟨hspared, ?_⟩⟩
    rintro ⟨r', _ | key⟩ hl
    · exact fun _ => h _ hl
    · exact fun hbegun => absurd hbegun (not_le.2 (h _ hl))

/-- Landmarks ahead of a position tell nothing of it. -/
theorem Tells.ahead (h : Tells p seen place)
    (hahead : ∀ l ∈ coming, p < l.1.start ∧ l.1.start < l.1.stop) :
    Tells p (seen ++ coming) place := by
  have hstop : ∀ l ∈ coming, p < l.1.stop := fun l hl =>
    lt_of_lt_of_le (hahead l hl).1 (le_of_lt (hahead l hl).2)
  refine ⟨?_, ?_, fun name => ?_⟩
  · rw [h.valuesBefore, countP_append, Nat.left_eq_add, countP_eq_zero]
    intro l hl
    simp [not_le.2 (hstop l hl)]
  · rw [h.isInside]
    simp only [mem_append]
    refine exists_congr fun l => and_congr_left fun hp => (or_iff_left fun hl => ?_).symm
    exact absurd (Range.contains_iff.1 hp).1 (not_le.2 (hahead l hl).1)
  · rw [h.passedKey]
    refine exists_congr fun r => (isPassed_append_iff fun l hl => ?_).symm
    split
    · exact (hahead l hl).1
    · exact hstop l hl

/-! ### The walk -/

/-- The place after one more landmark has begun. -/
def pass (p : Position) (place : CursorPlace) : Range × Option String → CursorPlace
  | (r, some key) =>
    { place with passedKey := some key, isInside := place.isInside || r.contains p }
  | (r, none) =>
    if r.contains p then { place with isInside := true }
    else { place with passedKey := none, valuesBefore := place.valuesBefore + 1 }

theorem walk_cons :
    walk p place (l :: ls) =
      if p < l.1.start then place
      else if l.1.contains p then pass p place l else walk p (pass p place l) ls := by
  obtain ⟨r, key⟩ := l
  cases key <;> cases hr : r.contains p <;> simp [walk, pass, hr]

theorem Tells.passValue (h : Tells p seen place) (hseen : ∀ k ∈ seen, k.1.start < r.start)
    (hle : r.start ≤ p) : Tells p (seen ++ [(r, none)]) (place.pass p (r, none)) := by
  by_cases hr : r.contains p = true
  · have hstop : p < r.stop := (Range.contains_iff.1 hr).2
    simp only [pass, hr, if_true]
    refine ⟨by simp [h.valuesBefore, not_le.2 hstop], by simp [hr], fun name => ?_⟩
    rw [h.passedKey]
    exact exists_congr fun r' => (isPassed_append_iff (by simpa using hstop)).symm
  · have hstop : r.stop ≤ p := not_lt.1 fun hlt => hr (Range.contains_iff.2 ⟨hle, hlt⟩)
    simp only [pass, hr]
    refine ⟨by simp [h.valuesBefore, hstop], by simp [h.isInside, hr], fun name => ?_⟩
    refine iff_of_false (by simp) ?_
    -- every key that has begun is before the value, which has ended
    rintro ⟨r', hmem, -, hspared⟩
    have hmem : (r', some name) ∈ seen := by simpa using hmem
    have hlt : p < r.stop := hspared (r, none) (by simp) (hseen _ hmem)
    exact absurd hstop (not_le.2 hlt)

theorem Tells.passKey (h : Tells p seen place) (hseen : ∀ k ∈ seen, k.1.start < r.start)
    (hle : r.start ≤ p) : Tells p (seen ++ [(r, some name)]) (place.pass p (r, some name)) := by
  have hpassed : IsPassed p (seen ++ [(r, some name)]) name r := by
    refine ⟨by simp, hle, forall_mem_append.2 ⟨?_, ?_⟩⟩
    · rintro ⟨r', _ | _⟩ hl
      · exact fun hlt => absurd (le_of_lt hlt) (not_le.2 (hseen _ hl))
      · exact fun _ => le_of_lt (hseen _ hl)
    · exact forall_mem_singleton.2 fun _ => le_refl _
  refine ⟨by simp [pass, h.valuesBefore], ?_, fun other => ⟨?_, ?_⟩⟩
  · simp [pass, h.isInside, or_and_right, exists_or]
  · rintro ⟨⟩
    exact ⟨r, hpassed⟩
  · rintro ⟨r', hmem, -, hspared⟩
    have hlast : r.start ≤ r'.start := hspared (r, some name) (by simp) hle
    rcases mem_append.1 hmem with hmem | hmem
    · exact absurd hlast (not_le.2 (hseen _ hmem))
    · obtain ⟨rfl, rfl⟩ : r' = r ∧ other = name := by simpa using hmem
      rfl

/-- A landmark that has begun behind all others adds to what they tell. -/
theorem Tells.pass (h : Tells p seen place) (hseen : ∀ k ∈ seen, k.1.start < l.1.start)
    (hle : l.1.start ≤ p) : Tells p (seen ++ [l]) (place.pass p l) := by
  obtain ⟨r, _ | key⟩ := l
  · exact h.passValue hseen hle
  · exact h.passKey hseen hle

/-- Landmarks that are not empty, one behind the other. -/
structure InRow (ls : List (Range × Option String)) : Prop where
  start_lt_stop : ∀ l ∈ ls, l.1.start < l.1.stop
  ordered : ls.Pairwise fun a b => a.1.stop ≤ b.1.start

/-- A walk along a row tells what all of its landmarks tell. -/
theorem tells_walk (hrow : InRow (seen ++ ls)) (h : Tells p seen place) :
    Tells p (seen ++ ls) (walk p place ls) := by
  induction ls generalizing seen place with
  | nil => simpa [walk] using h
  | cons l ls ih =>
    obtain ⟨hproper, hordered⟩ := hrow
    obtain ⟨-, hbehind, hbefore⟩ := pairwise_append.1 hordered
    have hl : l.1.start < l.1.stop := hproper l (by simp)
    have hls : ∀ k ∈ ls, l.1.stop ≤ k.1.start := fun k hk => rel_of_pairwise_cons hbehind hk
    have hahead : ∀ k ∈ ls, p < l.1.stop → p < k.1.start ∧ k.1.start < k.1.stop := fun k hk hp =>
      ⟨lt_of_lt_of_le hp (hls k hk), hproper k (by simp [hk])⟩
    rw [walk_cons]
    split
    next hp =>
      refine h.ahead (forall_mem_cons.2 ⟨⟨hp, hl⟩, fun k hk => hahead k hk ?_⟩)
      exact lt_of_lt_of_le hp (le_of_lt hl)
    next hp =>
      have hpass := h.pass (fun k hk => lt_of_lt_of_le (hproper k (by simp [hk]))
        (hbefore k hk l (by simp))) (not_lt.1 hp)
      rw [append_cons]
      split
      next hin => exact hpass.ahead fun k hk => hahead k hk (Range.contains_iff.1 hin).2
      next => exact ih (by simpa using InRow.mk hproper hordered) hpass

/-! ### The landmarks of a block -/

theorem landmarks_perm (b : Block Data) :
    (landmarks b).Perm (b.contents.children.map (fun d => (d.range, none)) ++
      b.contents.recordedKeys.map fun k => (k.2, some k.1)) := by
  obtain ⟨contents, range, tokens⟩ := b
  cases contents <;> exact mergeSort_perm _ _

theorem pairwise_landmarks (b : Block Data) :
    (landmarks b).Pairwise fun k l => k.1.start ≤ l.1.start := by
  refine (pairwise_mergeSort (fun a b c hab hbc => ?_) (fun a b => ?_) _).imp of_decide_eq_true
  · exact decide_eq_true (le_trans (of_decide_eq_true hab) (of_decide_eq_true hbc))
  · simpa using le_total a.1.start b.1.start

theorem isPassed_iff {values : List Data} {keys : List (String × Range)} :
    IsPassed p (values.map (fun d => (d.range, none)) ++ keys.map fun k => (k.2, some k.1)) name r ↔
      (name, r) ∈ keys ∧ r.start ≤ p ∧ (∀ k ∈ keys, k.2.start ≤ p → k.2.start ≤ r.start) ∧
        ∀ d ∈ values, r.start < d.range.start → p < d.range.stop := by
  constructor
  · rintro ⟨hmem, hle, hspared⟩
    obtain ⟨hvalues, hkeys⟩ := forall_mem_append.1 hspared
    exact ⟨by simpa using hmem, hle, forall_mem_map.1 hkeys, forall_mem_map.1 hvalues⟩
  · rintro ⟨hmem, hle, hkeys, hvalues⟩
    exact ⟨by simpa using hmem, hle,
      forall_mem_append.2 ⟨forall_mem_map.2 hvalues, forall_mem_map.2 hkeys⟩⟩

end CursorPlace

/-- What has tokens is not empty. -/
theorem Spans.start_lt_stop {ts : List Token} {r : Range} {n : TokenRange} (h : Spans ts r n)
    (hts : Token.InOrder ts) (hproper : ∀ t ∈ ts, t.range.start < t.range.stop) :
    r.start < r.stop := by
  obtain ⟨hlt, ⟨a, ha, hra⟩, ⟨b, hb, hrb⟩⟩ := h
  rw [hra, hrb]
  exact lt_of_lt_of_le (hproper a (mem_of_getElem? ha))
    (hts.stop_le_stop ha hb (by omega))

namespace Block.Sits

variable {ts : List Token} {b : Block Data}

theorem nodup_recordedKeys (h : b.Sits ts) : (b.contents.recordedKeys.map (·.1)).Nodup := by
  cases hcontents : b.contents with
  | dict entries keyRanges => exact (h.keys _ _ hcontents).keyRanges_nodup
  | _ => exact nodup_nil

/-- A recorded key has a token and is apart from all values. -/
theorem exists_token (h : b.Sits ts) {k : String × Range} (hk : k ∈ b.contents.recordedKeys) :
    ∃ (i : Nat) (t : Token), ts[i]? = some t ∧ t.text = k.1 ∧ t.range = k.2 ∧
      ∀ d ∈ b.contents.children, k.2.stop ≤ d.range.start ∨ d.range.stop ≤ k.2.start := by
  cases hcontents : b.contents with
  | dict entries keyRanges =>
    rw [hcontents] at hk
    obtain ⟨i, hsits⟩ := (h.keys _ _ hcontents).key _ _ hk
    obtain ⟨t, ht, -, htext, hrange⟩ := hsits.token
    exact ⟨i, t, ht, htext, hrange, fun d hd => (hsits.apart d hd).imp And.right And.right⟩
  | _ =>
    rw [hcontents] at hk
    cases hk

variable (h : b.Sits ts) (hts : Token.InOrder ts)
  (hspans : ∀ d ∈ b.contents.children, Spans ts d.range d.tokens)
include h hts hspans

/-- No two landmarks of a block overlap, since each has tokens of its own. -/
theorem pairwise_apart_landmarks :
    (landmarks b).Pairwise fun k l => k.1.stop ≤ l.1.start ∨ l.1.stop ≤ k.1.start := by
  refine ((landmarks_perm b).pairwise_iff fun h => Or.symm h).2
    (pairwise_append.2 ⟨?_, ?_, ?_⟩)
  · refine pairwise_map.2 ((pairwise_map.1 h.row.ordered).imp_of_mem ?_)
    exact fun hc hd hle => .inl ((hspans _ hc).stop_le_start hts (hspans _ hd) hle)
  · refine pairwise_map.2 ((pairwise_map.1 h.nodup_recordedKeys).imp_of_mem ?_)
    intro k l hk hl hne
    obtain ⟨i, t, ht, htext, hrange, -⟩ := h.exists_token hk
    obtain ⟨j, u, hu, hutext, hurange, -⟩ := h.exists_token hl
    rw [← hrange, ← hurange]
    rcases Nat.lt_trichotomy i j with hij | rfl | hij
    · exact .inl (hts.stop_le_start ht hu hij)
    · obtain rfl : t = u := Option.some.inj (ht.symm.trans hu)
      exact absurd (htext.symm.trans hutext) hne
    · exact .inr (hts.stop_le_start hu ht hij)
  · intro k hk l hl
    obtain ⟨d, hd, rfl⟩ := mem_map.1 hk
    obtain ⟨key, hkey, rfl⟩ := mem_map.1 hl
    obtain ⟨-, -, -, -, -, hvalues⟩ := h.exists_token hkey
    exact (hvalues d hd).symm

/-- In the order of their starts, the landmarks of a block lie in a row. -/
theorem inRow_landmarks (hproper : ∀ t ∈ ts, t.range.start < t.range.stop) :
    InRow (landmarks b) := by
  have hlt : ∀ l ∈ landmarks b, l.1.start < l.1.stop := by
    intro l hl
    rcases mem_append.1 ((landmarks_perm b).mem_iff.1 hl) with hl | hl
    · obtain ⟨d, hd, rfl⟩ := mem_map.1 hl
      exact (hspans d hd).start_lt_stop hts hproper
    · obtain ⟨k, hk, rfl⟩ := mem_map.1 hl
      obtain ⟨i, t, ht, -, hrange, -⟩ := h.exists_token hk
      exact hrange ▸ hproper t (mem_of_getElem? ht)
  have hapart := h.pairwise_apart_landmarks hts hspans
  refine ⟨hlt, (hapart.and (pairwise_landmarks b)).imp_of_mem ?_⟩
  rintro k l hk hl ⟨hle | hle, hstart⟩
  · exact hle
  -- the second would end before the first starts, though it starts no earlier
  · exact absurd (le_trans hle hstart) (not_le.2 (hlt l hl))

end Block.Sits

namespace Document

/-- **A position is placed exactly among the items of a block.** In every block of a document, the
values before a position are those that end at or before it. It is inside an item if it is in the
range of a value or of a recorded key. The passed key is the last recorded one that starts at or
before the position, unless a value that starts behind that key has ended at or before the
position. -/
theorem cursor_place_is_exact {text : String} {d : Data} {b : Block Data}
    (h : (parse text).data = some d) (hb : b ∈ d.blocks) (p : Position) :
    let place := ofBlock b p
    let values := b.contents.children
    let keys := b.contents.recordedKeys
    place.valuesBefore = values.countP (fun c => c.range.stop ≤ p) ∧
    (place.isInside = true ↔
      (∃ c ∈ values, c.range.contains p = true) ∨ ∃ k ∈ keys, k.2.contains p = true) ∧
    ∀ name, place.passedKey = some name ↔
      ∃ r, (name, r) ∈ keys ∧ r.start ≤ p ∧
        (∀ k ∈ keys, k.2.start ≤ p → k.2.start ≤ r.start) ∧
        ∀ c ∈ values, r.start < c.range.start → p < c.range.stop := by
  intro place values keys
  obtain ⟨n, hn, hinner⟩ := d.exists_of_mem_blocks b hb
  have hproper : ∀ t ∈ tokensOf text, t.range.start < t.range.stop := fun t ht =>
    (LineState.tiles_tokensOfLines {} 0 (linesOf text)).start_lt_stop (tokensOf_eq text ▸ ht)
  have hspans : ∀ c ∈ values, Spans (tokensOf text) c.range c.tokens := fun c hc =>
    (sits_of_mem_nodes h c (Data.mem_nodes_trans hn
      (Data.mem_nodes_of_mem_children hinner hc c.self_mem_nodes))).spans
  have hrow : InRow (landmarks b) :=
    ((sits_of_mem_nodes h n hn).innerBlock hinner).inRow_landmarks (inOrder_tokensOf text) hspans
      hproper
  have hempty : Tells p [] {} :=
    ⟨rfl, by simp, fun name => iff_of_false (by simp) fun h => absurd h.choose_spec.mem (by simp)⟩
  have htells : Tells p (values.map (fun c => (c.range, none)) ++
      keys.map fun k => (k.2, some k.1)) place :=
    (tells_walk hrow hempty).perm (landmarks_perm b)
  refine ⟨?_, ?_, fun name => ?_⟩
  · simpa [countP_append, countP_map, Function.comp_def] using htells.valuesBefore
  · simpa [or_and_right, exists_or] using htells.isInside
  · rw [htells.passedKey]
    exact exists_congr fun r => isPassed_iff

/-- In `{a: 1, b: , a: 2, c: 3}` the second `a` is not recorded and its value is not stored: behind
them one value has ended, and the passed key is still `b`. -/
theorem cursor_place_is_exact_behind_duplicate :
    ∃ d b, (parse "\x7ba: 1, b: , a: 2, c: 3\x7d").data = some d ∧ b ∈ d.blocks ∧
      ofBlock b ⟨0, 16⟩ = ⟨1, some "b", false⟩ := by
  have hplaces : (parse "\x7ba: 1, b: , a: 2, c: 3\x7d").data.map (fun d =>
      d.blocks.map fun b => (b.contents.children.map Data.range, b.contents.recordedKeys)) =
      some [([.onLine 0 4 5, .onLine 0 21 22],
        [("a", .onLine 0 1 2), ("b", .onLine 0 7 8), ("c", .onLine 0 18 19)])] := by decide +kernel
  obtain ⟨d, hd, hplaces⟩ := Option.map_eq_some_iff.1 hplaces
  obtain ⟨b, hblocks, hplaces⟩ := map_eq_singleton_iff.1 hplaces
  obtain ⟨hranges, hkeys⟩ := Prod.mk.inj hplaces
  obtain ⟨x, y, hchildren, hx, hy⟩ : ∃ x y, b.contents.children = [x, y] ∧
      x.range = .onLine 0 4 5 ∧ y.range = .onLine 0 21 22 := by
    simpa [map_eq_cons_iff] using hranges
  have hb : b ∈ d.blocks := by simp [hblocks]
  obtain ⟨hvalues, hinside, hkey⟩ := cursor_place_is_exact hd hb ⟨0, 16⟩
  have hinside : (ofBlock b ⟨0, 16⟩).isInside = false := by
    rw [← Bool.not_eq_true, hinside, hchildren, hkeys]
    simp only [exists_mem_cons_iff, hx, hy]
    decide
  have hkey : (ofBlock b ⟨0, 16⟩).passedKey = some "b" := by
    refine (hkey "b").2 ⟨.onLine 0 7 8, ?_⟩
    simp only [hchildren, hkeys, forall_mem_cons, hx, hy]
    decide
  have hvalues : (ofBlock b ⟨0, 16⟩).valuesBefore = 1 := by
    rw [hvalues, hchildren, countP_cons, countP_singleton, hx, hy]
    decide
  refine ⟨d, b, hd, hb, ?_⟩
  rw [← hvalues, ← hkey, ← hinside]

end Document

end TypedNotation
