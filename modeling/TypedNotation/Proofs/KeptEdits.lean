import Mathlib.Data.List.Nodup
import TypedNotation.Proofs.LayoutPlans

/-!
# Edits that can be made together

Two edits *clash* if their ranges overlap or if both insert at one point. Of edits whose ranges do
not run backwards, `Edit.compatible` keeps a maximal set without a clash: no two kept edits clash
(`Edit.pairwise_not_clash`), and every edit that is dropped clashes with a kept one
(`Edit.exists_dropped`).

Kept edits have different ranges, so only one order of them is sorted, and making them does not
depend on the order in which they are given (`Edit.inOrder_of_perm`).
-/

namespace TypedNotation

open List Position

namespace Edit

/-- Whether an edit replaces nothing. -/
def Inserts (e : Edit) : Prop :=
  e.range.start = e.range.stop

/-- Two edits of which at most one can be made: they share a position, or both insert at one
point. -/
def Clash (a b : Edit) : Prop :=
  a.range.overlaps b.range = true ∨ a.Inserts ∧ b.Inserts ∧ a.range.start = b.range.start

theorem conflicts_eq_true_iff (a b : Edit) :
    conflicts a b = true ↔
      b.range.start < a.range.stop ∨ a.Inserts ∧ b.Inserts ∧ a.range.start = b.range.start := by
  simp only [conflicts, Inserts, Bool.or_eq_true, Bool.and_eq_true, decide_eq_true_eq, beq_iff_eq]
  constructor
  · rintro (h | ⟨⟨hstart, hb⟩, ha⟩)
    · exact .inl h
    · exact .inr ⟨ha, hb, hstart.symm⟩
  · rintro (h | ⟨ha, hb, hstart⟩)
    · exact .inl h
    · exact .inr ⟨⟨hstart.symm, hb⟩, ha⟩

/-- An edit that conflicts with one in front of it clashes with it. -/
theorem clash_of_conflicts {a b : Edit} (h : conflicts a b = true)
    (hb : b.range.start ≤ b.range.stop) (hab : a.range = b.range ∨ a.range.Before b.range) :
    Clash a b := by
  refine ((conflicts_eq_true_iff a b).1 h).imp_left fun hlt => ?_
  -- An insertion where a longer range starts would come first, so it does not reach this place.
  have hstart : a.range.start < b.range.stop := by
    obtain ⟨⟨⟨al, ac⟩, ⟨al', ac'⟩⟩, atext⟩ := a
    obtain ⟨⟨⟨bl, bc⟩, ⟨bl', bc'⟩⟩, btext⟩ := b
    simp only [Range.Before, lt_def, le_def, Range.mk.injEq,
      Position.mk.injEq] at *
    omega
  simp [Range.overlaps, hstart, hlt]

/-- An edit does not clash with one that starts where it has stopped, if their ranges differ. -/
theorem not_clash {a b : Edit} (hstop : a.range.stop ≤ b.range.start)
    (hab : a.range.Before b.range) : ¬Clash a b := by
  rintro (hoverlap | ⟨ha, hb, hstart⟩)
  · rw [Range.overlaps, Bool.and_eq_true, decide_eq_true_eq, decide_eq_true_eq] at hoverlap
    exact not_lt.2 hstop hoverlap.2
  · have heq : a.range = b.range := by
      rw [Inserts] at ha hb
      obtain ⟨⟨astart, astop⟩, atext⟩ := a
      obtain ⟨⟨bstart, bstop⟩, btext⟩ := b
      simp_all
    exact Range.not_before_self _ (heq ▸ hab)

/-! ### The pass over sorted edits -/

/-- A kept edit starts where all that are kept before it have stopped. -/
theorem keep_apart {es : List Edit} {previous : Option Edit}
    (hle : ∀ e ∈ es, e.range.start ≤ e.range.stop) :
    (keep previous es).Pairwise (fun a b => a.range.stop ≤ b.range.start) ∧
      ∀ e ∈ keep previous es, ∀ a ∈ previous, a.range.stop ≤ e.range.start := by
  induction es generalizing previous with
  | nil => exact ⟨.nil, by simp [keep]⟩
  | cons e es ih =>
    obtain ⟨he, hes⟩ := forall_mem_cons.1 hle
    rw [keep]
    split
    next => exact ih hes
    next hkeep =>
      obtain ⟨hapart, hbehind⟩ := @ih (some e) hes
      have hprevious : ∀ a ∈ previous, a.range.stop ≤ e.range.start := by
        intro a ha
        obtain rfl : previous = some a := ha
        rw [Option.any_some, conflicts_eq_true_iff, not_or] at hkeep
        exact not_lt.1 hkeep.1
      refine ⟨pairwise_cons.2 ⟨fun f hf => hbehind f hf e rfl, hapart⟩, fun f hf a ha => ?_⟩
      rcases mem_cons.1 hf with rfl | hf
      · exact hprevious a ha
      · exact le_trans (hprevious a ha) (le_trans he (hbehind f hf e rfl))

/-- What the pass does not keep clashes with what it keeps, or with what was kept before. -/
theorem keep_dropped {es : List Edit} {previous : Option Edit}
    (hes : es.Pairwise fun a b => a.range = b.range ∨ a.range.Before b.range)
    (hle : ∀ e ∈ es, e.range.start ≤ e.range.stop)
    (hprevious : ∀ a ∈ previous, ∀ b ∈ es, a.range = b.range ∨ a.range.Before b.range) :
    ∃ dropped, es.Perm (keep previous es ++ dropped) ∧
      ∀ e ∈ dropped, ∃ k, (k ∈ previous ∨ k ∈ keep previous es) ∧ Clash k e := by
  induction es generalizing previous with
  | nil => exact ⟨[], .refl _, by simp⟩
  | cons e es ih =>
    obtain ⟨hfirst, hrest⟩ := pairwise_cons.1 hes
    obtain ⟨he, hleRest⟩ := forall_mem_cons.1 hle
    rw [keep]
    split
    next hconflict =>
      obtain ⟨a, rfl, hconflict⟩ := Option.any_eq_true .. |>.1 hconflict
      obtain ⟨dropped, hperm, hclash⟩ := ih hrest hleRest
        fun a ha b hb => hprevious a ha b (mem_cons_of_mem _ hb)
      refine ⟨e :: dropped, (hperm.cons e).trans perm_middle.symm, ?_⟩
      refine forall_mem_cons.2 ⟨⟨a, .inl rfl, ?_⟩, hclash⟩
      exact clash_of_conflicts hconflict he (hprevious a rfl e mem_cons_self)
    next =>
      obtain ⟨dropped, hperm, hclash⟩ := @ih (some e) hrest hleRest (by simpa using hfirst)
      refine ⟨dropped, hperm.cons e, fun f hf => ?_⟩
      obtain ⟨k, hk, hkf⟩ := hclash f hf
      refine ⟨k, .inr ?_, hkf⟩
      rcases hk with hk | hk
      · obtain rfl : e = k := by simpa using hk
        exact mem_cons_self
      · exact mem_cons_of_mem _ hk

/-! ### The edits that are kept -/

/-- A kept edit starts where those before it have stopped. -/
theorem compatible_apart {es : List Edit} (hle : ∀ e ∈ es, e.range.start ≤ e.range.stop) :
    (compatible es).Pairwise fun a b => a.range.stop ≤ b.range.start :=
  (@keep_apart _ none fun e he => hle e (mem_mergeSort.1 he)).1

/-- No two kept edits clash. -/
theorem pairwise_not_clash {es : List Edit} (hle : ∀ e ∈ es, e.range.start ≤ e.range.stop) :
    (compatible es).Pairwise fun a b => ¬Clash a b :=
  (compatible_apart hle).imp₂ (fun _ _ => not_clash) (compatible_spec hle).1

/-- Every edit that is dropped clashes with a kept one. -/
theorem exists_dropped {es : List Edit} (hle : ∀ e ∈ es, e.range.start ≤ e.range.stop) :
    ∃ dropped, es.Perm (compatible es ++ dropped) ∧
      ∀ e ∈ dropped, ∃ k ∈ compatible es, Clash k e := by
  obtain ⟨dropped, hperm, hclash⟩ := @keep_dropped _ none (pairwise_inOrder es)
    (fun e he => hle e (mem_mergeSort.1 he)) (by simp)
  refine ⟨dropped, (mergeSort_perm es _).symm.trans hperm, fun e he => ?_⟩
  obtain ⟨k, hk, hke⟩ := hclash e he
  exact ⟨k, hk.resolve_left (by simp), hke⟩

/-- Edits with different ranges are sorted in one order only. -/
theorem inOrder_of_perm {es kept : List Edit}
    (hkept : kept.Pairwise fun a b => a.range.Before b.range) (hperm : es.Perm kept) :
    inOrder es = kept := by
  have hranges : (kept.map Edit.range).Nodup := by
    refine pairwise_map.2 (hkept.imp ?_)
    intro a b hab heq
    exact Range.not_before_self _ (heq ▸ hab)
  have hsorted : (inOrder es).Perm kept := (mergeSort_perm es _).trans hperm
  refine List.Perm.eq_of_pairwise (fun a b ha hb hab hba => ?_) (pairwise_inOrder es)
    (hkept.imp .inr) hsorted
  refine inj_on_of_nodup_map hranges (hsorted.mem_iff.1 ha) hb ?_
  rcases hab with heq | hab
  · exact heq
  · rcases hba with heq | hba
    · exact heq.symm
    · exact absurd (hab.trans hba) (Range.not_before_self _)

end Edit

end TypedNotation
