import Mathlib.Tactic.Common
import TypedNotation.Path

/-!
# Maps by place

Paths are compared by their components, so two spellings of one place are the same key. The order of
paths is a linear order on places: it finds two paths equal exactly if they are the same place, and
a map kept in this order has every place at most once.

`PathMap.find?_insert` and `PathMap.find?_erase` say what the operations do to the view `find?`.
They need no order: an insertion stops at a greater place, and what it puts there is found first.
-/

namespace TypedNotation

open List

namespace Component

/-- Only equal components compare as equal. -/
theorem compare_eq_iff {a b : Component} : a.compare b = .eq ↔ a = b := by
  cases a <;> cases b <;> simp [compare, rank]

/-- Components compare the other way round if they are swapped. -/
theorem compare_swap (a b : Component) : (a.compare b).swap = b.compare a := by
  cases a <;> cases b <;> simp [compare, rank, Std.OrientedCmp.eq_swap.symm]

/-- The order of components is transitive. -/
theorem compare_lt_trans {a b c : Component} (hab : a.compare b = .lt) (hbc : b.compare c = .lt) :
    a.compare c = .lt := by
  cases a <;> cases b <;> cases c <;> simp [compare, rank, Nat.compare_eq_lt] at hab hbc ⊢
  exact Std.TransCmp.lt_trans hab hbc

end Component

namespace Path

/-- Two paths are the same place if they have the same components. -/
theorem same_iff {p q : Path} : p.same q = true ↔ p.components = q.components := by
  simp [same]

/-- A path is the same place as itself. -/
theorem same_refl (p : Path) : p.same p = true :=
  same_iff.2 rfl

theorem same_symm {p q : Path} (h : p.same q = true) : q.same p = true :=
  same_iff.2 (same_iff.1 h).symm

/-- Paths of one place are the same as each other. -/
theorem same_trans {p q s : Path} (hpq : p.same q = true) (hqs : q.same s = true) :
    p.same s = true :=
  same_iff.2 ((same_iff.1 hpq).trans (same_iff.1 hqs))

/-- Only equal lists of components compare as equal. -/
theorem compareComponents_eq_iff {as bs : List Component} :
    compareComponents as bs = .eq ↔ as = bs := by
  induction as generalizing bs with
  | nil => cases bs <;> simp [compareComponents]
  | cons a as ih =>
    cases bs with
    | nil => simp [compareComponents]
    | cons b bs => simp [compareComponents, Ordering.then_eq_eq, Component.compare_eq_iff, ih]

/-- The order of lists is turned round if they are swapped. -/
theorem compareComponents_swap (as bs : List Component) :
    (compareComponents as bs).swap = compareComponents bs as := by
  induction as generalizing bs with
  | nil => cases bs <;> rfl
  | cons a as ih =>
    cases bs with
    | nil => rfl
    | cons b bs =>
      rw [compareComponents, compareComponents, Ordering.swap_then, Component.compare_swap, ih]

/-- The order of lists of components is transitive. -/
theorem compareComponents_lt_trans {as bs cs : List Component}
    (hab : compareComponents as bs = .lt) (hbc : compareComponents bs cs = .lt) :
    compareComponents as cs = .lt := by
  induction as generalizing bs cs with
  | nil =>
    cases cs with
    | nil => cases bs <;> simp [compareComponents] at hbc
    | cons c cs => rfl
  | cons a as ih =>
    cases bs with
    | nil => simp [compareComponents] at hab
    | cons b bs =>
      cases cs with
      | nil => simp [compareComponents] at hbc
      | cons c cs =>
        simp only [compareComponents, Ordering.then_eq_lt, Component.compare_eq_iff] at hab hbc ⊢
        rcases hab with hab | ⟨rfl, hab⟩
        · rcases hbc with hbc | ⟨rfl, -⟩
          · exact .inl (Component.compare_lt_trans hab hbc)
          · exact .inl hab
        · rcases hbc with hbc | ⟨rfl, hbc⟩
          · exact .inl hbc
          · exact .inr ⟨rfl, ih hab hbc⟩

/-- Paths compare as equal exactly if they are the same place. -/
theorem compare_eq_iff {p q : Path} : p.compare q = .eq ↔ p.same q = true := by
  rw [compare, compareComponents_eq_iff, same_iff]

theorem compare_swap (p q : Path) : (p.compare q).swap = q.compare p :=
  compareComponents_swap p.components q.components

/-- The order of paths is transitive. -/
theorem compare_lt_trans {p q s : Path} (hpq : p.compare q = .lt) (hqs : q.compare s = .lt) :
    p.compare s = .lt :=
  compareComponents_lt_trans hpq hqs

end Path

namespace PathMap

variable {α : Type} {m : PathMap α} {p q : Path} {v : α}

@[simp] theorem find?_nil (p : Path) : find? ([] : PathMap α) p = none := rfl

/-- The first entry hides later ones of its place. -/
theorem find?_cons (e : Path × α) (m : PathMap α) (p : Path) :
    find? (e :: m) p = if e.1.same p then some e.2 else find? m p := by
  unfold find?
  rw [List.find?_cons]
  obtain ⟨q, v⟩ := e
  cases h : q.same p <;> simp [h]

/-- An insertion changes what is found at its own place only. -/
theorem find?_insert (m : PathMap α) (p q : Path) (v : α) :
    (m.insert p v).find? q = if p.same q then some v else m.find? q := by
  induction m with
  | nil => rw [insert, find?_cons]
  | cons e m ih =>
    rw [insert]
    split
    next h => rw [find?_cons]
    next h =>
      have hpe : p.same e.1 = true := Path.compare_eq_iff.1 h
      have hiff : e.1.same q = p.same q := by
        rw [Path.same, Path.same, Path.same_iff.1 hpe]
      rw [find?_cons, find?_cons, hiff]
      cases p.same q <;> rfl
    next h =>
      rw [find?_cons, find?_cons, ih]
      by_cases hpq : p.same q = true
      · have hne : e.1.same q ≠ true := by
          intro heq
          have : p.same e.1 = true := Path.same_trans hpq (Path.same_symm heq)
          rw [Path.compare_eq_iff.2 this] at h
          exact absurd h (by decide)
        simp [hpq, hne]
      · simp [hpq]

/-- After an erasure nothing is found at that place; the others are as before. -/
theorem find?_erase (m : PathMap α) (p q : Path) :
    (m.erase p).find? q = if p.same q then none else m.find? q := by
  induction m with
  | nil => simp [erase]
  | cons e m ih =>
    rw [erase] at ih ⊢
    by_cases hep : e.1.same p = true
    · have hiff : e.1.same q = p.same q := by
        rw [Path.same, Path.same, Path.same_iff.1 hep]
      rw [filter_cons_of_neg (by simp [hep]), ih, find?_cons, hiff]
      cases p.same q <;> rfl
    · rw [filter_cons_of_pos (by simp [hep]), find?_cons, find?_cons, ih]
      by_cases hpq : p.same q = true
      · have hne : e.1.same q ≠ true := fun heq =>
          hep (Path.same_trans heq (Path.same_symm hpq))
        simp [hpq, hne]
      · simp [hpq]

/-- An insertion adds no path but its own. -/
theorem mem_paths_insert (h : q ∈ (m.insert p v).paths) : q = p ∨ q ∈ m.paths := by
  induction m with
  | nil => simpa [insert, paths] using h
  | cons e m ih =>
    rw [insert] at h
    split at h
    next => simpa [paths] using h
    next => exact .inr h
    next =>
      rcases mem_cons.1 h with rfl | hm
      · exact .inr (by simp [paths])
      · rcases ih hm with rfl | hm
        · exact .inl rfl
        · exact .inr (mem_cons_of_mem _ hm)

/-- An erasure adds no path. -/
theorem mem_paths_erase (h : q ∈ (m.erase p).paths) : q ∈ m.paths := by
  obtain ⟨e, he, rfl⟩ := mem_map.1 h
  exact mem_map.2 ⟨e, (mem_filter.1 he).1, rfl⟩

/-! ### Order -/

/-- A map whose places stand in their order, each once. -/
def Sorted (m : PathMap α) : Prop :=
  m.paths.Pairwise fun p q => p.compare q = .lt

theorem sorted_nil : Sorted ([] : PathMap α) :=
  List.Pairwise.nil

/-- A sorted map has each place at most once. -/
theorem Sorted.pairwise_not_same (h : m.Sorted) : m.paths.Pairwise fun p q => ¬p.same q := by
  refine h.imp fun {p q} hlt hs => ?_
  rw [Path.compare_eq_iff.2 hs] at hlt
  exact absurd hlt (by decide)

/-- An erasure keeps the order. -/
theorem Sorted.erase (h : m.Sorted) (p : Path) : (m.erase p).Sorted :=
  List.Pairwise.sublist (filter_sublist.map _) h

/-- An insertion keeps the order. -/
theorem Sorted.insert (h : m.Sorted) (p : Path) (v : α) : (m.insert p v).Sorted := by
  induction m with
  | nil => exact pairwise_singleton _ _
  | cons e m ih =>
    obtain ⟨hlt, hm⟩ := pairwise_cons.1 h
    rw [PathMap.insert]
    split
    next hpe =>
      refine pairwise_cons.2 ⟨fun q hq => ?_, h⟩
      rcases mem_cons.1 hq with rfl | hq
      · exact hpe
      · exact Path.compare_lt_trans hpe (hlt q hq)
    next => exact pairwise_cons.2 ⟨hlt, hm⟩
    next hpe =>
      refine pairwise_cons.2 ⟨fun q hq => ?_, ih hm⟩
      rcases mem_paths_insert hq with rfl | hq
      · rw [← Path.compare_swap, hpe]
        rfl
      · exact hlt q hq

/-- A map made from a list is sorted. -/
theorem sorted_ofList (entries : List (Path × α)) : (ofList entries).Sorted := by
  suffices h : ∀ m : PathMap α, m.Sorted →
      (entries.foldl (fun m e => m.insert e.1 e.2) m).Sorted from h [] sorted_nil
  induction entries with
  | nil => exact fun m hm => hm
  | cons e rest ih => exact fun m hm => ih _ (hm.insert e.1 e.2)

/-- A map made from a list has only the paths of the list. -/
theorem mem_paths_ofList {entries : List (Path × α)} (h : p ∈ (ofList entries).paths) :
    p ∈ entries.map (·.1) := by
  suffices hfold : ∀ m : PathMap α,
      p ∈ (entries.foldl (fun m e => m.insert e.1 e.2) m).paths →
        p ∈ m.paths ∨ p ∈ entries.map (·.1) by
    rcases hfold [] h with hnil | hp
    · simp [paths] at hnil
    · exact hp
  clear h
  induction entries with
  | nil => exact fun m hm => .inl hm
  | cons e rest ih =>
    intro m hm
    rcases ih _ hm with hins | hrest
    · rcases mem_paths_insert hins with rfl | hm
      · exact .inr (by simp)
      · exact .inl hm
    · exact .inr (mem_cons_of_mem _ hrest)

end PathMap

end TypedNotation
