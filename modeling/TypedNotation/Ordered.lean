/-!
# Ordered associations

Names with what belongs to them, in the order in which the names were first given.
-/

namespace TypedNotation.Ordered

/-- Gives a name its value. A name that is already there keeps its place. -/
def insert {α : Type} (entries : List (String × α)) (name : String) (value : α) :
    List (String × α) :=
  match entries with
  | [] => [(name, value)]
  | (k, v) :: rest => if k = name then (k, value) :: rest else (k, v) :: insert rest name value

/-- The association of some pairs: the last value of a name counts, in the place of the first. -/
def ofList {α : Type} (pairs : List (String × α)) : List (String × α) :=
  pairs.foldl (fun entries (k, v) => insert entries k v) []

theorem lookup_cons {α : Type} (k name : String) (v : α) (rest : List (String × α)) :
    ((k, v) :: rest).lookup name = if name = k then some v else rest.lookup name := by
  by_cases h : name = k
  · simp [h]
  · simp [List.lookup_cons, beq_false_of_ne h, h]

/-- A lookup among changed values finds the changed value. -/
theorem lookup_map {α β : Type} (f : String → α → β) (entries : List (String × α)) (name : String) :
    (entries.map fun e => (e.1, f e.1 e.2)).lookup name = (entries.lookup name).map (f name) := by
  induction entries with
  | nil => rfl
  | cons e rest ih =>
    rw [List.map_cons, lookup_cons, lookup_cons, ih]
    by_cases h : name = e.1 <;> simp [h]

/-- Where every name stands once, a lookup finds exactly the pairs that are there. -/
theorem lookup_eq_some_iff {α : Type} {entries : List (String × α)} {name : String} {value : α}
    (h : (entries.map (·.1)).Nodup) :
    entries.lookup name = some value ↔ (name, value) ∈ entries := by
  induction entries with
  | nil => simp
  | cons e rest ih =>
    obtain ⟨k, v⟩ := e
    rw [List.map_cons, List.nodup_cons] at h
    rw [lookup_cons, List.mem_cons, Prod.mk.injEq, ← ih h.2]
    by_cases hk : name = k
    · -- the name does not stand in the rest again
      have hrest : rest.lookup name ≠ some value := by
        intro hfound
        exact h.1 (List.mem_map.2 ⟨_, (ih h.2).1 hfound, hk⟩)
      simp only [hk] at hrest
      simp [hk, hrest, eq_comm]
    · simp [hk]

/-- A name is found with the value that it was given last. -/
theorem lookup_insert {α : Type} (entries : List (String × α)) (k name : String) (value : α) :
    (insert entries k value).lookup name = if name = k then some value
      else entries.lookup name := by
  induction entries with
  | nil => simp [insert, lookup_cons]
  | cons e rest ih =>
    obtain ⟨k', v⟩ := e
    by_cases hk : k' = k
    · by_cases h : name = k <;> simp [insert, lookup_cons, hk, h]
    · by_cases h : name = k'
      · simp [insert, hk, h]
      · simp [insert, lookup_cons, hk, h, ih]

end TypedNotation.Ordered
