/-!
# Columns and offsets

Editors count columns in UTF-16 code units, files are stored in UTF-8 bytes, and the analysis walks
characters. The three measures meet here: `units16` is the width of a text in columns, `bytes` its
size on disk, and `columnPrefix line c` the part of a line before column `c`.

A column inside a surrogate pair counts as the column after the pair, and a column past the end of
the line as the end, so every column selects a prefix of whole characters.
-/

namespace TypedNotation.Text

/-- Width of a character in UTF-16 code units: two outside the basic plane. -/
def unitWidth (c : Char) : Nat :=
  if c.toNat < 0x10000 then 1 else 2

/-- Width of a text in UTF-16 code units. -/
def units16 : List Char → Nat
  | [] => 0
  | c :: cs => unitWidth c + units16 cs

/-- Size of a text in UTF-8 bytes. -/
def bytes : List Char → Nat
  | [] => 0
  | c :: cs => c.utf8Size + bytes cs

/-- The characters of a line before a column. -/
def columnPrefix : List Char → Nat → List Char
  | [], _ => []
  | _ :: _, 0 => []
  | c :: cs, n + 1 => c :: columnPrefix cs (n + 1 - unitWidth c)

/-- The byte offset of a column on a line. -/
def byteOffset (line : List Char) (column : Nat) : Nat :=
  bytes (columnPrefix line column)

/-- Splits a text at a byte offset, if a character starts there. -/
def splitAtByte? : List Char → Nat → Option (List Char × List Char)
  | cs, 0 => some ([], cs)
  | [], _ + 1 => none
  | c :: cs, n + 1 =>
    if c.utf8Size ≤ n + 1 then
      (splitAtByte? cs (n + 1 - c.utf8Size)).map fun (before, after) => (c :: before, after)
    else
      none

@[simp] theorem units16_nil : units16 [] = 0 := rfl

@[simp] theorem units16_cons (c : Char) (cs : List Char) :
    units16 (c :: cs) = unitWidth c + units16 cs := rfl

@[simp] theorem units16_append (a b : List Char) : units16 (a ++ b) = units16 a + units16 b := by
  induction a with
  | nil => simp
  | cons c a ih => rw [List.cons_append, units16_cons, units16_cons, ih, Nat.add_assoc]

@[simp] theorem bytes_nil : bytes [] = 0 := rfl

@[simp] theorem bytes_cons (c : Char) (cs : List Char) : bytes (c :: cs) = c.utf8Size + bytes cs :=
  rfl

@[simp] theorem bytes_append (a b : List Char) : bytes (a ++ b) = bytes a + bytes b := by
  induction a with
  | nil => simp
  | cons c a ih => rw [List.cons_append, bytes_cons, bytes_cons, ih, Nat.add_assoc]

theorem unitWidth_pos (c : Char) : 0 < unitWidth c := by
  unfold unitWidth
  split <;> decide

theorem units16_pos {cs : List Char} (h : cs ≠ []) : 0 < units16 cs := by
  cases cs with
  | nil => exact absurd rfl h
  | cons c cs => exact Nat.add_pos_left (unitWidth_pos c) _

/-- The column after a prefix selects exactly that prefix. -/
theorem columnPrefix_units16_append (a b : List Char) : columnPrefix (a ++ b) (units16 a) = a := by
  induction a with
  | nil => cases b <;> rfl
  | cons c a ih =>
    obtain ⟨w, hw⟩ : ∃ w, unitWidth c = w + 1 :=
      ⟨unitWidth c - 1, by have := unitWidth_pos c; omega⟩
    have hu : units16 (c :: a) = (w + units16 a) + 1 := by simp [hw]; omega
    have hd : w + units16 a + 1 - unitWidth c = units16 a := by omega
    rw [hu, List.cons_append, columnPrefix, hd, ih]

/-- A split at a byte offset loses nothing. -/
theorem append_of_splitAtByte? {cs before after : List Char} {n : Nat}
    (h : splitAtByte? cs n = some (before, after)) : before ++ after = cs ∧ bytes before = n := by
  induction cs generalizing n before with
  | nil =>
    cases n with
    | zero => simp_all [splitAtByte?]
    | succ n => simp [splitAtByte?] at h
  | cons c cs ih =>
    cases n with
    | zero => simp_all [splitAtByte?]
    | succ n =>
      rw [splitAtByte?] at h
      split at h
      next hc =>
        obtain ⟨⟨b, a⟩, hs, heq⟩ := Option.map_eq_some_iff.1 h
        obtain ⟨rfl, rfl⟩ := Prod.mk.inj heq
        obtain ⟨happ, hb⟩ := ih hs
        exact ⟨by simp [happ], by simp [hb]; omega⟩
      next => simp at h

end TypedNotation.Text
