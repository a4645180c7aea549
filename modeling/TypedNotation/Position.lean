/-!
# Positions and ranges

A position is a line and a column, both counted from zero, the column in UTF-16 code units.
Positions are ordered line first. A range is half open: it contains its start and not its stop, so
two ranges that abut share no position, and a range whose start is its stop is an insertion point.

`TokenRange` is the same idea on the indices of a document's token stream.
-/

namespace TypedNotation

/-- A place between two characters of a document. -/
structure Position where
  line : Nat
  character : Nat
  deriving DecidableEq, Inhabited

namespace Position

instance : LT Position where
  lt a b := a.line < b.line ∨ (a.line = b.line ∧ a.character < b.character)

instance : LE Position where
  le a b := a.line < b.line ∨ (a.line = b.line ∧ a.character ≤ b.character)

theorem lt_def {a b : Position} :
    a < b ↔ a.line < b.line ∨ (a.line = b.line ∧ a.character < b.character) := Iff.rfl

theorem le_def {a b : Position} :
    a ≤ b ↔ a.line < b.line ∨ (a.line = b.line ∧ a.character ≤ b.character) := Iff.rfl

instance (a b : Position) : Decidable (a < b) := decidable_of_iff' _ lt_def

instance (a b : Position) : Decidable (a ≤ b) := decidable_of_iff' _ le_def

instance : Min Position where
  min a b := if a ≤ b then a else b

instance : Max Position where
  max a b := if a ≤ b then b else a

/-- The first position of every document. -/
def origin : Position :=
  ⟨0, 0⟩

theorem le_refl (a : Position) : a ≤ a := by
  simp [le_def]

theorem le_trans {a b c : Position} (hab : a ≤ b) (hbc : b ≤ c) : a ≤ c := by
  simp only [le_def] at *
  omega

theorem le_total (a b : Position) : a ≤ b ∨ b ≤ a := by
  simp only [le_def]
  omega

theorem le_antisymm {a b : Position} (hab : a ≤ b) (hba : b ≤ a) : a = b := by
  obtain ⟨la, ca⟩ := a
  obtain ⟨lb, cb⟩ := b
  simp only [le_def] at *
  simp only [mk.injEq]
  omega

theorem not_le {a b : Position} : ¬ a ≤ b ↔ b < a := by
  simp only [le_def, lt_def]
  omega

theorem not_lt {a b : Position} : ¬ a < b ↔ b ≤ a := by
  simp only [le_def, lt_def]
  omega

theorem le_of_lt {a b : Position} (h : a < b) : a ≤ b := by
  simp only [le_def, lt_def] at *
  omega

theorem lt_of_lt_of_le {a b c : Position} (hab : a < b) (hbc : b ≤ c) : a < c := by
  simp only [le_def, lt_def] at *
  omega

theorem lt_of_le_of_lt {a b c : Position} (hab : a ≤ b) (hbc : b < c) : a < c := by
  simp only [le_def, lt_def] at *
  omega

end Position

/-- The positions from `start` up to, and not including, `stop`. -/
structure Range where
  start : Position
  stop : Position
  deriving DecidableEq, Inhabited

namespace Range

/-- The empty range at a position. -/
def point (p : Position) : Range :=
  ⟨p, p⟩

/-- The columns from `start` to `stop` of one line. -/
def onLine (line start stop : Nat) : Range :=
  ⟨⟨line, start⟩, ⟨line, stop⟩⟩

/-- The smallest range that covers both. -/
def combine (a b : Range) : Range :=
  ⟨min a.start b.start, max a.stop b.stop⟩

/-- Whether a position lies in the range. -/
def contains (r : Range) (p : Position) : Bool :=
  r.start ≤ p && p < r.stop

/-- The range less `front` columns at its start and `back` columns at its stop. The back stays on
its line: it stops at the first column. -/
def contract (r : Range) (front back : Nat) : Range :=
  ⟨⟨r.start.line, r.start.character + front⟩, ⟨r.stop.line, r.stop.character - back⟩⟩

/-- Whether the range ends on another line than it starts on. -/
def isMultiline (r : Range) : Bool :=
  r.start.line != r.stop.line

/-- Whether two ranges share a position. -/
def overlaps (a b : Range) : Bool :=
  a.start < b.stop && b.start < a.stop

theorem contains_iff {r : Range} {p : Position} :
    r.contains p = true ↔ r.start ≤ p ∧ p < r.stop := by
  simp [contains]

end Range

/-- The indices from `start` up to, and not including, `stop` of a token stream. -/
structure TokenRange where
  start : Nat
  stop : Nat
  deriving DecidableEq, Inhabited

namespace TokenRange

/-- The range of one token. -/
def single (i : Nat) : TokenRange :=
  ⟨i, i + 1⟩

/-- The smallest range that covers both. -/
def combine (a b : TokenRange) : TokenRange :=
  ⟨min a.start b.start, max a.stop b.stop⟩

end TokenRange

end TypedNotation
