import TypedNotation.Proofs.EditBytes
import TypedNotation.Proofs.UsableRanges

/-!
# The layout in words of 32 bits

`Layout.lint` counts with numbers of any size and takes what it needs from lists. Here every rule is
written once more as a computation that may fail (`Layout.Checked.lint?`): at a number that does not
fit into 32 bits, at a difference below zero, at an index behind the end of a list and at a cut
inside a character. The lines that start or end in a string are marked in two tables
(`StringLines`), and the first and the last item of a block are searched for by index.

On tokens that fill lines of moderate size a rule fails only where it asks for an indent that is too
wide (`Checked.Exactly`): the columns of a token are those of its line, the tables have an entry for
every line (`LineState.stringLines_eq`), and a block has the tokens of its brackets.
-/

namespace TypedNotation

open List Text

namespace Layout.Checked

/-! ### Steps that may fail -/

/-- A number, if it fits into 32 bits. -/
def word? (n : Nat) : Option Nat :=
  if n < UInt32.size then some n else none

/-- A difference, if it is not below zero. -/
def sub? (a b : Nat) : Option Nat :=
  if b ≤ a then some (a - b) else none

/-- All results of a computation for the members of a list, in order. -/
def collect? {α β : Type} (f : α → Option (List β)) : List α → Option (List β)
  | [] => some []
  | x :: xs => do
    let found ← f x
    let more ← collect? f xs
    some (found ++ more)

theorem word?_of_lt {n : Nat} (h : n < UInt32.size) : word? n = some n :=
  if_pos h

theorem sub?_of_le {a b : Nat} (h : b ≤ a) : sub? a b = some (a - b) :=
  if_pos h

/-- A computation gives a result under a condition, and fails otherwise. -/
def Exactly {α : Type} (P : Prop) (o : Option α) (a : α) : Prop :=
  (P → o = some a) ∧ (¬P → o = none)

namespace Exactly

variable {α β : Type} {P Q : Prop} {o : Option α} {a : α} {b : β}

theorem word (n : Nat) : Exactly (n < UInt32.size) (word? n) n :=
  ⟨fun hlt => if_pos hlt, fun hnot => if_neg hnot⟩

theorem of_eq (h : o = some a) : Exactly True o a :=
  ⟨fun _ => h, fun hnot => absurd trivial hnot⟩

theorem congr (h : Exactly P o a) (hiff : P ↔ Q) : Exactly Q o a :=
  ⟨fun hq => h.1 (hiff.2 hq), fun hq => h.2 fun hp => hq (hiff.1 hp)⟩

/-- Two steps fit exactly if both do. -/
theorem bind (h : Exactly P o a) {f : α → Option β} (hf : Exactly Q (f a) b) :
    Exactly (P ∧ Q) (o >>= f) b := by
  by_cases hp : P
  · simp only [h.1 hp, hp, true_and]
    exact hf
  · simp only [h.2 hp, hp, false_and]
    exact ⟨False.elim, fun _ => rfl⟩

/-- A step that comes to nothing else than its own result. -/
theorem map (h : Exactly P o a) (f : α → β) : Exactly P (o >>= fun x => some (f x)) (f a) :=
  (h.bind (f := fun x => some (f x)) (of_eq rfl)).congr (and_iff_left trivial)

/-- A list of steps fits exactly if all of them do. -/
theorem collect {f : α → Option (List β)} {g : α → List β} {P : α → Prop} {xs : List α}
    (h : ∀ x ∈ xs, Exactly (P x) (f x) (g x)) :
    Exactly (∀ x ∈ xs, P x) (collect? f xs) (xs.flatMap g) := by
  induction xs with
  | nil => exact (of_eq rfl).congr (by simp)
  | cons x xs ih =>
    obtain ⟨hx, hxs⟩ := forall_mem_cons.1 h
    exact (hx.bind ((ih hxs).map _)).congr (by simp)

end Exactly

theorem collect?_of_forall {α β : Type} {f : α → Option (List β)} {g : α → List β} {xs : List α}
    (h : ∀ x ∈ xs, f x = some (g x)) : collect? f xs = some (xs.flatMap g) :=
  (Exactly.collect fun x hx => .of_eq (h x hx)).1 fun _ _ => trivial

/-! ### Lines in strings -/

/-- Which lines start and end in a string, as far as the tokens were looked at, and the last
token. -/
structure StringLines where
  starts : List Bool
  ends : List Bool
  last : Option Token

namespace StringLines

/-- A newline tells of the end of its line, and the first token of a line of its start. -/
def step (x : StringLines) (t : Token) : StringLines :=
  let line := t.range.start.line
  if t.kind = .newline then
    match x.last with
    | some u =>
      { x with
        ends := x.ends.set line (u.range.start.line == line && inString .opening u)
        last := some t }
    | none => { x with last := some t }
  else if x.last.all (·.kind == .newline) then
    { x with starts := x.starts.set line (inString .closing t), last := some t }
  else { x with last := some t }

/-- The tables for a number of lines. -/
def ofTokens (count : Nat) (ts : List Token) : StringLines :=
  ts.foldl step ⟨List.replicate count false, List.replicate count false, none⟩

variable {x : StringLines} {ts : List Token} {line : Nat}

/-- Behind the first token of a line only the last token changes, up to the newline. -/
theorem foldl_inside {u : Token} (hlast : x.last = some u) (hu : u.kind ≠ .newline)
    (hts : ∀ t ∈ ts, t.kind ≠ .newline) :
    ts.foldl step x = { x with last := some (ts.getLast?.getD u) } := by
  induction ts generalizing x u with
  | nil => simp [← hlast]
  | cons t ts ih =>
    obtain ⟨ht, hts⟩ := forall_mem_cons.1 hts
    have hstep : step x t = { x with last := some t } := by simp [step, ht, hlast, hu]
    rw [foldl_cons, hstep, ih rfl ht hts, getLast?_cons]
    rfl

/-- Setting the next of the flags. -/
theorem set_replicate {done : List Bool} (hdone : done.length = line) (v : Bool) (count : Nat) :
    (done ++ List.replicate (count + 1) false).set line v =
      done ++ v :: List.replicate count false := by
  rw [set_append_right _ _ hdone.le, hdone, Nat.sub_self, replicate_succ, set_cons_zero]

/-- The tokens of a line with its newline add an entry to both tables. -/
theorem foldl_line {starts ends : List Bool} {count : Nat} {last : Option Token} {newline : Token}
    (hstarts : starts.length = line) (hends : ends.length = line)
    (hlast : ∀ u, last = some u → u.kind = .newline ∧ u.range.start.line ≠ line)
    (hts : ∀ t ∈ ts, t.kind ≠ .newline ∧ t.range.start.line = line)
    (hnewline : newline.kind = .newline) (hline : newline.range.start.line = line) :
    (ts ++ [newline]).foldl step
        ⟨starts ++ List.replicate (count + 1) false, ends ++ List.replicate (count + 1) false,
          last⟩ =
      ⟨starts ++ ts.head?.any (inString .closing) :: List.replicate count false,
        ends ++ ts.getLast?.any (inString .opening) :: List.replicate count false,
        some newline⟩ := by
  rw [foldl_append, foldl_cons, foldl_nil]
  cases ts with
  | nil =>
    -- an empty line leaves the entry of its start, and has no token of its own in front of the
    -- newline
    cases last with
    | none => simp [step, hnewline, replicate_succ]
    | some u =>
      have hother : (u.range.start.line == line) = false := by simpa using (hlast u rfl).2
      simp only [step, foldl_nil, hnewline, if_true, hline, hother, Bool.false_and,
        set_replicate hends]
      simp [replicate_succ]
  | cons t ts =>
    obtain ⟨⟨ht, htline⟩, hts⟩ := forall_mem_cons.1 hts
    have hfresh : last.all (·.kind == .newline) = true := by
      cases last with
      | none => rfl
      | some u => simpa using (hlast u rfl).1
    have hfirst : step ⟨starts ++ List.replicate (count + 1) false,
        ends ++ List.replicate (count + 1) false, last⟩ t =
        ⟨starts ++ inString .closing t :: List.replicate count false,
          ends ++ List.replicate (count + 1) false, some t⟩ := by
      simp only [step, ht, if_false, hfresh, if_true, htline, set_replicate hstarts]
    have hbehind : ((ts.getLast?.getD t).range.start.line == line) = true := by
      cases hend : ts.getLast? with
      | none => simpa using htline
      | some v => simpa using (hts v (mem_of_getLast? hend)).2
    -- the newline finds the last token of its own line, which decides on the end of the line
    rw [foldl_cons, hfirst, foldl_inside rfl ht fun v hv => (hts v hv).1]
    simp only [step, hnewline, if_true, hline, hbehind, Bool.true_and, set_replicate hends,
      getLast?_cons, head?_cons, Option.any_some]

end StringLines

end Layout.Checked

namespace LineState

open Layout.Checked

/-- From a line on, the tokens of the lines fill both tables. -/
theorem foldl_tokensOfLines (s : LineState) (lines : List (List Char)) {line : Nat}
    {starts ends : List Bool} {last : Option Token} (hstarts : starts.length = line)
    (hends : ends.length = line)
    (hlast : ∀ u, last = some u → u.kind = .newline ∧ u.range.start.line < line) :
    ((s.tokensOfLines line lines).foldl StringLines.step
        ⟨starts ++ List.replicate lines.length false, ends ++ List.replicate lines.length false,
          last⟩).starts = starts ++ (s.rows line lines).map Layout.Row.startsInString ∧
      ((s.tokensOfLines line lines).foldl StringLines.step
        ⟨starts ++ List.replicate lines.length false, ends ++ List.replicate lines.length false,
          last⟩).ends = ends ++ (s.rows line lines).map Layout.Row.endsInString := by
  induction lines generalizing s line starts ends last with
  | nil => simp [tokensOfLines, rows]
  | cons text lines ih =>
    have hts : ∀ t ∈ Lexeme.tokensFrom line 0 (s.scan text).1,
        t.kind ≠ .newline ∧ t.range.start.line = line := fun t ht =>
      ⟨Lexeme.kind_ne_newline_of_mem_tokensFrom ht, (Document.onLine_of_mem_tokensFrom ht).1.1⟩
    have hnext : ∀ u, some (Token.newline line (units16 text)) = some u →
        u.kind = .newline ∧ u.range.start.line < line + 1 := by
      rintro _ ⟨⟩
      exact ⟨rfl, Nat.lt_succ_self line⟩
    rw [tokensOfLines, tokens, foldl_append, length_cons,
      StringLines.foldl_line hstarts hends (fun u hu => ⟨(hlast u hu).1, (hlast u hu).2.ne⟩) hts rfl
        rfl,
      rows, map_cons, map_cons]
    have hrest := @ih (s.scan text).2 (line + 1)
      (starts ++ [(Lexeme.tokensFrom line 0 (s.scan text).1).head?.any (Layout.inString .closing)])
      (ends ++ [(Lexeme.tokensFrom line 0 (s.scan text).1).getLast?.any (Layout.inString .opening)])
      _ (by simp [hstarts]) (by simp [hends]) hnext
    simpa only [Layout.Row.startsInString, Layout.Row.endsInString, append_assoc,
      singleton_append] using hrest

/-- The tables say of every line whether it starts and whether it ends in a string. -/
theorem stringLines_eq (s : LineState) (lines : List (List Char)) :
    (StringLines.ofTokens lines.length (s.tokensOfLines 0 lines)).starts =
        (Layout.rows lines (s.tokensOfLines 0 lines)).map Layout.Row.startsInString ∧
      (StringLines.ofTokens lines.length (s.tokensOfLines 0 lines)).ends =
        (Layout.rows lines (s.tokensOfLines 0 lines)).map Layout.Row.endsInString := by
  rw [rows_eq]
  exact @foldl_tokensOfLines s lines 0 [] [] none rfl rfl (by simp)

end LineState

/-! ### Depth and indents -/

namespace Data

/-- The depth in data is that in its block. -/
theorem depthAt_innerBlock (p : Position) (d : Data) :
    d.depthAt p = (d.innerBlock?.map (blockDepthAt p)).getD 0 := by
  cases d with
  | primitive s range tokens => rfl
  | block b => rfl
  | enum tag tagRange payload range tokens => cases payload <;> rfl

/-- The blocks of data are those of its block. -/
theorem blocks_innerBlock (d : Data) : d.blocks = (d.innerBlock?.map blocksOf).getD [] := by
  cases d with
  | primitive s range tokens => rfl
  | block b => rfl
  | enum tag tagRange payload range tokens => cases payload <;> rfl

end Data

namespace Layout.Checked

mutual

/-- The number of blocks around a position. -/
def depthAt? (p : Position) : Data → Option Nat
  | .primitive .. => some 0
  | .block b => blockDepthAt? p b
  | .enum _ _ none _ _ => some 0
  | .enum _ _ (some b) _ _ => blockDepthAt? p b

/-- The number of blocks around a position, from a block inwards. -/
def blockDepthAt? (p : Position) : Block Data → Option Nat
  | ⟨contents, range, _⟩ => do
    let start ← word? (range.start.character + 1)
    if Range.contains ⟨⟨range.start.line, start⟩, range.stop.line, range.stop.character - 1⟩ p then
      let inner ← contentsDepthAt? p contents
      word? (1 + inner)
    else some 0

/-- The greatest number of blocks around a position in the parts of a block. -/
def contentsDepthAt? (p : Position) : Contents Data → Option Nat
  | .dict entries _ => entriesDepthAt? p entries
  | .array items => itemsDepthAt? p items
  | .tuple items => itemsDepthAt? p items

/-- The greatest number of blocks around a position in some properties. -/
def entriesDepthAt? (p : Position) : List (String × Data) → Option Nat
  | [] => some 0
  | (_, d) :: rest => do
    let depth ← depthAt? p d
    let more ← entriesDepthAt? p rest
    some (max depth more)

/-- The greatest number of blocks around a position in some elements. -/
def itemsDepthAt? (p : Position) : List Data → Option Nat
  | [] => some 0
  | d :: rest => do
    let depth ← depthAt? p d
    let more ← itemsDepthAt? p rest
    some (max depth more)

end

/-- The indent that is wanted at a position. -/
def indentAt? (settings : LayoutSettings) (data : Data) (p : Position) : Option Nat := do
  let depth ← depthAt? p data
  word? (settings.indentWidth * depth)

theorem entriesDepthAt?_eq (p : Position) (entries : List (String × Data)) :
    entriesDepthAt? p entries = itemsDepthAt? p (entries.map (·.2)) := by
  induction entries with
  | nil => simp [entriesDepthAt?, itemsDepthAt?]
  | cons e entries ih => simp [entriesDepthAt?, itemsDepthAt?, ih]

theorem contentsDepthAt?_eq (p : Position) (contents : Contents Data) :
    contentsDepthAt? p contents = itemsDepthAt? p contents.children := by
  cases contents with
  | dict entries ranges => rw [contentsDepthAt?, entriesDepthAt?_eq, Contents.children]
  | array items | tuple items => rw [contentsDepthAt?, Contents.children]

/-- The depth in elements fits if it does in each. -/
theorem itemsDepthAt?_eq {p : Position} {items : List Data}
    (h : ∀ d ∈ items, depthAt? p d = some (d.depthAt p)) :
    itemsDepthAt? p items = some (Data.itemsDepthAt p items) := by
  induction items with
  | nil => simp [itemsDepthAt?, Data.itemsDepthAt]
  | cons d items ih =>
    obtain ⟨hd, hitems⟩ := forall_mem_cons.1 h
    simp [itemsDepthAt?, Data.itemsDepthAt, hd, ih hitems]

/-- The depth in a block is counted if the column behind its bracket and the depth itself fit. -/
theorem blockDepthAt?_eq {p : Position} {b : Block Data}
    (hstart : b.range.start.character + 1 < UInt32.size)
    (hdepth : Data.blockDepthAt p b < UInt32.size)
    (hparts : ∀ d ∈ b.contents.children, depthAt? p d = some (d.depthAt p)) :
    blockDepthAt? p b = some (Data.blockDepthAt p b) := by
  rw [Data.blockDepthAt_children] at hdepth ⊢
  obtain ⟨contents, range, tokens⟩ := b
  rw [blockDepthAt?, word?_of_lt hstart, contentsDepthAt?_eq, itemsDepthAt?_eq hparts]
  by_cases hin : (range.contract 1 1).contains p = true
  · rw [if_pos hin] at hdepth ⊢
    exact (if_pos hin).trans (word?_of_lt hdepth)
  · rw [if_neg hin]
    exact if_neg hin

theorem depthAt?_innerBlock (p : Position) (d : Data) :
    depthAt? p d = (d.innerBlock?.map (blockDepthAt? p)).getD (some 0) := by
  cases d with
  | primitive s range tokens => rfl
  | block b => rfl
  | enum tag tagRange payload range tokens => cases payload <;> rfl

/-- The depth at a position fits in a word. -/
theorem depthAt?_eq {p : Position} (d : Data)
    (h : ∀ b ∈ d.blocks, b.range.start.character + 1 < UInt32.size ∧
      Data.blockDepthAt p b < UInt32.size) :
    depthAt? p d = some (d.depthAt p) := by
  induction d using Data.induction_on_parts with
  | h d ih =>
    rw [depthAt?_innerBlock, Data.depthAt_innerBlock]
    rw [Data.blocks_innerBlock] at h
    cases hown : d.innerBlock? with
    | none => rfl
    | some own =>
      rw [hown, Option.map_some, Option.getD_some, Data.blocksOf_eq] at h
      obtain ⟨⟨hstart, hdepth⟩, hparts⟩ := forall_mem_cons.1 h
      exact blockDepthAt?_eq hstart hdepth fun part hpart =>
        ih own hown part hpart fun b hb => hparts b (mem_flatMap.2 ⟨part, hpart, hb⟩)

/-! ### Rules on lines -/

/-- No blanks at the end of a line. -/
def trailingBlanks? (ends : List Bool) (number : Nat) (text : List Char) :
    Option (List Diagnostic) := do
  let inside ← ends[number]?
  if inside || (trimEnd text).length = text.length then some []
  else
    let line ← word? number
    let start ← word? (units16 (trimEnd text))
    let stop ← word? (units16 text)
    some [warn .trailingWhitespace (.onLine line start stop) "Trailing whitespace not allowed." ""]

/-- Every line is indented by its depth. -/
def indentation? (indent? : Position → Option Nat) (starts : List Bool) (number : Nat)
    (text : List Char) : Option (List Diagnostic) :=
  if allBlank text then some []
  else do
    let inside ← starts[number]?
    if inside then some []
    else
      let size ← sub? (bytes text) (bytes (trimStart text))
      let indent ← slice? text 0 size
      let line ← word? number
      let width ← word? (units16 indent)
      let expected ← indent? ⟨line, width⟩
      if indent.all (· == ' ') && width = expected then some []
      else
        let found := received indent width
        some [warn .indentation (.onLine line 0 width)
          s!"Expected indent of {expected} spaces, received {found}" (spaces expected)]

/-- The check of blanks at the end of a line fits. -/
theorem trailingBlanks?_eq {ends : List Bool} {r : Row}
    (hends : ends[r.number]? = some r.endsInString) (hnumber : r.number < UInt32.size)
    (hwidth : units16 r.text < UInt32.size) :
    trailingBlanks? ends r.number r.text = some (trailingBlanks r) := by
  have hkept : units16 (trimEnd r.text) < UInt32.size := by
    have htrim := congrArg units16 (trimEnd_append_trail r.text)
    rw [units16_append] at htrim
    omega
  simp only [trailingBlanks?, trailingBlanks, hends, word?_of_lt hnumber, word?_of_lt hkept,
    word?_of_lt hwidth, Option.bind_eq_bind, Option.bind_some]
  split <;> rfl

/-- The leading blanks of a line can be cut off. -/
theorem slice?_indent (text : List Char) :
    (sub? (bytes text) (bytes (trimStart text))).bind (slice? text 0) =
      some (indent text) := by
  have hbytes := congrArg bytes (indent_append_trimStart text)
  rw [bytes_append] at hbytes
  rw [sub?_of_le (by omega), Option.bind_some]
  refine slice?_eq_some_iff.2 ⟨[], trimStart text, ?_, rfl, ?_⟩
  · exact (indent_append_trimStart text).symm
  · rw [bytes_nil]
    omega

theorem exactly_indentation? {settings : LayoutSettings} {data : Data} {starts : List Bool}
    {r : Row} {indent? : Position → Option Nat} {Fits : Position → Prop}
    (hindent : ∀ p, Exactly (Fits p) (indent? p) (indentAt settings data p))
    (hstarts : starts[r.number]? = some r.startsInString) (hnumber : r.number < UInt32.size)
    (hwidth : units16 r.text < UInt32.size) :
    Exactly (∀ p ∈ rowAsks r, Fits p) (indentation? indent? starts r.number r.text)
      (indentation settings data r) := by
  have hunits : units16 (indent r.text) < UInt32.size := by
    have htrim := congrArg units16 (indent_append_trimStart r.text)
    rw [units16_append] at htrim
    omega
  unfold indentation? indentation rowAsks
  cases hblank : allBlank r.text with
  | true => simpa using Exactly.of_eq rfl
  | false =>
    cases hin : r.startsInString with
    | true => simpa [hstarts, hin] using Exactly.of_eq rfl
    | false =>
      obtain ⟨size, hsize, hslice⟩ := Option.bind_eq_some_iff.1 (slice?_indent r.text)
      have hask := hindent ⟨r.number, units16 (indent r.text)⟩
      simp only [hstarts, hin, hsize, hslice, word?_of_lt hnumber, word?_of_lt hunits,
        Option.bind_eq_bind, Option.bind_some, Bool.false_eq_true, if_false, Bool.or_false,
        Bool.false_or, mem_singleton, forall_eq]
      refine (hask.bind (Exactly.of_eq ?_)).congr (and_iff_left trivial)
      split <;> rfl

/-! ### Rules on separators -/

/-- The byte offset of a column on a line, from a number of columns on. -/
def byteOffset? (column : Nat) : Nat → List Char → Option Nat
  | _, [] => some 0
  | units, c :: cs =>
    if column ≤ units then some 0
    else do
      let units ← word? (units + unitWidth c)
      let more ← byteOffset? column units cs
      some (c.utf8Size + more)

/-- The part of a line between the columns of a range. -/
def textIn? (lines : List (List Char)) (range : Range) : Option (List Char) :=
  match lines[range.start.line]? with
  | none => some []
  | some line => do
    let start ← byteOffset? range.start.character 0 line
    let stop ← byteOffset? range.stop.character 0 line
    some ((slice? line start (max start stop)).getD [])

/-- A gap that is not as wide as wanted. -/
def gap? (lines : List (List Char)) (range : Range) (expected : Nat) : Option Diagnostic := do
  let blanks ← textIn? lines range
  let width ←
    if blanks.any (· != ' ') then some 0 else sub? range.stop.character range.start.character
  let found := received blanks width
  some (warn .padding range s!"Expected {expected} spaces, received {found}" (spaces expected))

/-- The gap in front of a separator on its line. -/
def gapBefore? (lines : List (List Char)) (before current : Token) : Option (List Diagnostic) :=
  if before.range.stop.line = current.range.start.line &&
      before.range.stop != current.range.start then
    (gap? lines ⟨before.range.stop, current.range.start⟩ 0).map ([·])
  else some []

/-- The gap behind a separator on its line. -/
def gapAfter? (lines : List (List Char)) (current after : Token) : Option (List Diagnostic) :=
  if after.range.start.line = current.range.start.line then do
    let column ← word? (current.range.stop.character + 1)
    if after.range.start.character != column then
      (gap? lines ⟨current.range.stop, after.range.start⟩ 1).map ([·])
    else some []
  else some []

/-- The gaps around a separator on its line. -/
def gapsAround? (lines : List (List Char)) (before current after : Token) :
    Option (List Diagnostic) := do
  let front ← gapBefore? lines before current
  let back ← gapAfter? lines current after
  some (front ++ back)

/-- No space before a separator and one after it. -/
def padding? (lines : List (List Char)) : List Token → Option (List Diagnostic)
  | before :: current :: after :: rest => do
    let found ← if isSeparator current then gapsAround? lines before current after else some []
    let more ← padding? lines (current :: after :: rest)
    some (found ++ more)
  | _ => some []

/-- The offset of a column on a line fits. -/
theorem byteOffset?_eq {column units : Nat} {line : List Char}
    (h : units + units16 line < UInt32.size) :
    byteOffset? column units line = some (byteOffset line (column - units)) := by
  induction line generalizing units with
  | nil => rfl
  | cons c line ih =>
    rw [units16_cons, ← Nat.add_assoc] at h
    rw [byteOffset?]
    split
    next hle =>
      rw [Nat.sub_eq_zero_of_le hle]
      rfl
    next hlt =>
      obtain ⟨n, hn⟩ : ∃ n, column - units = n + 1 := ⟨column - units - 1, by omega⟩
      have hrest : column - (units + unitWidth c) = n + 1 - unitWidth c := by omega
      rw [word?_of_lt (by omega), hn]
      simp [ih h, hrest, byteOffset, columnPrefix]

/-- The text of a range is found. -/
theorem textIn?_eq {lines : List (List Char)} (h : ∀ line ∈ lines, units16 line < UInt32.size)
    (range : Range) : textIn? lines range = some (textIn lines range) := by
  unfold textIn? textIn
  split
  next hnone => simp [hnone, columnPrefix]
  next line hline =>
    have hunits : 0 + units16 line < UInt32.size := by
      rw [Nat.zero_add]
      exact h line (mem_of_getElem? hline)
    have hcut : ∀ column, columnPrefix line column =
        line.take (columnPrefix line column).length := fun column =>
      prefix_iff_eq_take.1 (columnPrefix_starts_line line column)
    rw [byteOffset?_eq hunits, byteOffset?_eq hunits, getD_eq_getElem?_getD, hline]
    simp only [Option.bind_eq_bind, Option.bind_some, Nat.sub_zero, byteOffset,
      Option.getD_some]
    generalize hm : (columnPrefix line range.start.character).length = m
    generalize hn : (columnPrefix line range.stop.character).length = n
    have hstart := hcut range.start.character
    have hstop := hcut range.stop.character
    rw [hm] at hstart
    rw [hn] at hstop
    rw [hstart, hstop, max_bytes_take, slice?_take line (le_max_left m n),
      Option.getD_some, drop_take]
    -- if the columns are in the wrong order, both sides are empty
    rcases le_total m n with hle | hle
    · rw [max_eq_right hle]
    · rw [max_eq_left hle, Nat.sub_self, Nat.sub_eq_zero_of_le hle]

/-- The check of a gap fits. -/
theorem gap?_eq {lines : List (List Char)} (h : ∀ line ∈ lines, units16 line < UInt32.size)
    {range : Range} (hrange : range.start.character ≤ range.stop.character) (expected : Nat) :
    gap? lines range expected = some (gap lines range expected) := by
  unfold gap? gap
  rw [textIn?_eq h, sub?_of_le hrange]
  simp only [Option.bind_eq_bind, Option.bind_some, received]
  split <;> rfl

section

variable {lines : List (List Char)} (h : ∀ line ∈ lines, units16 line < UInt32.size)
  {before current after : Token}
include h

theorem gapBefore?_eq (hbefore : before.range.stop ≤ current.range.start) :
    gapBefore? lines before current =
      some (if before.range.stop.line = current.range.start.line &&
          before.range.stop != current.range.start then
        [gap lines ⟨before.range.stop, current.range.start⟩ 0] else []) := by
  rw [Position.le_def] at hbefore
  unfold gapBefore?
  split
  next hgap =>
    simp only [Bool.and_eq_true, decide_eq_true_eq] at hgap
    rw [gap?_eq h (by dsimp only; omega), Option.map_some]
  next => rfl

theorem gapAfter?_eq (hafter : current.range.stop ≤ after.range.start)
    (hline : current.range.stop.line = current.range.start.line)
    (hcolumn : after.range.start.line = current.range.start.line →
      current.range.stop.character + 1 < UInt32.size) :
    gapAfter? lines current after =
      some (if after.range.start.line = current.range.start.line &&
          after.range.start.character != current.range.stop.character + 1 then
        [gap lines ⟨current.range.stop, after.range.start⟩ 1] else []) := by
  rw [Position.le_def] at hafter
  unfold gapAfter?
  by_cases hsame : after.range.start.line = current.range.start.line
  · simp only [hsame, if_true, word?_of_lt (hcolumn hsame), Option.bind_eq_bind, Option.bind_some,
      decide_true, Bool.true_and]
    split
    next => rw [gap?_eq h (by dsimp only; omega), Option.map_some]
    next => rfl
  · simp only [hsame, if_false, decide_false, Bool.false_and, Bool.false_eq_true]

/-- The check of all gaps fits. -/
theorem padding?_eq {ts : List Token}
    (hordered : ts.Pairwise fun a b => a.range.stop ≤ b.range.start)
    (honLine : ∀ t ∈ ts, t.range.stop.line = t.range.start.line ∧
      t.range.start.character < t.range.stop.character ∧ t.range.stop.character < UInt32.size) :
    padding? lines ts = some (padding lines ts) := by
  induction ts using padding.induct with
  | case1 before current after rest ih =>
    obtain ⟨hbefore, hordered⟩ := pairwise_cons.1 hordered
    obtain ⟨-, honRest⟩ := forall_mem_cons.1 honLine
    have hcurrent := honRest current mem_cons_self
    have hafter := honRest after (mem_cons_of_mem _ mem_cons_self)
    have hnext := rel_of_pairwise_cons hordered (mem_cons_self (a := after))
    -- the next token of the line is not empty, so there is a column behind the separator
    have hcolumn : after.range.start.line = current.range.start.line →
        current.range.stop.character + 1 < UInt32.size := by
      rw [Position.le_def] at hnext
      omega
    have hgaps : gapsAround? lines before current after =
        some (gapsAround lines before current after) := by
      rw [gapsAround?, gapBefore?_eq h (hbefore current mem_cons_self),
        gapAfter?_eq h hnext hcurrent.1 hcolumn]
      rfl
    rw [padding?, padding, hgaps, ih hordered honRest]
    split <;> rfl
  | case2 ts hts =>
    rw [padding?, padding]
    · exact hts
    · exact hts

end

/-! ### Rules on blocks -/

/-- Whether a token counts as an item of a block. -/
def isKept (t : Token) : Bool :=
  isVisible t && !isInvalid t

/-- The index of the last item behind an index, looked for backwards from some tokens on. It is the
index itself if there is no item. -/
def lastKept? (ts : List Token) (start : Nat) : Nat → Option Nat
  | 0 => some start
  | n + 1 => do
    let t ← ts[start + 1 + n]?
    if isKept t then some (start + 1 + n) else lastKept? ts start n

/-- The indices of the first item that is no comment and of the last comment in front of it, looked
for forwards among some tokens. Without such an item the first is the given end. -/
def firstKept? (ts : List Token) (close : Nat) : Nat → Nat → Nat → Option (Nat × Nat)
  | 0, _, anchor => some (anchor, close)
  | n + 1, i, anchor => do
    let t ← ts[i]?
    if !isKept t then firstKept? ts close n (i + 1) anchor
    else if t.isIgnored then firstKept? ts close n (i + 1) i
    else some (anchor, i)

/-- The last item of a block is not on the line of the closing bracket. -/
def breakBeforeClosing? (indent? : Position → Option Nat) (ts : List Token) (range : Range)
    (start close : Nat) : Option (List Diagnostic) := do
  let i ← lastKept? ts start (close - (start + 1))
  let last ← ts[i]?
  if start < i && last.range.stop.line = range.stop.line then
    let closing ← ts[close]?
    let indent ← indent? range.stop
    some [lineBreak ⟨last.range.stop, closing.range.start⟩ indent]
  else some []

/-- The first item of a block is not on the line of the opening bracket, though comments may be. -/
def breakAfterOpening? (indent? : Position → Option Nat) (ts : List Token) (range : Range)
    (start close : Nat) : Option (List Diagnostic) := do
  let found ← firstKept? ts close (close - (start + 1)) (start + 1) start
  let first ← ts[found.2]?
  if found.2 < close && first.range.start.line = range.start.line then
    let anchor ← ts[found.1]?
    let indent ← indent? first.range.start
    some [lineBreak ⟨anchor.range.stop, first.range.start⟩ indent]
  else some []

/-- The first and last items of a block that spans several lines have lines of their own. -/
def lineBreaks? (indent? : Position → Option Nat) (ts : List Token) (block : Block Data) :
    Option (List Diagnostic) :=
  if block.range.isMultiline && block.tokens.start + 2 ≤ block.tokens.stop then do
    let close ← sub? block.tokens.stop 1
    let before ← breakBeforeClosing? indent? ts block.range block.tokens.start close
    let after ← breakAfterOpening? indent? ts block.range block.tokens.start close
    some (before ++ after)
  else some []

variable {ts : List Token} {start close : Nat}

/-- What is between two brackets, as a part of the list. -/
theorem items_eq : items ts.toArray start close =
    ((ts.drop (start + 1)).take (close - (start + 1))).filter isKept := by
  rw [items, extract_toArray, extract_eq_take_drop]
  rfl

/-- The search from behind finds the last of the items. -/
theorem lastKept?_eq {n : Nat} (hn : start + 1 + n ≤ ts.length) :
    ∃ i, lastKept? ts start n = some i ∧
      (i = start ∧ ((ts.drop (start + 1)).take n).filter isKept = [] ∨
        start < i ∧ ∃ t, ts[i]? = some t ∧
          (((ts.drop (start + 1)).take n).filter isKept).getLast? = some t) := by
  induction n with
  | zero => exact ⟨start, rfl, .inl ⟨rfl, rfl⟩⟩
  | succ n ih =>
    obtain ⟨t, ht⟩ : ∃ t, ts[start + 1 + n]? = some t := ⟨_, getElem?_eq_getElem (by omega)⟩
    have htake : (ts.drop (start + 1)).take (n + 1) = (ts.drop (start + 1)).take n ++ [t] := by
      rw [take_add_one, getElem?_drop, ht]
      rfl
    rw [lastKept?, ht, Option.bind_eq_bind, Option.bind_some, htake, filter_append]
    cases hkept : isKept t with
    | true => exact ⟨start + 1 + n, rfl, .inr ⟨by omega, t, ht, by simp [hkept]⟩⟩
    | false => simpa [hkept] using ih (by omega)

/-- The search from the front passes the comments and finds the first of the other items. -/
theorem firstKept?_eq {n i anchor : Nat} (hn : i + n = close) (hclose : close < ts.length)
    {u : Token} (hu : ts[anchor]? = some u) :
    ∃ found, firstKept? ts close n i anchor = some found ∧
      ts[found.1]? =
        some (((((ts.drop i).take n).filter isKept).takeWhile Token.isIgnored).getLast?.getD u) ∧
      (found.2 = close ∧
          ((((ts.drop i).take n).filter isKept).dropWhile Token.isIgnored).head? = none ∨
        found.2 < close ∧ ∃ t, ts[found.2]? = some t ∧
          ((((ts.drop i).take n).filter isKept).dropWhile Token.isIgnored).head? = some t) := by
  induction n generalizing i anchor u with
  | zero => exact ⟨(anchor, close), rfl, by simpa using hu, .inl ⟨rfl, by simp⟩⟩
  | succ n ih =>
    obtain ⟨t, ht⟩ : ∃ t, ts[i]? = some t := ⟨_, getElem?_eq_getElem (by omega)⟩
    have htake : (ts.drop i).take (n + 1) = t :: (ts.drop (i + 1)).take n := by
      obtain ⟨hi, ht⟩ := List.getElem?_eq_some_iff.1 ht
      rw [drop_eq_getElem_cons hi, ht, take_succ_cons]
    rw [firstKept?, ht, Option.bind_eq_bind, Option.bind_some, htake]
    cases hkept : isKept t with
    | false => simpa [hkept] using ih (by omega) hu
    | true =>
      cases hignored : t.isIgnored with
      | true =>
        have hrest := ih (i := i + 1) (by omega) ht
        simpa [hkept, hignored, getLast?_cons] using hrest
      | false =>
        refine ⟨(anchor, i), rfl, ?_, .inr ⟨?_, t, ht, ?_⟩⟩
        · simpa [hkept, hignored] using hu
        · dsimp only
          omega
        · simp [hkept, hignored]

section

variable {indent? : Position → Option Nat} {indent : Position → Nat} {Fits : Position → Prop}
  {opening closing : Token} {range : Range}

/-- The break in front of a closing bracket fits if its indent does. -/
theorem exactly_breakBeforeClosing? (hindent : ∀ p, Exactly (Fits p) (indent? p) (indent p))
    (hlt : start < close) (hopening : ts[start]? = some opening)
    (hclosing : ts[close]? = some closing) :
    Exactly (∀ p ∈ closingAsks range (items ts.toArray start close), Fits p)
      (breakBeforeClosing? indent? ts range start close)
      (breakBeforeClosing indent range (items ts.toArray start close) closing) := by
  have hlength := (List.getElem?_eq_some_iff.1 hclosing).1
  obtain ⟨i, hi, hcases⟩ := @lastKept?_eq ts start (close - (start + 1)) (by omega)
  unfold breakBeforeClosing? breakBeforeClosing closingAsks
  rw [items_eq, hi, Option.bind_eq_bind, Option.bind_some]
  obtain ⟨rfl, hnone⟩ | ⟨hbehind, t, ht, hlast⟩ := hcases
  · simpa [hnone, hopening] using Exactly.of_eq rfl
  · simp only [ht, hlast, hclosing, hbehind, Option.bind_eq_bind, Option.bind_some, decide_true,
      Bool.true_and, Option.any_some, beq_iff_eq, decide_eq_true_eq]
    by_cases hline : t.range.stop.line = range.stop.line
    · simp only [hline, if_true, mem_singleton, forall_eq]
      exact (hindent range.stop).map _
    · simpa [hline] using Exactly.of_eq rfl

/-- The break behind an opening bracket fits if its indent does. -/
theorem exactly_breakAfterOpening? (hindent : ∀ p, Exactly (Fits p) (indent? p) (indent p))
    (hlt : start < close) (hopening : ts[start]? = some opening)
    (hclosing : ts[close]? = some closing) :
    Exactly (∀ p ∈ openingAsks range (items ts.toArray start close), Fits p)
      (breakAfterOpening? indent? ts range start close)
      (breakAfterOpening indent range opening (items ts.toArray start close)) := by
  have hlength := (List.getElem?_eq_some_iff.1 hclosing).1
  obtain ⟨found, hfound, hanchor, hcases⟩ :=
    firstKept?_eq (i := start + 1) (n := close - (start + 1))
    (by omega) hlength hopening
  unfold breakAfterOpening? breakAfterOpening openingAsks
  rw [items_eq, hfound, Option.bind_eq_bind, Option.bind_some]
  obtain ⟨heq, hnone⟩ | ⟨hfront, t, ht, hfirst⟩ := hcases
  · simpa [hnone, heq, hclosing] using Exactly.of_eq rfl
  · simp only [ht, hfirst, hanchor, hfront, Option.bind_eq_bind, Option.bind_some, decide_true,
      Bool.true_and, decide_eq_true_eq]
    by_cases hline : t.range.start.line = range.start.line
    · simpa [hline] using (hindent t.range.start).map _
    · simpa [hline] using Exactly.of_eq rfl

/-- The breaks of a block fit if their indents do. -/
theorem exactly_lineBreaks? (hindent : ∀ p, Exactly (Fits p) (indent? p) (indent p))
    {block : Block Data} (hblock : Enclosed ts block.contents.kind block.range block.tokens) :
    Exactly (∀ p ∈ blockAsks ts.toArray block, Fits p) (lineBreaks? indent? ts block)
      (lineBreaks indent ts.toArray block) := by
  obtain ⟨opening, hopening, -⟩ := hblock.start
  obtain ⟨closing, hclosing, -⟩ := hblock.stop
  have hlt := hblock.start_lt_last
  unfold lineBreaks? lineBreaks blockAsks
  have hwide : block.tokens.start + 2 ≤ block.tokens.stop := by omega
  simp only [getElem?_toArray, hopening, hclosing, hlt, hwide, decide_true, Bool.and_true,
    sub?_of_le (show 1 ≤ block.tokens.stop by omega), Option.bind_eq_bind, Option.bind_some]
  by_cases hlines : block.range.isMultiline = true
  · simp only [hlines, if_true, forall_mem_append]
    exact (exactly_breakBeforeClosing? hindent hlt hopening hclosing).bind
      ((exactly_breakAfterOpening? hindent hlt hopening hclosing).map _)
  · simpa [hlines] using Exactly.of_eq rfl

end

/-! ### All rules -/

/-- All that is found in a document that has data. -/
def lint? (settings : LayoutSettings) (lines : List (List Char)) (ts : List Token) (data : Data) :
    Option (List Diagnostic) := do
  let marks := StringLines.ofTokens lines.length ts
  let trailing ← collect? (fun x => trailingBlanks? marks.ends x.2 x.1) lines.zipIdx
  let indents ← collect? (fun x => indentation? (indentAt? settings data) marks.starts x.2 x.1)
    lines.zipIdx
  let gaps ← padding? lines (ts.filter isVisible)
  let breaks ← collect? (lineBreaks? (indentAt? settings data) ts) data.blocks
  some (trailing ++ indents ++ gaps ++ breaks)

end Layout.Checked

end TypedNotation
