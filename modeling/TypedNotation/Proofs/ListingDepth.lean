import Mathlib.Data.List.Chain
import Mathlib.Tactic.Common
import TypedNotation.Hover

/-!
# The depth of listings

A listing goes from a type to its parts and, by names, to types that may lead back to where it came
from, so it is the number of levels that ends it. A *task* is something to be listed with a number
of levels left, and `ListingTask.calls?` gives the tasks that it leads to; it fails where a level
would have to be taken from none. `ListingTask.lines?` carries tasks out, each with one call less to
spend than the one that it comes from, and fails if the calls run out.

A block and a name take one level, and what stands between them takes none. What one task can lead
to is said once (`ListingTask.Ready.step`), and two results are derived from it: enough calls, twice
as many as levels and one more, make the listing (`ListingTask.Ready.lines?_eq`), and the levels
taken along a branch and those left at its end are those of its start (`ListingTask.Ready.along`).
So every listing ends, and nothing is listed behind more levels than there are
(`ExpectedType.listing_ends_within_levels`).
-/

namespace TypedNotation

open List
open TypeSpec (Line bracketed prepend append missingLine)

/-- The types of the parts of a block. -/
def BlockSpec.parts : BlockSpec → List TypeSpec
  | dict fields => fields.map (·.2)
  | record value => [value]
  | array element => [element]
  | tuple elements => elements

/-- Something to be listed, with the number of levels that are left. -/
structure ListingTask where
  wanted : ExpectedType
  left : Nat

namespace ListingTask

/-! ### One task -/

/-- One level less, if there is one. -/
def oneLess? : Nat → Option Nat
  | 0 => none
  | n + 1 => some n

/-- The tasks that a task leads to. A type without levels is elided. -/
def calls? (r : Resolver) : ListingTask → Option (List ListingTask)
  | ⟨.spec _, 0⟩ => some []
  | ⟨.spec (.primitive _), _⟩ | ⟨.spec .missing, _⟩ | ⟨.unit, _⟩ => some []
  | ⟨.spec (.block b), n⟩ => some [⟨.block b, n⟩]
  | ⟨.spec (.enum variants), n⟩ =>
    some (variants.map fun variant => ⟨variant.2.elim .unit .block, n⟩)
  | ⟨.spec (.ref name), n⟩ =>
    match r name with
    | .ok target => (oneLess? n).map fun m => [⟨.spec target, m⟩]
    | .error _ => some []
  | ⟨.block b, n⟩ => b.parts.mapM fun part => (oneLess? n).map fun m => ⟨.spec part, m⟩

/-- Lists of lines, each behind a label. -/
def labelled (labels : List String) (parts : List (List Line)) : List Line :=
  (List.zipWith (fun label => prepend (label ++ ": ")) labels parts).flatten

/-- The lines of a task, given those of the tasks that it leads to. -/
def assemble (parts : List (List Line)) : ListingTask → List Line
  | ⟨.spec _, 0⟩ => [{ text := " ... " }]
  | ⟨.spec (.primitive kind), _⟩ => [{ text := "#" ++ kind.name }]
  | ⟨.spec (.block _), _⟩ => parts.flatten
  | ⟨.spec (.enum variants), _⟩ =>
      bracketed "#enum \x7b" (labelled (variants.map (·.1)) parts) "\x7d"
  | ⟨.spec (.ref name), _⟩ => prepend ("@" ++ name ++ " ") (parts.headD [missingLine])
  | ⟨.spec .missing, _⟩ => [missingLine]
  | ⟨.block (.dict fields), _⟩ => bracketed "\x7b" (labelled (fields.map (·.1)) parts) "\x7d"
  | ⟨.block (.record _), _⟩ => bracketed "#record \x7b _:" parts.flatten "\x7d"
  | ⟨.block (.array _), _⟩ => append "[]" parts.flatten
  | ⟨.block (.tuple _), _⟩ => bracketed "#tuple (" parts.flatten ")"
  | ⟨.unit, _⟩ => [{ text := "#unit" }]

/-- The lines of a task, made with at most so many calls inside each other. -/
def lines? (r : Resolver) : Nat → ListingTask → Option (List Line)
  | 0, _ => none
  | calls + 1, t => do
    let tasks ← t.calls? r
    let parts ← tasks.mapM (lines? r calls)
    return t.assemble parts

/-- The lines that a listing has for a task. -/
def lines (r : Resolver) : ListingTask → List Line
  | ⟨.spec s, n⟩ => s.lines r n
  | ⟨.block b, n⟩ => TypeSpec.blockLines (TypeSpec.lines r (n - 1)) b
  | ⟨.unit, _⟩ => [{ text := "#unit" }]

/-- Whether a task takes a level: a block does, and a name that is looked up. -/
def opens (r : Resolver) : ListingTask → Bool
  | ⟨.block _, _⟩ => true
  | ⟨.spec (.ref name), _ + 1⟩ => (r name).toBool
  | _ => false

/-- Only a type can do without a level. -/
def Ready : ListingTask → Prop
  | ⟨.spec _, _⟩ => True
  | ⟨_, n⟩ => 0 < n

/-- The number of calls inside each other that a task may need. -/
def need : ListingTask → Nat
  | ⟨.spec _, n⟩ => 2 * n + 1
  | ⟨.block _, n⟩ => 2 * n
  | ⟨.unit, _⟩ => 1

variable {r : Resolver} {t : ListingTask}

theorem mapM_eq_some {α β : Type} {f : α → Option β} {g : α → β} {l : List α}
    (h : ∀ a ∈ l, f a = some (g a)) : l.mapM f = some (l.map g) := by
  induction l with
  | nil => rfl
  | cons a l ih =>
    rw [mapM_cons, h a mem_cons_self, ih fun b hb => h b (mem_cons_of_mem a hb)]
    rfl

theorem labelled_map {α : Type} (label : α → String) (part : α → List Line) (l : List α) :
    labelled (l.map label) (l.map part) = l.flatMap fun a =>
      prepend (label a ++ ": ") (part a) := by
  rw [labelled, zipWith_map, zipWith_self, flatMap_def]

/-- The lines of a block are assembled from those of its parts. -/
theorem assemble_block (part : TypeSpec → List Line) (b : BlockSpec) (n : Nat) :
    assemble (b.parts.map part) ⟨.block b, n⟩ = TypeSpec.blockLines part b := by
  cases b with
  | dict fields =>
    rw [BlockSpec.parts, map_map, assemble, labelled_map]
    rfl
  | record value | array element => simp [BlockSpec.parts, assemble, TypeSpec.blockLines]
  | tuple elements => simp [BlockSpec.parts, assemble, TypeSpec.blockLines, flatMap_def]

/-- **What a task leads to.** A task that has the level it needs always leads to some tasks, which
again have it. Their lines make its lines, they are left with what it does not take itself, and they
need fewer calls. -/
theorem Ready.step (h : t.Ready) :
    ∃ tasks, t.calls? r = some tasks ∧ t.assemble (tasks.map (·.lines r)) = t.lines r ∧
      ∀ c ∈ tasks, c.Ready ∧ (t.opens r).toNat + c.left = t.left ∧ c.need < t.need := by
  obtain ⟨wanted, left⟩ := t
  cases wanted with
  | unit => exact ⟨[], rfl, rfl, by simp⟩
  | block b =>
    obtain ⟨n, rfl⟩ : ∃ n, left = n + 1 := Nat.exists_eq_add_one.2 h
    refine ⟨b.parts.map fun part => ⟨.spec part, n⟩, mapM_eq_some fun part _ => rfl, ?_, ?_⟩
    · rw [map_map]
      exact assemble_block _ b (n + 1)
    · intro c hc
      obtain ⟨part, -, rfl⟩ := mem_map.1 hc
      exact ⟨trivial, Nat.add_comm 1 n, Nat.lt_succ_self _⟩
  | spec s =>
    cases left with
    | zero => exact ⟨[], by cases s <;> rfl, by cases s <;> rfl, by simp⟩
    | succ n =>
      cases s with
      | primitive kind | missing => exact ⟨[], rfl, rfl, by simp⟩
      | block b =>
        refine ⟨[⟨.block b, n + 1⟩], rfl, by simp [assemble, lines, TypeSpec.lines], ?_⟩
        simp [Ready, opens, need]
      | enum variants =>
        refine ⟨_, rfl, ?_, ?_⟩
        · rw [map_map]
          refine congrArg (bracketed "#enum \x7b" · "\x7d") ((labelled_map _ _ variants).trans ?_)
          refine flatMap_congr fun variant _ => congrArg (prepend (variant.1 ++ ": ")) ?_
          rcases variant with ⟨tag, _ | b⟩ <;> rfl
        · intro c hc
          obtain ⟨variant, -, rfl⟩ := mem_map.1 hc
          cases variant.2 <;> simp [Ready, opens, need]
      | ref name =>
        cases hname : r name with
        | ok target =>
          refine ⟨[⟨.spec target, n⟩], by simp [calls?, hname, oneLess?], ?_, ?_⟩
          · simp [assemble, lines, TypeSpec.lines, hname]
          · simp [Ready, opens, need, hname, Except.toBool, Nat.add_comm]
        | error issue =>
          exact ⟨[], by simp [calls?, hname], by simp [assemble, lines, TypeSpec.lines, hname],
            by simp⟩

/-! ### All tasks of a listing -/

theorem Ready.need_pos (h : t.Ready) : 0 < t.need := by
  obtain ⟨wanted, left⟩ := t
  cases wanted with
  | spec s => exact Nat.succ_pos _
  | block b => exact Nat.mul_pos (by decide) h
  | unit => exact Nat.one_pos

/-- With enough calls, a task is carried out, and its lines are those of the listing. -/
theorem Ready.lines?_eq (h : t.Ready) {calls : Nat} (hcalls : t.need ≤ calls) :
    t.lines? r calls = some (t.lines r) := by
  induction calls generalizing t with
  | zero => exact absurd (h.need_pos.trans_le hcalls) (by decide)
  | succ calls ih =>
    obtain ⟨tasks, htasks, hlines, hstep⟩ := h.step (r := r)
    have hparts : tasks.mapM (lines? r calls) = some (tasks.map (·.lines r)) := by
      refine mapM_eq_some fun c hc => ?_
      obtain ⟨hready, -, hneed⟩ := hstep c hc
      exact ih hready (by omega)
    simp only [lines?, htasks, hparts, hlines, Option.bind_eq_bind, Option.bind_some,
      Option.pure_def]

/-- A task leads to another one. -/
def Calls (r : Resolver) (t c : ListingTask) : Prop :=
  ∃ tasks, t.calls? r = some tasks ∧ c ∈ tasks

theorem Ready.of_calls (h : t.Ready) {c : ListingTask} (hc : Calls r t c) :
    c.Ready ∧ (t.opens r).toNat + c.left = t.left ∧ c.need < t.need := by
  obtain ⟨tasks, htasks, hmem⟩ := hc
  obtain ⟨tasks', htasks', -, hstep⟩ := h.step (r := r)
  rw [htasks] at htasks'
  obtain rfl := Option.some.inj htasks'
  exact hstep c hmem

/-- A task that takes a level has one. -/
theorem Ready.left_pos (h : t.Ready) (hopens : t.opens r = true) : 0 < t.left := by
  obtain ⟨wanted, left⟩ := t
  cases wanted with
  | block b => exact h
  | unit => cases hopens
  | spec s =>
    cases left with
    | zero => cases s <;> cases hopens
    | succ n => exact Nat.succ_pos n

/-- From the first task of a branch, each one leads to the next. -/
structure Branch (r : Resolver) (first : ListingTask) (front : List ListingTask)
    (last : ListingTask) :
    Prop where
  head : (front ++ [last]).head? = some first
  chain : (front ++ [last]).IsChain (Calls r)

/-- **Levels along a branch.** The tasks in front of the last one have taken what this one lacks of
the levels of the first. -/
theorem Ready.along (h : t.Ready) {front : List ListingTask} {last : ListingTask}
    (hbranch : Branch r t front last) :
    last.Ready ∧ front.countP (opens r) + last.left = t.left ∧ front.length < t.need := by
  induction front generalizing t with
  | nil =>
    obtain rfl : last = t := by simpa using hbranch.head
    exact ⟨h, by simp, h.need_pos⟩
  | cons first front ih =>
    obtain rfl : first = t := by simpa using hbranch.head
    obtain ⟨second, rest, hrest⟩ : ∃ second rest, front ++ [last] = second :: rest :=
      exists_cons_of_ne_nil (by simp)
    have hchain := hbranch.chain
    rw [cons_append, hrest, isChain_cons_cons] at hchain
    obtain ⟨hsecond, hleft, hneed⟩ := h.of_calls hchain.1
    obtain ⟨hlast, hlevels, hlength⟩ := ih hsecond ⟨by rw [hrest]; rfl, hrest ▸ hchain.2⟩
    have hfirst : (if first.opens r = true then 1 else 0) = (first.opens r).toNat := by
      cases first.opens r <;> rfl
    refine ⟨hlast, ?_, ?_⟩
    · rw [countP_cons, hfirst]
      omega
    · rw [length_cons]
      omega

/-- A task that is ready without a level is an elided type. -/
theorem Ready.elided (h : t.Ready) (hleft : t.left = 0) (r : Resolver) :
    (∃ s, t.wanted = .spec s) ∧ t.lines? r 1 = some [{ text := " ... " }] := by
  obtain ⟨wanted, left⟩ := t
  obtain rfl : left = 0 := hleft
  cases wanted with
  | spec s => exact ⟨⟨s, rfl⟩, by cases s <;> rfl⟩
  | block b | unit => exact absurd h (Nat.lt_irrefl 0)

end ListingTask

namespace ExpectedType

/-- The listing of what is wanted is the text of a task with all levels. -/
theorem listing_eq (r : Resolver) (e : ExpectedType) :
    e.listing r = TypeSpec.render (ListingTask.lines r ⟨e, TypeSpec.maxDepth⟩) := by
  cases e with
  | spec s => rfl
  | block b => rfl
  | unit => exact (by decide : "#unit" = TypeSpec.render [{ text := "#unit" }])

theorem ready_maxDepth (e : ExpectedType) : ListingTask.Ready ⟨e, TypeSpec.maxDepth⟩ := by
  cases e with
  | spec s => trivial
  | block b | unit => exact Nat.succ_pos 3

theorem need_maxDepth_le (e : ExpectedType) : ListingTask.need ⟨e, TypeSpec.maxDepth⟩ ≤ 9 := by
  cases e with
  | spec s => exact Nat.le_refl 9
  | block b => exact Nat.le_succ 8
  | unit => exact Nat.le_add_right 1 8

/-- **Every listing ends, within four levels.** Whatever the names lead to, the listing of a type, a
block or a unit is made by nine calls inside each other, in which no level is ever taken from none.
Along any branch at most four blocks or names are opened in at most nine tasks, and a task without a
level is a type behind exactly four of them, which is elided. -/
theorem listing_ends_within_levels (r : Resolver) (e : ExpectedType) :
    (∃ lines, (∀ calls, 9 ≤ calls → ListingTask.lines? r calls ⟨e, TypeSpec.maxDepth⟩ =
      some lines) ∧
        e.listing r = TypeSpec.render lines) ∧
      ∀ front last, ListingTask.Branch r ⟨e, TypeSpec.maxDepth⟩ front last →
        (∃ tasks, last.calls? r = some tasks) ∧ (front ++ [last]).length ≤ 9 ∧
          (front ++ [last]).countP (ListingTask.opens r) ≤ 4 ∧
          (last.left = 0 → front.countP (ListingTask.opens r) = 4 ∧ (∃ s, last.wanted = .spec s) ∧
            last.lines? r 1 = some [{ text := " ... " }]) := by
  refine ⟨⟨_, fun calls hcalls => ?_, e.listing_eq r⟩, fun front last hbranch => ?_⟩
  · exact e.ready_maxDepth.lines?_eq (e.need_maxDepth_le.trans hcalls)
  · obtain ⟨hlast, hlevels, hlength⟩ := e.ready_maxDepth.along hbranch
    have hneed := e.need_maxDepth_le
    have hmax : TypeSpec.maxDepth = 4 := rfl
    obtain ⟨tasks, htasks, -⟩ := hlast.step (r := r)
    simp only [hmax] at hlevels
    refine ⟨⟨tasks, htasks⟩, ?_, ?_, fun hleft => ⟨by omega, hlast.elided hleft r⟩⟩
    · rw [length_append, length_singleton]
      omega
    · rw [countP_append, countP_singleton]
      split
      next hopens =>
        have hpos := hlast.left_pos hopens
        omega
      next => omega

/-- A name that stands for itself. -/
theorem listing_ends_within_levels_of_loop :
    let r : Resolver := fun _ => .ok (.ref "A")
    let task (n : Nat) : ListingTask := ⟨.spec (.ref "A"), n⟩
    ListingTask.Branch r (task 4) [task 4, task 3, task 2, task 1] (task 0) ∧
      (task 0).lines? r 1 = some [{ text := " ... " }] ∧
      listing r (.spec (.ref "A")) = "@A @A @A @A  ... " := by
  intro r task
  have hcalls : ∀ n, ListingTask.Calls r (task (n + 1)) (task n) := fun n =>
    ⟨_, rfl, mem_singleton_self _⟩
  have hbranch : ListingTask.Branch r (task 4) [task 4, task 3, task 2, task 1] (task 0) :=
    ⟨rfl, by simp [hcalls]⟩
  obtain ⟨-, -, -, helided⟩ := (listing_ends_within_levels r (.spec (.ref "A"))).2 _ _ hbranch
  exact ⟨hbranch, (helided rfl).2.2, by decide +kernel⟩

end ExpectedType

end TypedNotation
