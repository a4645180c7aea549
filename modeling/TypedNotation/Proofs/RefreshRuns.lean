import Mathlib.Data.List.Induction
import Mathlib.Tactic.Common
import TypedNotation.Refresh

/-!
# Runs of the refresh timers

A caller asks for refreshes and polls, in any order, at times that never go back. A request is
*unserved* as long as no poll after it has fired. Whatever the two delays are,

* a request is unserved exactly if the short timer is running or a change was remembered, so a poll
  fires only for a request, and no request is lost;
* once the longer of the two delays has passed since an unserved request, every poll fires;
* a poll before the next deadline does nothing.

The state alone does not tell how old a request is. `Refresh.Owes` adds what has to be known: a
running timer ends at most one delay after the latest call, and the timer that will serve a request
ends at most one delay after that request. A remembered change rests on the long timer only, which
is running then.
-/

namespace TypedNotation

open List Refresh

namespace Refresh

/-! ### Calls and runs -/

/-- A call of the timers, with its time. -/
inductive Call where
  | schedule (time : Nat)
  | poll (time : Nat)
  deriving DecidableEq

/-- The time of a call. -/
def Call.time : Call → Nat
  | schedule t | poll t => t

/-- The timers after a call. -/
def after (r : Refresh) : Call → Refresh
  | .schedule t => r.schedule t
  | .poll t => (r.poll t).2

/-- The timers after some calls, from the start. -/
def run (settings : RefreshSettings) (calls : List Call) : Refresh :=
  calls.foldl after { settings }

/-- Whether a poll after some calls says that it is time for a refresh. -/
def Fires (settings : RefreshSettings) (calls : List Call) (time : Nat) : Prop :=
  ((run settings calls).poll time).1 = true

/-- Whether a request made at a time is unserved after some calls: none of the polls after it
fired. -/
def Unserved (settings : RefreshSettings) (calls : List Call) (s : Nat) : Prop :=
  ∃ before since, calls = before ++ .schedule s :: since ∧
    ∀ between t rest, since = between ++ .poll t :: rest →
      ¬ Fires settings (before ++ .schedule s :: between) t

/-- Whether a call is a poll that fires. -/
def Call.FiresAfter (settings : RefreshSettings) (calls : List Call) : Call → Prop
  | .schedule _ => False
  | .poll t => Fires settings calls t

@[simp] theorem run_nil (settings : RefreshSettings) : run settings [] = { settings } := rfl

@[simp] theorem run_concat (settings : RefreshSettings) (calls : List Call) (c : Call) :
    run settings (calls ++ [c]) = (run settings calls).after c := by
  rw [run, foldl_append]
  rfl

theorem not_unserved_nil (settings : RefreshSettings) (s : Nat) : ¬ Unserved settings [] s := by
  rintro ⟨before, since, h, -⟩
  simp at h

/-- A call adds a request, or serves all of them, or leaves them as they are. -/
theorem unserved_concat_iff {settings : RefreshSettings} {calls : List Call} {c : Call} {s : Nat} :
    Unserved settings (calls ++ [c]) s ↔
      c = .schedule s ∨ Unserved settings calls s ∧ ¬ c.FiresAfter settings calls := by
  constructor
  · rintro ⟨before, since, hsplit, hsince⟩
    rcases eq_nil_or_concat since with rfl | ⟨since, last, rfl⟩
    · left
      obtain ⟨-, hc⟩ := append_inj' hsplit rfl
      exact head_eq_of_cons_eq hc
    · right
      rw [concat_eq_append] at hsplit hsince
      have hsplit' : calls ++ [c] = (before ++ .schedule s :: since) ++ [last] := by
        rw [hsplit, append_assoc, cons_append]
      obtain ⟨rfl, hc⟩ := append_inj' hsplit' rfl
      obtain rfl : c = last := head_eq_of_cons_eq hc
      refine ⟨⟨before, since, rfl, fun between t rest h => ?_⟩, ?_⟩
      · exact hsince between t (rest ++ [c]) (by rw [h, append_assoc, cons_append])
      · cases c with
        | schedule t => exact not_false
        | poll t => exact hsince since t [] rfl
  · rintro (rfl | ⟨⟨before, since, rfl, hsince⟩, hc⟩)
    · exact ⟨calls, [], rfl, fun between t rest h => by simp at h⟩
    · refine ⟨before, since ++ [c], by rw [append_assoc, cons_append], ?_⟩
      intro between t rest h
      rcases eq_nil_or_concat rest with rfl | ⟨rest, last, rfl⟩
      · obtain ⟨rfl, hpoll⟩ := append_inj' h rfl
        obtain rfl : c = .poll t := head_eq_of_cons_eq hpoll
        exact hc
      · rw [concat_eq_append, ← cons_append, ← append_assoc] at h
        exact hsince between t rest (append_inj' h rfl).1

/-! ### What a poll does -/

/-- A poll fires when the short timer has run out, or the long one while a change is remembered. It
stops the timers that have run out, and starts the long one again if that one fired. -/
theorem poll_eq (r : Refresh) (t : Nat) :
    r.poll t =
      (isDue r.short t || (isDue r.long t && r.again),
        { r with
          short := if isDue r.short t then none else r.short
          long :=
            if isDue r.long t then if r.again then some (t + r.settings.repeatDelay) else none
            else r.long
          again := r.again && !isDue r.long t }) := by
  obtain ⟨settings, short, long, again⟩ := r
  cases hs : isDue short t <;> cases hl : isDue long t <;> cases again <;>
    simp [poll, pollShort, pollLong, hs, hl]

theorem isDue_iff {deadline : Option Nat} {t : Nat} :
    isDue deadline t = true ↔ ∃ d, deadline = some d ∧ d ≤ t := by
  cases deadline <;> simp [isDue]

/-- Before the next deadline no timer runs out. -/
theorem poll_of_lt_nextDeadline {r : Refresh} {t : Nat}
    (h : ∀ d, r.nextDeadline = some d → t < d) : r.poll t = (false, r) := by
  have hshort : isDue r.short t = false := by
    rw [Bool.eq_false_iff, Ne, isDue_iff]
    rintro ⟨d, hd, hle⟩
    cases hl : r.long with
    | none =>
      have := h d (by simp [nextDeadline, hd, hl])
      omega
    | some e =>
      have := h (min d e) (by simp [nextDeadline, hd, hl])
      omega
  have hlong : isDue r.long t = false := by
    rw [Bool.eq_false_iff, Ne, isDue_iff]
    rintro ⟨d, hd, hle⟩
    cases hs : r.short with
    | none =>
      have := h d (by simp [nextDeadline, hd, hs])
      omega
    | some e =>
      have := h (min e d) (by simp [nextDeadline, hd, hs])
      omega
  simp [poll_eq, hshort, hlong]

/-! ### The invariant -/

/-- What the timers owe to the requests that wait, at the time of the latest call. -/
structure Owes (r : Refresh) (now : Nat) (waiting : Nat → Prop) : Prop where
  /-- Some request waits exactly if the short timer is running or a change is remembered. -/
  pending : (∃ s, waiting s) ↔ r.short.isSome = true ∨ r.again = true
  /-- The short timer ends in time for the requests that wait, and for one that comes now. -/
  short_le : ∀ d, r.short = some d →
    d ≤ now + r.settings.initialDelay ∧ ∀ s, waiting s → d ≤ s + r.settings.initialDelay
  /-- The long timer ends in time for a request that comes now. -/
  long_le : ∀ d, r.long = some d → d ≤ now + r.settings.repeatDelay
  /-- A change is remembered only for the long timer, which ends in time for what waits. -/
  remembered : r.again = true →
    r.short = none ∧
      ∃ d, r.long = some d ∧ ∀ s, waiting s → d ≤ s + r.settings.repeatDelay

namespace Owes

variable {r : Refresh} {now t : Nat} {waiting : Nat → Prop}

theorem start (settings : RefreshSettings) (now : Nat) (h : ∀ s, ¬ waiting s) :
    Owes { settings } now waiting where
  pending := by simpa using h
  short_le := by simp
  long_le := by simp
  remembered := by simp

/-- As time goes by, no less is owed. -/
theorem mono (h : Owes r now waiting) (hle : now ≤ t) : Owes r t waiting where
  pending := h.pending
  short_le d hd :=
    ⟨Nat.le_trans (h.short_le d hd).1 (Nat.add_le_add_right hle _), (h.short_le d hd).2⟩
  long_le d hd := Nat.le_trans (h.long_le d hd) (Nat.add_le_add_right hle _)
  remembered := h.remembered

/-- A request at the present time waits too. -/
theorem schedule (h : Owes r now waiting) :
    Owes (r.schedule now) now fun s => s = now ∨ waiting s := by
  obtain ⟨settings, short, long, again⟩ := r
  cases short with
  | some d =>
    -- the short timer is running and serves this request too
    refine ⟨by simp [schedule], ?_, h.long_le, fun ha => ?_⟩
    · rintro d' hd'
      obtain ⟨hnow, hwait⟩ := h.short_le d' hd'
      exact ⟨hnow, by rintro s (rfl | hs); exacts [hnow, hwait s hs]⟩
    · exact absurd (h.remembered ha).1 (by simp)
  | none =>
    cases long with
    | some d =>
      -- the request is remembered; an earlier one can only have been remembered as well
      refine ⟨by simp [schedule], by simp [schedule], h.long_le,
        fun _ => ⟨rfl, d, rfl, ?_⟩⟩
      rintro s (rfl | hs)
      · exact h.long_le d rfl
      · have hagain : again = true := by simpa using h.pending.1 ⟨s, hs⟩
        obtain ⟨-, d', hd', hwait⟩ := h.remembered hagain
        obtain rfl : d = d' := by simpa using hd'
        exact hwait s hs
    | none =>
      -- nothing is running, so nothing waits
      have hagain : again = false := by
        rw [Bool.eq_false_iff]
        intro ha
        obtain ⟨-, d, hd, -⟩ := h.remembered ha
        simp at hd
      have hnone : ∀ s, ¬ waiting s := by
        intro s hs
        simpa [hagain] using h.pending.1 ⟨s, hs⟩
      refine ⟨by simp [schedule], ?_, ?_, ?_⟩
      · simp [schedule, hnone]
      · simp [schedule]
      · simp [schedule, hagain]

/-- A poll that fires serves all that waits. -/
theorem poll_of_fires (h : Owes r now waiting) (hfires : (r.poll now).1 = true) :
    Owes (r.poll now).2 now fun _ => False := by
  have hdue : isDue r.short now = true ∨ isDue r.long now = true ∧ r.again = true := by
    simpa [poll_eq] using hfires
  rw [poll_eq]
  have hagain : (r.again && !isDue r.long now) = false := by
    rcases hdue with hshort | ⟨hlong, -⟩
    · obtain ⟨d, hd, -⟩ := isDue_iff.1 hshort
      rw [Bool.and_eq_false_iff]
      left
      rw [Bool.eq_false_iff]
      intro ha
      simp [(h.remembered ha).1] at hd
    · simp [hlong]
  have hshort : (if isDue r.short now then none else r.short) = none := by
    rcases hdue with hshort | ⟨-, ha⟩
    · simp [hshort]
    · simp [(h.remembered ha).1]
  refine ⟨by simp [hshort, hagain], by simp [hshort], ?_, by simp [hagain]⟩
  intro d hd
  simp only at hd ⊢
  split at hd
  · split at hd
    · obtain rfl : now + r.settings.repeatDelay = d := by simpa using hd
      exact Nat.le_refl _
    · simp at hd
  · exact h.long_le d hd

/-- A poll that does not fire leaves what waits. -/
theorem poll_of_not_fires (h : Owes r now waiting) (hfires : (r.poll now).1 = false) :
    Owes (r.poll now).2 now waiting := by
  obtain ⟨hshort, hlong⟩ :
      isDue r.short now = false ∧ (isDue r.long now = true → r.again = false) := by
    simpa [poll_eq] using hfires
  rw [poll_eq]
  have hagain : (r.again && !isDue r.long now) = r.again := by
    cases hl : isDue r.long now with
    | false => simp
    | true => simp [hlong hl]
  refine ⟨by simpa [hshort, hagain] using h.pending, by simpa [hshort] using h.short_le, ?_, ?_⟩
  · intro d hd
    simp only at hd ⊢
    split at hd
    next hl => simp [hlong hl] at hd
    next => exact h.long_le d hd
  · intro ha
    have ha' : r.again = true := by rwa [hagain] at ha
    have hl : isDue r.long now = false := by
      rw [Bool.eq_false_iff]
      intro hl
      simp [hlong hl] at ha'
    simpa [hshort, hl] using h.remembered ha'

/-- Whatever waits is served by a poll once the longer of the delays has passed. -/
theorem fires (h : Owes r now waiting) {s : Nat} (hs : waiting s)
    (ht : s + max r.settings.initialDelay r.settings.repeatDelay ≤ t) : (r.poll t).1 = true := by
  have hdue : isDue r.short t = true ∨ isDue r.long t = true ∧ r.again = true := by
    rcases h.pending.1 ⟨s, hs⟩ with hshort | hagain
    · left
      obtain ⟨d, hd⟩ := Option.isSome_iff_exists.1 hshort
      have hle := (h.short_le d hd).2 s hs
      exact isDue_iff.2 ⟨d, hd, by omega⟩
    · right
      obtain ⟨-, d, hd, hwait⟩ := h.remembered hagain
      have hle := hwait s hs
      exact ⟨isDue_iff.2 ⟨d, hd, by omega⟩, hagain⟩
  simpa [poll_eq] using hdue

/-- A poll fires only if something waits. -/
theorem exists_of_fires (h : Owes r now waiting) (hfires : (r.poll t).1 = true) :
    ∃ s, waiting s := by
  have hdue : isDue r.short t = true ∨ isDue r.long t = true ∧ r.again = true := by
    simpa [poll_eq] using hfires
  refine h.pending.2 (hdue.imp (fun hshort => ?_) And.right)
  obtain ⟨d, hd, -⟩ := isDue_iff.1 hshort
  simp [hd]

end Owes

/-! ### Runs -/

/-- A call pays what it serves, and adds what it asks for. -/
theorem Owes.after {settings : RefreshSettings} {calls : List Call} {c : Call}
    (h : Owes (run settings calls) c.time (Unserved settings calls)) :
    Owes (run settings (calls ++ [c])) c.time (Unserved settings (calls ++ [c])) := by
  have hwaiting : Unserved settings (calls ++ [c]) = fun s =>
      c = .schedule s ∨ Unserved settings calls s ∧ ¬ c.FiresAfter settings calls :=
    funext fun s => propext unserved_concat_iff
  rw [run_concat, hwaiting]
  cases c with
  | schedule t =>
    have hnew := h.schedule
    simpa [Refresh.after, Call.time, Call.FiresAfter, eq_comm] using hnew
  | poll t =>
    cases hfires : ((run settings calls).poll t).1 with
    | true =>
      have hpaid := h.poll_of_fires hfires
      simpa [Refresh.after, Call.time, Call.FiresAfter, Fires, hfires] using hpaid
    | false =>
      have hkept := h.poll_of_not_fires hfires
      simpa [Refresh.after, Call.time, Call.FiresAfter, Fires, hfires] using hkept

/-- After every run, the timers owe what is unserved. -/
theorem owes_run (settings : RefreshSettings) {calls : List Call}
    (h : (calls.map Call.time).Pairwise (· ≤ ·)) {now : Nat} (hnow : ∀ c ∈ calls, c.time ≤ now) :
    Owes (run settings calls) now (Unserved settings calls) := by
  induction calls using List.reverseRecOn generalizing now with
  | nil => exact .start settings now (not_unserved_nil settings)
  | append_singleton calls c ih =>
    rw [map_append, pairwise_append] at h
    obtain ⟨hcalls, -, hlast⟩ := h
    have hbefore : ∀ d ∈ calls, d.time ≤ c.time := fun d hd =>
      hlast d.time (mem_map_of_mem hd) c.time (by simp)
    exact ((ih hcalls hbefore).after).mono (hnow c (by simp))

theorem settings_after (r : Refresh) (c : Call) : (r.after c).settings = r.settings := by
  cases c with
  | schedule t =>
    rw [after, schedule]
    split <;> rfl
  | poll t => rw [after, poll_eq]

theorem settings_run (settings : RefreshSettings) (calls : List Call) :
    (run settings calls).settings = settings := by
  induction calls using List.reverseRecOn with
  | nil => rfl
  | append_singleton calls c ih => rw [run_concat, settings_after, ih]

/-- **No refresh is lost and none is spurious.** After every run whose times never go back, whatever
the delays: some request is unserved exactly if the short timer is running or a change is
remembered, and a poll that fires serves such a request; a poll fires once the longer of the delays
has passed since an unserved request; and a poll before the next deadline does nothing. -/
theorem requests_are_served (settings : RefreshSettings) (calls : List Call)
    (h : (calls.map Call.time).Pairwise (· ≤ ·)) :
    let r := run settings calls
    ((∃ s, Unserved settings calls s) ↔ r.short.isSome = true ∨ r.again = true)
      ∧ (∀ t, (r.poll t).1 = true → ∃ s, Unserved settings calls s)
      ∧ (∀ s t, Unserved settings calls s →
          s + max settings.initialDelay settings.repeatDelay ≤ t → (r.poll t).1 = true)
      ∧ ∀ t, (∀ d, r.nextDeadline = some d → t < d) → r.poll t = (false, r) := by
  intro r
  obtain ⟨now, hnow⟩ : ∃ now, ∀ c ∈ calls, c.time ≤ now :=
    ⟨(calls.map Call.time).max?.getD 0, fun c hc =>
      le_max?_getD_of_mem (mem_map_of_mem hc)⟩
  have howes : Owes r now (Unserved settings calls) := owes_run settings h hnow
  refine ⟨howes.pending, fun t ht => howes.exists_of_fires ht, fun s t hs ht => ?_,
    fun t ht => poll_of_lt_nextDeadline ht⟩
  exact howes.fires hs (by rwa [settings_run])

/-- Two requests share the short timer, a third comes while only the long one runs. It is
remembered, and the poll that fires for the long timer serves it. -/
theorem requests_are_served_of_bursts :
    let calls : List Call := [.schedule 0, .schedule 10, .poll 20, .schedule 100, .poll 499]
    (calls.map Call.time).Pairwise (· ≤ ·) ∧ (run {} calls).again = true
      ∧ Unserved {} calls 100 ∧ ((run {} calls).poll 600).1 = true := by
  intro calls
  have htimes : (calls.map Call.time).Pairwise (· ≤ ·) := by decide
  have hserved := requests_are_served {} calls htimes
  have hwaiting : Unserved {} calls 100 := by
    refine ⟨[.schedule 0, .schedule 10, .poll 20], [.poll 499], rfl, fun between t rest hrest => ?_⟩
    obtain ⟨rfl, rfl⟩ : between = [] ∧ t = 499 := by
      cases between <;> simp_all
    simp [Fires, run, after, schedule, poll, pollShort, pollLong, isDue]
  exact ⟨htimes, by decide, hwaiting, hserved.2.2.1 100 600 hwaiting (by decide)⟩

end Refresh

end TypedNotation
