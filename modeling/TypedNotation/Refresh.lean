import TypedNotation.Settings

/-!
# Refresh timers

After a change, a whole workspace is looked at again, but not at once: the first change starts two
timers. When the short one runs out, the workspace is refreshed. Changes that come while only the
long one is running are remembered, and if there were any, it refreshes too when it runs out and
starts anew.

Nothing here reads a clock. Times are milliseconds after some start, handed in by the caller, who
asks `Refresh.nextDeadline` how long it may wait.
-/

namespace TypedNotation

/-- The timers of a workspace. -/
structure Refresh where
  settings : RefreshSettings := {}
  /-- When the short timer runs out. -/
  short : Option Nat := none
  /-- When the long timer runs out. -/
  long : Option Nat := none
  /-- Whether a change came while only the long timer was running. -/
  again : Bool := false
  deriving DecidableEq, Inhabited

namespace Refresh

/-- Whether a timer has run out. -/
def isDue (deadline : Option Nat) (now : Nat) : Bool :=
  deadline.any (· ≤ now)

/-- Asks for a refresh. -/
def schedule (r : Refresh) (now : Nat) : Refresh :=
  match r.short, r.long with
  | some _, _ => r
  | none, some _ => { r with again := true }
  | none, none =>
    { r with
      short := some (now + r.settings.initialDelay)
      long := some (now + r.settings.repeatDelay) }

/-- Ends the short timer if it has run out. -/
def pollShort (r : Refresh) (now : Nat) : Bool × Refresh :=
  if isDue r.short now then (true, { r with short := none }) else (false, r)

/-- Ends the long timer if it has run out, or starts it anew. -/
def pollLong (r : Refresh) (now : Nat) : Bool × Refresh :=
  if isDue r.long now then
    if r.again then (true, { r with again := false, long := some (now + r.settings.repeatDelay) })
    else (false, { r with long := none })
  else (false, r)

/-- Whether it is time for a refresh, and the timers after that. -/
def poll (r : Refresh) (now : Nat) : Bool × Refresh :=
  let (short, r) := r.pollShort now
  let (long, r) := r.pollLong now
  (short || long, r)

/-- The first time at which a timer runs out. -/
def nextDeadline (r : Refresh) : Option Nat :=
  match r.short, r.long with
  | some a, some b => some (min a b)
  | a, b => a.or b

/-- Whether no timer is running. -/
def isIdle (r : Refresh) : Bool :=
  r.nextDeadline.isNone

end Refresh

end TypedNotation
