import ExpiringCache.Time.Instant

/-!
# The expiration timer

The timer is started by the first entry that can expire and ticks once per interval, the first
time one whole interval after it began. A tick that is late by no more than the tolerance keeps
the schedule; a later one starts a new schedule from the moment it came. On a thread of its own
the timer only runs: nothing here lets it reach its interval.
-/

namespace ExpiringCache

/-- Where a timer lives. -/
inductive Hosting where
  | task
  | thread
deriving DecidableEq

inductive Timer where
  /-- Started, but its task has not begun. -/
  | starting
  /-- The next tick is due at this instant. -/
  | waiting (due : Instant)
  /-- Its task has come to an end. -/
  | ended
deriving DecidableEq

namespace Timer

def isRunning : Timer → Bool
  | ended => false
  | _ => true

/-- How late a tick may be without losing the schedule. -/
def tolerance : Int := 5 * nanosPerMilli

/-- Thirty years of three hundred and sixty-five days: a due time that stands for never. -/
def farAway : Span := ⟨30 * 365 * 86400 * nanosPerSecond, by decide⟩

/-- The schedule of a task that begins at `now`; without a first tick the task comes to an end. -/
def begin (interval : Span) (now : Instant) : Timer :=
  match now.plus? interval with
  | some due => .waiting due
  | none => .ended

/-- The schedule after a tick that was due at `due` and came at `now`. -/
def next (interval : Span) (due now : Instant) : Timer :=
  if due.nanos + tolerance < now.nanos then begin interval now
  else
    match due.plus? interval with
    | some later => .waiting later
    | none => .waiting (now.advance farAway)

end Timer

end ExpiringCache
