import ExpiringCache.Time.Instant

/-!
# Moments of the wall clock

A calendar can name the moments from the year -262143 to the year 262142. They are kept as
nanoseconds from the wall clock's own time zero, 2024-01-01T00:00:00Z, at which the steady clock
reads zero too. The time left until a moment is never negative and always a span: the whole
calendar is shorter than the longest span.
-/

namespace ExpiringCache

/-- Seconds from the start of 1970 to the wall clock's time zero. -/
abbrev epochSeconds : Int := 1704067200

/-- A moment of the calendar, in nanoseconds from the wall clock's time zero. -/
structure Wall where
  nanos : Int
  first_le : (-8334601228800 - epochSeconds) * nanosPerSecond ≤ nanos
  lt_end : nanos < (8210266876800 - epochSeconds) * nanosPerSecond
deriving DecidableEq

namespace Wall

def first : Wall := ⟨(-8334601228800 - epochSeconds) * nanosPerSecond, by decide, by decide⟩

def last : Wall := ⟨(8210266876800 - epochSeconds) * nanosPerSecond - 1, by decide, by decide⟩

/-- The moment `n` nanoseconds after the wall clock's time zero, if the calendar has it. -/
def ofNanos? (n : Int) : Option Wall :=
  if h : (-8334601228800 - epochSeconds) * nanosPerSecond ≤ n ∧
      n < (8210266876800 - epochSeconds) * nanosPerSecond then
    some ⟨n, h.1, h.2⟩
  else none

/-- What the wall clock reads when the steady clock reads `t`: both move together, up to the end of
the calendar. -/
def reading (t : Instant) : Wall := (ofNanos? t.nanos).getD last

/-- The time left from `now` until `deadline`, zero once it has passed. -/
def remaining (deadline now : Wall) : Span :=
  ⟨(deadline.nanos - now.nanos).toNat, by
    have h1 := deadline.lt_end
    have h2 := now.first_le
    simp only [nanosPerSecond, epochSeconds, UInt64.size] at *
    omega⟩

end Wall

end ExpiringCache
