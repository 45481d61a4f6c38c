import ExpiringCache.Time.Instant

/-!
# Written spans and instants

Two forms. The plain form gives seconds with exactly nine decimals, instants counted from time
zero and signed (`-0.005000000`). The unit form is for reading: a span in the largest of the
units s, ms, µs, ns that leaves a whole part, without trailing zeros (`1.5µs`, `100ms`, `0ns`).
-/

namespace ExpiringCache

/-- The decimal digits of `n`, with zeros in front up to `width`. -/
def zeroPadded (width n : Nat) : String :=
  let digits := toString n
  String.ofList (List.replicate (width - digits.length) '0') ++ digits

/-- Seconds with nine decimals. -/
def secondsText (nanos : Nat) : String :=
  toString (nanos / nanosPerSecond) ++ "." ++ zeroPadded 9 (nanos % nanosPerSecond)

namespace Span

def text (s : Span) : String := secondsText s.nanos

/-- The digits after the point, if any are left once trailing zeros are gone. -/
def fractionText (width part : Nat) : String :=
  let digits := (zeroPadded width part).toList.reverse.dropWhile (· == '0')
  if digits.isEmpty then "" else "." ++ String.ofList digits.reverse

/-- A span in its largest unit. -/
def unitText (s : Span) : String :=
  if nanosPerSecond ≤ s.nanos then
    toString (s.nanos / nanosPerSecond) ++ fractionText 9 (s.nanos % nanosPerSecond) ++ "s"
  else if nanosPerMilli ≤ s.nanos then
    toString (s.nanos / nanosPerMilli) ++ fractionText 6 (s.nanos % nanosPerMilli) ++ "ms"
  else if nanosPerMicro ≤ s.nanos then
    toString (s.nanos / nanosPerMicro) ++ fractionText 3 (s.nanos % nanosPerMicro) ++ "µs"
  else
    toString s.nanos ++ "ns"

end Span

namespace Instant

/-- Signed seconds from time zero. -/
def text (t : Instant) : String :=
  if t.nanos < 0 then "-" ++ secondsText t.nanos.natAbs else secondsText t.nanos.natAbs

/-- Whole seconds from the clock's origin, rounded down. -/
def clockSeconds (t : Instant) : Int := Int.fdiv t.nanos nanosPerSecond + originSeconds

/-- Nanoseconds past the whole second. -/
def clockNanos (t : Instant) : Int := Int.fmod t.nanos nanosPerSecond

theorem clockNanos_bounds (t : Instant) : 0 ≤ t.clockNanos ∧ t.clockNanos < nanosPerSecond :=
  ⟨Int.fmod_nonneg_of_pos _ (by decide), Int.fmod_lt_of_pos _ (by decide)⟩

theorem clock_reading (t : Instant) :
    (t.clockSeconds - originSeconds) * nanosPerSecond + t.clockNanos = t.nanos := by
  have h := Int.mul_fdiv_add_fmod t.nanos nanosPerSecond
  simp only [clockSeconds, clockNanos, nanosPerSecond] at *
  omega

/-- The clock's own reading, field by field. -/
def fieldText (t : Instant) : String :=
  "Instant \x7b tv_sec: " ++ toString t.clockSeconds ++ ", tv_nsec: " ++ toString t.clockNanos ++
    " \x7d"

end Instant

end ExpiringCache
