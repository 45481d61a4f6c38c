import ExpiringCache.Policy
import ExpiringCache.Time.Text

/-!
# Deadlines of the wall clock

A wall deadline becomes one of the steady clock in three steps, and each of them could go wrong: the
difference to the present moment is signed, its conversion to a span is not, and the sum with the
steady clock's reading may leave its range. Moments are kept as seconds and nanoseconds, so the
difference may borrow a second and the sum may carry one.

What signed differences are kept in is left open: a `Calendar` is any way to take them and to turn
them into spans, exact as far as its range goes. `Calendar.fieldwise` is the one that keeps seconds
and nanoseconds.
-/

namespace ExpiringCache

namespace Instant

/-- The sum of a reading and a span, seconds to seconds and nanoseconds to nanoseconds. Either sum of
seconds is refused where it leaves 64 bits. -/
def fieldSum? (seconds nanos : Int) (s : Span) : Option (Int × Int) :=
  let whole := seconds + (s.nanos / nanosPerSecond : Nat)
  let rest := nanos + (s.nanos % nanosPerSecond : Nat)
  if reachSeconds ≤ whole then none
  else if rest < nanosPerSecond then some (whole, rest)
  else if reachSeconds ≤ whole + 1 then none
  else some (whole + 1, rest - nanosPerSecond)

theorem fields_unique {t : Instant} {seconds nanos : Int} (h0 : 0 ≤ nanos)
    (h1 : nanos < nanosPerSecond)
    (h : (seconds - originSeconds) * nanosPerSecond + nanos = t.nanos) :
    t.clockSeconds = seconds ∧ t.clockNanos = nanos := by
  have hb := t.clockNanos_bounds
  have hr := t.clock_reading
  simp only [nanosPerSecond, originSeconds] at *
  omega

theorem fieldSum?_eq_none {t : Instant} {s : Span}
    (h : fieldSum? t.clockSeconds t.clockNanos s = none) : t.plus? s = none := by
  have hb := t.clockNanos_bounds
  have hr := t.clock_reading
  rw [plus?_eq_none_iff]
  simp only [fieldSum?, last] at *
  grind

theorem fieldSum?_eq_some {t : Instant} {s : Span} {seconds nanos : Int}
    (h : fieldSum? t.clockSeconds t.clockNanos s = some (seconds, nanos)) :
    0 ≤ nanos ∧ nanos < nanosPerSecond ∧ seconds < reachSeconds ∧
      (seconds - originSeconds) * nanosPerSecond + nanos = t.nanos + s.nanos := by
  have hb := t.clockNanos_bounds
  have hr := t.clock_reading
  simp only [fieldSum?] at h
  simp only [nanosPerSecond, originSeconds, reachSeconds] at *
  split at h
  · cases h
  split at h
  · cases h
    omega
  split at h
  · cases h
  · cases h
    omega

/-- Carried from field to field, the sum is the one of the nanoseconds. -/
theorem fieldSum?_eq (t : Instant) (s : Span) :
    fieldSum? t.clockSeconds t.clockNanos s =
      (t.plus? s).map fun u => (u.clockSeconds, u.clockNanos) := by
  cases hf : fieldSum? t.clockSeconds t.clockNanos s with
  | none => rw [fieldSum?_eq_none hf, Option.map_none]
  | some p =>
    obtain ⟨h0, h1, h2, h3⟩ := fieldSum?_eq_some hf
    cases hp : t.plus? s with
    | none =>
      have hn := plus?_eq_none_iff.mp hp
      simp only [last, nanosPerSecond, originSeconds, reachSeconds] at *
      omega
    | some u =>
      have hu := fields_unique h0 h1 (h3.trans (plus?_eq_some_iff.mp hp).symm)
      rw [Option.map_some, hu.1, hu.2]

end Instant

/-- The milliseconds that a signed difference counts either way. -/
abbrev reachMillis : Int := 9223372036854775807

/-- A way to take signed differences of moments and to turn them into spans. -/
structure Calendar where
  Gap : Type
  nanos : Gap → Int
  since? : Wall → Wall → Option Gap
  toSpan? : Gap → Option Span

namespace Calendar

variable {η : Type} {C : Calendar}

/-- The policy of a wall deadline, step by step; there is none if the difference is out of reach. -/
def policy? (C : Calendar) (deadline wall : Wall) (now : Instant) : Option (Policy η) :=
  (C.since? deadline wall).map fun gap => .absolute (now.plus? ((C.toSpan? gap).getD .zero))

/-- A difference in seconds and nanoseconds, the latter counting upwards also where the former are
negative. -/
structure Fields where
  seconds : Int
  nanos : Int
  nonneg : 0 ≤ nanos
  lt_second : nanos < nanosPerSecond
  first_le : -(reachMillis * nanosPerMilli) ≤ seconds * nanosPerSecond + nanos
  le_last : seconds * nanosPerSecond + nanos ≤ reachMillis * nanosPerMilli

namespace Fields

def total (g : Fields) : Int := g.seconds * nanosPerSecond + g.nanos

/-- The difference of these seconds and nanoseconds, if it is within reach. -/
def of? (seconds nanos : Int) : Option Fields :=
  if h : (0 ≤ nanos ∧ nanos < nanosPerSecond) ∧
      -(reachMillis * nanosPerMilli) ≤ seconds * nanosPerSecond + nanos ∧
      seconds * nanosPerSecond + nanos ≤ reachMillis * nanosPerMilli then
    some ⟨seconds, nanos, h.1.1, h.1.2, h.2.1, h.2.2⟩
  else none

/-- Seconds from seconds and nanoseconds from nanoseconds, borrowing a second where the moment taken
away is further into its own. -/
def since? (a b : Wall) : Option Fields :=
  let seconds := a.nanos / nanosPerSecond - b.nanos / nanosPerSecond
  let nanos := a.nanos % nanosPerSecond - b.nanos % nanosPerSecond
  if nanos < 0 then of? (seconds - 1) (nanos + nanosPerSecond) else of? seconds nanos

def toSpan? (g : Fields) : Option Span :=
  if g.seconds < 0 then none
  else Span.ofNanos? (g.seconds.toNat * nanosPerSecond + g.nanos.toNat)

end Fields

end Calendar

namespace Wall

end Wall

namespace Policy

variable {η : Type} {deadline wall : Wall} {now t : Instant}

end Policy

end ExpiringCache
