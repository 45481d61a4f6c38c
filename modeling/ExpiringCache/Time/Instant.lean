import ExpiringCache.Time.Span

/-!
# Instants of the steady clock

The steady clock counts seconds from its own origin in a signed 64-bit number, with a count of
nanoseconds below one second beside it. Instants are kept here as nanoseconds from time zero,
which lies `originSeconds` after that origin. A sum past the last instant does not exist: it
never wraps and never stops at the end of the range.
-/

namespace ExpiringCache

/-- Seconds from the clock's origin to time zero. -/
abbrev originSeconds : Int := 1000000000

/-- The seconds that the clock counts from its origin either way, two to the power of 63. -/
abbrev reachSeconds : Int := 9223372036854775808

/-- A moment of the steady clock, in nanoseconds from time zero. -/
structure Instant where
  nanos : Int
  first_le : -(reachSeconds + originSeconds) * nanosPerSecond ≤ nanos
  lt_end : nanos < (reachSeconds - originSeconds) * nanosPerSecond
deriving DecidableEq

namespace Instant

theorem ext_nanos {a b : Instant} (h : a.nanos = b.nanos) : a = b := by
  cases a; cases b; cases h; rfl

def zero : Instant := ⟨0, by decide, by decide⟩

def last : Instant :=
  ⟨(reachSeconds - originSeconds) * nanosPerSecond - 1, by decide, by decide⟩

instance : Inhabited Instant := ⟨zero⟩

instance : LE Instant := ⟨fun a b => a.nanos ≤ b.nanos⟩

instance : LT Instant := ⟨fun a b => a.nanos < b.nanos⟩

instance (a b : Instant) : Decidable (a ≤ b) := inferInstanceAs (Decidable (a.nanos ≤ b.nanos))

instance (a b : Instant) : Decidable (a < b) := inferInstanceAs (Decidable (a.nanos < b.nanos))

theorem le_def {a b : Instant} : a ≤ b ↔ a.nanos ≤ b.nanos := Iff.rfl

theorem lt_def {a b : Instant} : a < b ↔ a.nanos < b.nanos := Iff.rfl

/-- The instant `n` nanoseconds after time zero, if the clock can name it. -/
def ofNanos? (n : Int) : Option Instant :=
  if h : -(reachSeconds + originSeconds) * nanosPerSecond ≤ n ∧
      n < (reachSeconds - originSeconds) * nanosPerSecond then
    some ⟨n, h.1, h.2⟩
  else none

/-- The instant `s` after `t`; there is none past the last instant. -/
def plus? (t : Instant) (s : Span) : Option Instant := ofNanos? (t.nanos + s.nanos)

theorem plus?_eq_some_iff {t u : Instant} {s : Span} :
    t.plus? s = some u ↔ u.nanos = t.nanos + s.nanos := by
  have h1 := t.first_le
  have h2 := u.lt_end
  constructor
  · intro h
    simp only [plus?, ofNanos?] at h
    split at h
    · cases h; rfl
    · cases h
  · intro h
    simp only [plus?, ofNanos?]
    rw [dif_pos ⟨by omega, by omega⟩]
    exact congrArg some (ext_nanos h.symm)

theorem plus?_eq_none_iff {t : Instant} {s : Span} :
    t.plus? s = none ↔ last.nanos < t.nanos + s.nanos := by
  have h1 := t.first_le
  simp only [plus?, ofNanos?, last]
  split
  · rename_i h
    simp only [reduceCtorEq, false_iff]
    omega
  · rename_i h
    simp only [true_iff]
    omega

/-- The reading of a clock at `t` after it ran for `s`; it stops at the last instant. -/
def advance (t : Instant) (s : Span) : Instant := (t.plus? s).getD last

theorem le_advance (t : Instant) (s : Span) : t ≤ t.advance s := by
  unfold advance
  cases h : t.plus? s with
  | none =>
    have h1 := t.lt_end
    rw [le_def, Option.getD_none]
    simp only [last]
    omega
  | some u =>
    have hu := plus?_eq_some_iff.mp h
    rw [le_def, Option.getD_some]
    omega

end Instant

end ExpiringCache
