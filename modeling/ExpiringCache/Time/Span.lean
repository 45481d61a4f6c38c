/-!
# Spans of time

A span is a whole number of nanoseconds between zero and the longest span, which is
`2 ^ 64 - 1` seconds and 999999999 nanoseconds. The bound is part of the type, so a sum that
needs it finds it there.
-/

namespace ExpiringCache

abbrev nanosPerSecond : Nat := 1000000000
abbrev nanosPerMilli : Nat := 1000000
abbrev nanosPerMicro : Nat := 1000

/-- A length of time in nanoseconds. -/
structure Span where
  nanos : Nat
  le_longest : nanos < UInt64.size * nanosPerSecond
deriving DecidableEq

namespace Span

theorem ext_nanos {a b : Span} (h : a.nanos = b.nanos) : a = b := by
  cases a; cases b; cases h; rfl

def zero : Span := ⟨0, by decide⟩

def longest : Span := ⟨UInt64.size * nanosPerSecond - 1, by decide⟩

instance : Inhabited Span := ⟨zero⟩

/-- The span of `n` nanoseconds, if it is short enough to be one. -/
def ofNanos? (n : Nat) : Option Span :=
  if h : n < UInt64.size * nanosPerSecond then some ⟨n, h⟩ else none

/-- Every number of milliseconds that fits 64 bits is a span. -/
def ofMillis (n : UInt64) : Span :=
  ⟨n.toNat * nanosPerMilli, by
    have := n.toNat_lt
    simp only [nanosPerMilli, nanosPerSecond, UInt64.size]
    omega⟩

theorem ofMillis_eq_zero_iff (n : UInt64) : ofMillis n = zero ↔ n = 0 := by
  constructor
  · intro h
    have h0 : n.toNat * nanosPerMilli = 0 := congrArg nanos h
    simp only [nanosPerMilli] at h0
    exact UInt64.toNat_inj.mp (by simp; omega)
  · rintro rfl
    rfl

end Span

end ExpiringCache
