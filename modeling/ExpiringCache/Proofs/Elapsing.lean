import ExpiringCache.Proofs.Schedules

/-!
# Time that passes under a punctual timer

The clock runs on to where a tick is due, the timer has its turn there, and the clock runs on. How far
it is let run in one go makes no difference: it stops at the ticks, and a timer that has had its turn
has nothing to do before the next of them.
-/

namespace ExpiringCache

variable {ν η μ α : Type}

/-- The tick that comes by `target`. -/
def Cache.tickBy? (target : Instant) (c : Cache ν η) : Option Instant :=
  match c.timer with
  | some (.waiting due) => if due ≤ target then some due else none
  | _ => none

def World.at (t : Instant) (w : World ν η μ) : World ν η μ := { w with now := t }

namespace Act

/-- The clock runs on to `target`. Wherever a tick is due the timer has its turn, at most `stops`
times. -/
def runOn (host : Host ν η μ) (bound : Nat) (target : Instant) : Nat → Act ν η μ Unit
  | 0 => throw .exhausted
  | stops + 1 => do
    settle host bound
    match (← cache).tickBy? target with
    | some due =>
      modify (·.at due)
      runOn host bound target stops
    | none => modify (·.at target)

/-- A span of time passes. There are no two ticks at one moment, so the stops suffice. -/
def elapse (host : Host ν η μ) (bound : Nat) (span : Span) : Act ν η μ Unit := do
  let start ← now
  let target := start.advance span
  runOn host bound target ((target.nanos - start.nanos).toNat + 1)

variable {host : Host ν η μ} {bound : Nat} {w v : World ν η μ} {e : Halt} {target : Instant}
  {stops : Nat}

end Act

namespace Act

variable {host : Host ν η μ} (hstill : host.Still) {bound : Nat} {w v : World ν η μ}

include hstill

end Act

/-! ## Stops -/

namespace Act

variable {host : Host ν η μ} {bound : Nat} {w v : World ν η μ} {e : Halt} {target due : Instant}
  {stops : Nat}

variable (hstill : host.Still)

include hstill

end Act

/-- The owner gives up the cache after the first tick. -/
def World.dropped : World Nat String Unit :=
  (Act.attempt (Act.perform .reentrant 6 .drop)).after World.tickedOnce

end ExpiringCache
