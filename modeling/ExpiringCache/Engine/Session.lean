import ExpiringCache.Engine.Run

/-!
# Sessions

At the top level the owner of a cache runs programs one after another, and after each the timer
catches up with the clock. A timer that was started since begins at the clock's reading; then the
ticks that are due run, the next one being scheduled before each; and if their callbacks moved the
clock, all this starts over. A tick that panics ends the timer's task.
-/

namespace ExpiringCache.Act

variable {ν η μ : Type} (host : Host ν η μ) (invoke : Invoke ν η μ)

/-- One tick, whose panic ends the timer unless the cache was closed meanwhile. -/
def guardedTick : Act ν η μ Unit := do
  match ← attempt (tick host invoke) with
  | .ok _ => return ()
  | .error _ => change fun c => c.setTimer (c.timer.map fun _ => .ended)

/-- Runs the ticks that are due at `moment`, at most `bound` turns. -/
def runDue (moment : Instant) : Nat → Act ν η μ Unit
  | 0 => throw .exhausted
  | bound + 1 => do
    let c ← cache
    match c.timer with
    | some .starting =>
      change (.setTimer (some (.begin c.settings.interval moment)))
      runDue moment bound
    | some (.waiting due) =>
      if due ≤ moment then
        change (.setTimer (some (.next c.settings.interval due moment)))
        guardedTick host invoke
        runDue moment bound
      else return ()
    | _ => return ()

/-- Lets the timer catch up with the clock. -/
def catchUp : Nat → Act ν η μ Unit
  | 0 => throw .exhausted
  | bound + 1 => do
    let moment ← now
    runDue host invoke moment bound
    if (← now) ≠ moment then catchUp bound

/-- The timer's part of a turn; on a thread of its own the timer never comes to its turn. -/
def settle (bound : Nat) : Act ν η μ Unit := do
  if (← cache).hosting = .task then catchUp host (call host bound) bound

/-- One turn of the owner: a program, and then the timer. -/
def turn {α : Type} (bound : Nat) (p : Program ν η μ α) : Act ν η μ (Except String α) := do
  let result ← attempt (p.run (perform host bound))
  settle host bound
  return result

end ExpiringCache.Act
