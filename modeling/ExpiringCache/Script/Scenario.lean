import ExpiringCache.Engine.Session
import ExpiringCache.Script.Host
import ExpiringCache.Validator

/-!
# Scenarios

A scenario sets a cache up, with a scripted host, and takes steps on it at the top level. Each
step is reported together with the callbacks of the timer's ticks that followed it and with the
state of the cache after all that.
-/

namespace ExpiringCache.Script

structure Setup (ν : Type) where
  config : Config
  /-- In place of the configured interval. -/
  interval : Option Span
  /-- In place of the configured disposal. -/
  dispose : Option Bool
  defaultPolicy : Option (Plan (Step ν))
  release : Option (Plan (Step ν))
  validator : Validator
  hosting : Hosting

/-- The report of a top-level step. -/
structure Turn (ν : Type) where
  report : Report ν
  /-- The callbacks of the ticks after the step. -/
  ticks : List (Event ν)
  /-- The counters, and whether the timer runs; nothing once the cache is dropped. -/
  status : Option (Stats × Bool)

namespace Setup

variable {ν : Type}

/-- A cache with this configuration and no functions of the host. -/
def plain (config : Config) (hosting : Hosting) : Setup ν :=
  ⟨config, none, none, none, none, .all, hosting⟩

/-- Sets up the counters of an optional plan and names it. -/
def hook (plan : Option (Plan (Step ν))) (m : Memory ν) : Option (Hook ν) × Memory ν :=
  match plan with
  | none => (none, m)
  | some plan =>
    let (cell, m) := m.allocate plan.rules.length
    (some (.silent plan cell), m)

/-- The settings, and the memory in which their counters are set up. -/
def settings (s : Setup ν) : Settings (Hook ν) × Memory ν :=
  let (defaultPolicy, m) := hook s.defaultPolicy .empty
  let (release, m) := hook s.release m
  ({ interval := s.interval.getD s.config.interval
     dispose := s.dispose.getD s.config.dispose
     defaultPolicy := defaultPolicy
     release := release }, m)

/-- The world at the start, unless the settings are refused. -/
def start (s : Setup ν) : Except CacheError (World ν (Hook ν) (Memory ν)) := do
  let (settings, m) := s.settings
  return .create (.create (← settings.checked) s.hosting) m

end Setup

variable {ν : Type}

/-- More than the nesting, the retries or the ticks of any scenario. -/
def bound : Nat := 100000000

def status (c : Cache ν (Hook ν)) : Option (Stats × Bool) :=
  if c.handle = .held then some (c.snapshot, c.timerRunning) else none

/-- Takes one step at the top level. -/
def takeTurn (host : Host ν (Hook ν) (Memory ν)) (s : Step ν) :
    ExpiringCache.Act ν (Hook ν) (Memory ν) (Turn ν) := do
  let result ← Act.turn host bound s.report
  let ticks ← (collect []).run (Act.perform host bound)
  let report := match result with
    | .ok (report, _) => report
    | .error message => (.panicked message, [])
  return ⟨report, ticks, status (← Act.cache)⟩

/-- Plays a scenario; `integer?` reads a value as a number. -/
def play (integer? : ν → Option Int) (s : Setup ν) (steps : List (Step ν)) :
    Except CacheError (Except Halt (List (Turn ν))) := do
  match (steps.mapM (takeTurn (host s.validator.accepts integer?))).run (← s.start) with
  | .ok turns _ => return .ok turns
  | .error halt _ => return .error halt

end ExpiringCache.Script
