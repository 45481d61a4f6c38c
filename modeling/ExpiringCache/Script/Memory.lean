import ExpiringCache.Script.Basic
import ExpiringCache.Table

/-!
# The memory of a scripted host

Flags and policies by name, counters, and the events since they were last collected. Building a
policy reads the clock and, for a predicate, sets up its counter; whoever gets a copy of that
policy shares the counter.
-/

namespace ExpiringCache.Script

structure Memory (ν : Type) where
  flags : Table String Bool
  policies : Table String (Policy (Hook ν))
  cells : Array Nat
  /-- Newest first. -/
  events : List (Event ν)
  /-- How many factories have run. -/
  factories : Nat
  /-- How many values were handed over. -/
  releases : Nat

namespace Memory

variable {ν : Type}

def empty : Memory ν := ⟨.empty, .empty, #[], [], 0, 0⟩

instance : Inhabited (Memory ν) := ⟨empty⟩

def flag (m : Memory ν) (name : String) : Bool := (m.flags.get? name).getD false

def setFlag (name : String) (value : Bool) (m : Memory ν) : Memory ν :=
  { m with flags := m.flags.put name value }

def count (m : Memory ν) (cell : Nat) : Nat := m.cells.getD cell 0

def countUp (cell : Nat) (m : Memory ν) : Memory ν :=
  { m with cells := m.cells.setIfInBounds cell (m.count cell + 1) }

/-- Sets up `n` counters; the first of them has the number returned. -/
def allocate (n : Nat) (m : Memory ν) : Nat × Memory ν :=
  (m.cells.size, { m with cells := m.cells ++ Array.replicate n 0 })

def define (name : String) (policy : Policy (Hook ν)) (m : Memory ν) : Memory ν :=
  { m with policies := m.policies.put name policy }

/-- Writes down the end of a callback. -/
def log (e : Event ν) (m : Memory ν) : Memory ν :=
  { m with
    events := e :: m.events
    factories := if e.callback.isFactory then m.factories + 1 else m.factories
    releases := if e.callback.isRelease then m.releases + 1 else m.releases }

def withEvents (events : List (Event ν)) (m : Memory ν) : Memory ν := { m with events := events }

end Memory

variable {ν : Type}

/-- The `n`-th of the answers, or the last one once they are used up. -/
def seriesAnswer (answers : List Bool) (n : Nat) : Bool :=
  (answers[n]?.or answers.getLast?).getD false

/-- Puts a question whose counter is `cell`. -/
def Question.ask (cell : Nat) (now : Instant) (m : Memory ν) :
    Question → Except String Bool × Memory ν
  | .always b => (.ok b, m)
  | .flag name => (.ok (m.flag name), m)
  | .panicFlag name => (if m.flag name then .error "predicate failure" else .ok true, m)
  | .since moment => (.ok (moment ≤ now), m)
  | .before moment => (.ok (now < moment), m)
  | .series answers => (.ok (seriesAnswer answers (m.count cell)), m.countUp cell)

/-- Answers for a hook that stands for a predicate. -/
def Hook.consult (hook : Hook ν) (now : Instant) (m : Memory ν) :
    Except String Bool × Memory ν :=
  match hook with
  | .predicate question cell => question.ask cell now m
  | _ => (.ok false, m)

/-- Builds a policy at `now`. A name under which nothing is stored gives a policy that never
expires. -/
def Recipe.build (now : Instant) (m : Memory ν) : Recipe → Policy (Hook ν) × Memory ν
  | .absolute deadline => (.absoluteOn deadline, m)
  | .wall deadline => (.absoluteAt deadline (.reading now) now, m)
  | .sliding window => (.slidingFrom window now, m)
  | .duration life => (.durationFrom life now, m)
  | .givenAbsolute deadline => (.absolute deadline, m)
  | .givenSliding window deadline => (.sliding window deadline, m)
  | .givenDuration life deadline => (.duration life deadline, m)
  | .custom question =>
    let (cell, m) := m.allocate 1
    (.custom (.predicate question cell), m)
  | .named name => ((m.policies.get? name).getD (.absolute none), m)

end ExpiringCache.Script
