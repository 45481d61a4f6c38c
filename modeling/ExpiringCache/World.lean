import ExpiringCache.Cache
import ExpiringCache.Program

/-!
# Runs

A run works on a world: the clock, the cache, the host's memory, the work in progress and the
journal of what has happened. Work can stop early, most of the time because a callback panicked;
the world is kept as it is then, and brackets undo what they did at their start on every way out.
Nothing reads the journal: each of its lines keeps what the clock, the work in progress and the
cache were when it was written.

A run is the work of one thread: what takes a lock is one step of it. Callers on several threads are
told of by their single steps, where slots and fetches are the subject. Left out are what is logged
along the way and what the system can refuse: a timer that is started does start.
-/

namespace ExpiringCache

/-- Work in progress, innermost first. -/
inductive Activity (ν η : Type) where
  | operation (op : Operation ν η)
  /-- Handlers decide about one insertion. -/
  | deciding (key : Key) (generation : Nat)
  /-- Handlers are told that one insertion was evicted. -/
  | telling (key : Key) (generation : Nat)
  /-- The value of one insertion is handed over. -/
  | releasing (key : Key) (generation : Nat)
  | fetching (key : Key) (slot : Nat)
deriving DecidableEq

namespace Activity

variable {ν η : Type}

def isOperation : Activity ν η → Bool
  | operation _ => true
  | _ => false

end Activity

/-- How an insertion left the cache. -/
inductive Exit where
  | replaced
  | removed
  | cleared
  | expired
deriving DecidableEq

/-- What can happen in a run. -/
inductive Record (ν η : Type) where
  | entered (callback : Callback ν η)
  | returned (callback : Callback ν η) (answer : callback.Answer)
  /-- The callback panicked. -/
  | unwound (callback : Callback ν η)
  /-- A predicate was asked; `none` if it panicked. -/
  | consulted (predicate : η) (answer : Option Bool)
  | inserted (generation : Nat) (key : Key) (value : ν)
  | left (generation : Nat) (key : Key) (value : ν) (exit : Exit)
  /-- The handlers begin to be asked whether the insertion may be evicted. -/
  | offered (generation : Nat) (key : Key) (value : ν) (policy : Policy η)
  /-- All of them have answered. -/
  | decided (generation : Nat) (key : Key) (value : ν) (answers : List Decision)
  /-- The handlers begin to be told that the insertion was evicted. -/
  | announced (generation : Nat) (key : Key) (value : ν) (initial : Disposal)
  /-- All of them have been told. -/
  | disposed (generation : Nat) (key : Key) (final : Disposal)
  /-- A read ended. -/
  | read (key : Key) (found : Bool)
  /-- A read starts over. -/
  | retried (key : Key)
  /-- An operation ended, be it in a panic. -/
  | finished (op : Operation ν η)

structure Line (ν η : Type) where
  record : Record ν η
  now : Instant
  calls : List (Activity ν η)
  cache : Cache ν η

structure World (ν η μ : Type) where
  now : Instant
  cache : Cache ν η
  memory : μ
  calls : List (Activity ν η)
  /-- Newest first. -/
  journal : List (Line ν η)

/-- Why work stopped early. -/
inductive Halt where
  | panic (message : String)
  /-- The bound on nested callbacks and on retries was reached. -/
  | exhausted
deriving DecidableEq

abbrev Act (ν η μ : Type) := EStateM Halt (World ν η μ)

abbrev Invoke (ν η μ : Type) := (c : Callback ν η) → Act ν η μ c.Answer

namespace World

variable {ν η μ : Type}

def create (cache : Cache ν η) (memory : μ) : World ν η μ := ⟨.zero, cache, memory, [], []⟩

def change (f : Cache ν η → Cache ν η) (w : World ν η μ) : World ν η μ :=
  { w with cache := f w.cache }

def push (a : Activity ν η) (w : World ν η μ) : World ν η μ := { w with calls := a :: w.calls }

def pop (w : World ν η μ) : World ν η μ := { w with calls := w.calls.tail }

def note (r : Record ν η) (w : World ν η μ) : World ν η μ :=
  { w with journal := ⟨r, w.now, w.calls, w.cache⟩ :: w.journal }

def busy (w : World ν η μ) : Bool := w.calls.any (·.isOperation)

end World

namespace Act

variable {ν η μ α : Type}

def cache : Act ν η μ (Cache ν η) := do return (← get).cache

def change (f : Cache ν η → Cache ν η) : Act ν η μ Unit := modify (·.change f)

def note (r : Record ν η) : Act ν η μ Unit := modify (·.note r)

def now : Act ν η μ Instant := do return (← get).now

/-- Does `enter` first and `leave` last, however the work between them ends. -/
def bracket (enter leave : World ν η μ → World ν η μ) (work : Act ν η μ α) : Act ν η μ α := fun w =>
  match work (enter w) with
  | .ok a w => .ok a (leave w)
  | .error h w => .error h (leave w)

/-- Work during which `a` is in progress. -/
def during (a : Activity ν η) : Act ν η μ α → Act ν η μ α := bracket (·.push a) (·.pop)

/-- Catches a panic; the world stays as the panic left it. -/
def attempt (work : Act ν η μ α) : Act ν η μ (Except String α) := fun w =>
  match work w with
  | .ok a w => .ok (.ok a) w
  | .error (.panic message) w => .ok (.error message) w
  | .error .exhausted w => .error .exhausted w

/-- Goes on with a result that was caught. -/
def resume : Except String α → Act ν η μ α
  | .ok a => return a
  | .error message => throw (.panic message)

/-- Puts a question to one of the host's predicates. -/
def consult (host : Host ν η μ) (predicate : η) (now : Instant) : Act ν η μ Bool := fun w =>
  match host.consult predicate now w.memory with
  | (.ok b, m) => .ok b ({ w with memory := m }.note (.consulted predicate (some b)))
  | (.error message, m) =>
    .error (.panic message) ({ w with memory := m }.note (.consulted predicate none))

/-- Whether the entry is expired now. -/
def expired (host : Host ν η μ) (e : Entry ν η) : Act ν η μ Bool := do
  e.expired (consult host) (← now)

end Act

end ExpiringCache
