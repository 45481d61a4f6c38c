import ExpiringCache.Admission
import ExpiringCache.Callback
import ExpiringCache.Entry
import ExpiringCache.Settings
import ExpiringCache.Stats
import ExpiringCache.Table
import ExpiringCache.Timer

/-!
# The state of a cache

Everything a cache holds between two steps of its work, and the changes that are made to it in
one go. Each change keeps the recorded total equal to the number of entries.
-/

namespace ExpiringCache

/-- What became of the owner's handle. -/
inductive Handle where
  /-- The owner uses the cache. -/
  | held
  /-- The owner has given the cache up, and an operation still runs on it. -/
  | givenUp
  /-- The cache is closed. -/
  | closed
deriving DecidableEq

structure Cache (ν η : Type) where
  settings : Settings η
  hosting : Hosting
  entries : Table Key (Entry ν η)
  stats : Stats
  nextGeneration : Nat
  /-- Handlers that may veto an eviction, in the order of their registration. -/
  expiring : List η
  /-- Handlers that are told of an eviction, in the order of their registration. -/
  expired : List η
  admission : Admission
  timer : Option Timer
  handle : Handle
deriving DecidableEq

namespace Cache

variable {ν η : Type}

def create (settings : Settings η) (hosting : Hosting) : Cache ν η where
  settings := settings
  hosting := hosting
  entries := .empty
  stats := .empty
  nextGeneration := 0
  expiring := []
  expired := []
  admission := .empty
  timer := none
  handle := .held

def count (f : Stats → Stats) (c : Cache ν η) : Cache ν η := { c with stats := f c.stats }

def find? (c : Cache ν η) (key : Key) : Option (Entry ν η) := c.entries.get? key

/-- The entry under `key`, if it is still the insertion `generation`. -/
def insertion? (c : Cache ν η) (key : Key) (generation : Nat) : Option (Entry ν η) :=
  (c.find? key).filter (·.generation = generation)

theorem insertion?_eq_some {c : Cache ν η} {key : Key} {generation : Nat} {e : Entry ν η} :
    c.insertion? key generation = some e ↔ c.find? key = some e ∧ e.generation = generation := by
  unfold insertion?
  rw [Option.filter_eq_some_iff]
  simp

/-- Stores a new insertion under `key`. -/
def insert (now : Instant) (key : Key) (value : ν) (policy : Option (Policy η))
    (c : Cache ν η) : Cache ν η :=
  let entries := c.entries.put key (.insertedAt now value policy c.nextGeneration)
  { c with
    entries := entries
    nextGeneration := c.nextGeneration + 1
    stats := c.stats.withTotal entries.size }

/-- Notes an access to the entry under `key`. -/
def touch (now : Instant) (key : Key) (c : Cache ν η) : Cache ν η :=
  { c with entries := c.entries.modify key (·.touch now) }

/-- Sets or clears the mark of one insertion; another insertion under the key is left alone. -/
def mark (pending : Bool) (key : Key) (generation : Nat) (c : Cache ν η) : Cache ν η :=
  { c with
    entries := c.entries.modify key fun e =>
      if e.generation = generation then { e with pending := pending } else e }

/-- Takes out the entry under `key` and counts it as `f` says. -/
def takeOut (key : Key) (f : Stats → Stats) (c : Cache ν η) : Cache ν η :=
  let entries := c.entries.erase key
  { c with entries := entries, stats := (f c.stats).withTotal entries.size }

theorem find?_insert (now : Instant) (key : Key) (value : ν) (policy : Option (Policy η))
    (c : Cache ν η) (j : Key) : (c.insert now key value policy).find? j =
      if j = key then some (.insertedAt now value policy c.nextGeneration) else c.find? j :=
  Table.get?_put ..

theorem find?_touch (now : Instant) (key : Key) (c : Cache ν η) (j : Key) :
    (c.touch now key).find? j = if j = key then (c.find? key).map (·.touch now) else c.find? j :=
  Table.get?_modify ..

theorem find?_mark (pending : Bool) (key : Key) (generation : Nat) (c : Cache ν η) (j : Key) :
    (c.mark pending key generation).find? j = if j = key then (c.find? key).map fun e =>
      if e.generation = generation then { e with pending := pending } else e else c.find? j :=
  Table.get?_modify ..

theorem find?_takeOut (key : Key) (f : Stats → Stats) (c : Cache ν η) (j : Key) :
    (c.takeOut key f).find? j = if j = key then none else c.find? j :=
  Table.get?_erase ..

section

variable {c : Cache ν η} {now : Instant} {key j : Key} {e : Entry ν η}

theorem find?_insert_eq_some {value : ν} {policy : Option (Policy η)} :
    (c.insert now key value policy).find? j = some e ↔
      j = key ∧ e = .insertedAt now value policy c.nextGeneration ∨
        j ≠ key ∧ c.find? j = some e := by
  rw [find?_insert]
  split <;> simp_all [eq_comm]

theorem find?_takeOut_eq_some {f : Stats → Stats} :
    (c.takeOut key f).find? j = some e ↔ j ≠ key ∧ c.find? j = some e := by
  rw [find?_takeOut]
  split <;> simp_all

theorem exists_of_find?_touch (h : (c.touch now key).find? j = some e) :
    ∃ old, c.find? j = some old ∧ (e = old ∨ j = key ∧ e = old.touch now) := by
  rw [find?_touch] at h
  split at h
  · rename_i hj
    obtain ⟨old, hold, rfl⟩ := Option.map_eq_some_iff.mp h
    exact ⟨old, hj ▸ hold, .inr ⟨hj, rfl⟩⟩
  · exact ⟨e, h, .inl rfl⟩

theorem exists_of_find?_mark {pending : Bool} {generation : Nat}
    (h : (c.mark pending key generation).find? j = some e) :
    ∃ old, c.find? j = some old ∧ ∃ marked, e = { old with pending := marked } := by
  rw [find?_mark] at h
  split at h
  · rename_i hj
    obtain ⟨old, hold, rfl⟩ := Option.map_eq_some_iff.mp h
    refine ⟨old, hj ▸ hold, ?_⟩
    split
    · exact ⟨pending, rfl⟩
    · exact ⟨old.pending, rfl⟩
  · exact ⟨e, h, e.pending, rfl⟩

end

/-- Takes out every entry. -/
def drain (c : Cache ν η) : Cache ν η :=
  { c with entries := .empty, stats := (c.stats.removed c.entries.size).withTotal 0 }

def setTimer (timer : Option Timer) (c : Cache ν η) : Cache ν η := { c with timer := timer }

def timerRunning (c : Cache ν η) : Bool := c.timer.any (·.isRunning)

/-- Starts the timer unless it is running. -/
def ensureTimer (c : Cache ν η) : Cache ν η :=
  if c.timerRunning then c else c.setTimer (some .starting)

/-- Some entry can expire, so the timer is needed. -/
def needsTimer (c : Cache ν η) : Bool := c.entries.rows.any (·.2.canExpire)

def giveUp (c : Cache ν η) : Cache ν η := { c with handle := .givenUp }

/-- The counters, with the number of entries as their total. -/
def snapshot (c : Cache ν η) : Stats := c.stats.withTotal c.entries.size

end Cache

end ExpiringCache
