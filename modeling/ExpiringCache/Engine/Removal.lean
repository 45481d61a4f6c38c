import ExpiringCache.Engine.Disposal

/-!
# Removing

Entries that are removed, or cleared away all at once, raise no events; their values are disposed
of if the settings say so. A cache that is closed stops its timer and is cleared.
-/

namespace ExpiringCache.Act

variable {ν η μ : Type} (invoke : Invoke ν η μ)

/-- Takes out the entry under `key`; says whether there was one. -/
def remove (key : Key) : Act ν η μ Bool := do
  match (← cache).find? key with
  | none => return false
  | some e =>
    change (.takeOut key (.removed 1))
    note (.left e.generation key e.value .removed)
    releaseIfSet invoke key e
    return true

/-- Takes out every entry and returns the rows there were. -/
def takeAll : Act ν η μ (List (Key × Entry ν η)) := do
  let rows := (← cache).entries.rows
  change .drain
  rows.forM fun r => note (.left r.2.generation r.1 r.2.value .cleared)
  return rows

def clear : Act ν η μ Unit := do
  (← takeAll).forM fun r => releaseIfSet invoke r.1 r.2

def close : Act ν η μ Unit := do
  change fun c => { c.setTimer none with handle := .closed }
  clear invoke

/-- Closes a cache that was given up once no operation runs on it. -/
def closeUnused : Act ν η μ Unit := do
  let w ← get
  if w.cache.handle = .givenUp ∧ w.busy = false then close invoke

end ExpiringCache.Act
