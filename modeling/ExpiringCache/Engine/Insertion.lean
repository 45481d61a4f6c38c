import ExpiringCache.Engine.Disposal

/-!
# Inserting

An insertion without a policy asks the host for one, before the clock is read. A live entry, and
one that handlers are deciding about, stays unless the insertion is to overwrite it. An entry that
can expire starts the timer; the value it replaces may be disposed of.
-/

namespace ExpiringCache.Act

variable {ν η μ : Type} (host : Host ν η μ) (invoke : Invoke ν η μ)

/-- The policy of an insertion: its own, or else the one the host gives. -/
def policyFor (key : Key) : Option (Policy η) → Act ν η μ (Option (Policy η))
  | some policy => return some policy
  | none => do
    match (← cache).settings.defaultPolicy with
    | none => return none
    | some handler => invoke (.defaultPolicy handler key)

/-- An entry that an insertion must not overwrite unasked. -/
def occupied (key : Key) : Act ν η μ Bool := do
  match (← cache).find? key with
  | none => return false
  | some e => if e.pending then return true else return !(← expired host e)

/-- Puts a new insertion in its place and returns what was there. -/
def place (key : Key) (value : ν) (policy : Option (Policy η)) :
    Act ν η μ (Option (Entry ν η)) := do
  let before ← cache
  change (.insert (← now) key value policy)
  note (.inserted before.nextGeneration key value)
  match before.find? key with
  | none => return none
  | some old =>
    note (.left old.generation key old.value .replaced)
    return some old

/-- Stores the value, starts the timer if need be and disposes of what was replaced. -/
def store (key : Key) (value : ν) (policy : Option (Policy η)) : Act ν η μ Unit := do
  let replaced ← place key value policy
  if policy.isSome then change .ensureTimer
  match replaced with
  | none => return ()
  | some old => releaseIfSet invoke key old

def insert (key : Key) (value : ν) (options : Options η) : Act ν η μ Unit := do
  let policy ← policyFor invoke key options.policy
  if options.overwrite then store invoke key value policy
  else if ← occupied host key then return ()
  else store invoke key value policy

end ExpiringCache.Act
