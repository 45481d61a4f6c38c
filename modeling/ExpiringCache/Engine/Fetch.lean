import ExpiringCache.Engine.Insertion
import ExpiringCache.Engine.Lookup

/-!
# Fetching

A fetch reads the value under its key or else has it made and stores it, and holds the key's
admission all the while. If the factory fails, nothing is stored. A fetch inside a fetch of the
same key would wait for itself and is refused before anything else is looked at.
-/

namespace ExpiringCache.Act

variable {ν η μ : Type} (host : Host ν η μ) (invoke : Invoke ν η μ)

/-- Work inside the key's slot. -/
def holding {α : Type} (key : Key) (acquired : Admission) (slot : Nat) :
    Act ν η μ α → Act ν η μ α :=
  bracket (fun w => (w.change ({ · with admission := acquired })).push (.fetching key slot))
    (fun w => (w.change fun c => { c with admission := c.admission.release key slot }).pop)

/-- Has a value made and stores it. -/
def make (key : Key) (factory : η) (options : Options η) : Act ν η μ (Fetched ν) := do
  match ← invoke (.factory factory key) with
  | .error message => return .refused (.factoryFailed message)
  | .ok value =>
    insert host invoke key value { options with overwrite := true }
    return .value value

/-- What a fetch does once it is let in. -/
def fetchInside (key : Key) (factory : η) (options : Options η) (retries : Nat) :
    Act ν η μ (Fetched ν) := do
  let found ← if options.overwrite then pure none else lookup host invoke .full key retries
  match found with
  | some value => return .value value
  | none => make host invoke key factory options

def fetch (key : Key) (factory : η) (options : Options η) (retries : Nat) :
    Act ν η μ (Fetched ν) := do
  match (← cache).admission.acquire? key with
  | none => return .refused .waitsForItself
  | some (acquired, slot) =>
    if host.accepts key then
      holding key acquired slot (fetchInside host invoke key factory options retries)
    else return .refused (.error (.forKey key))

/-- Lets several callers fetch the key, one after another. -/
def race (key : Key) (factory : η) (options : Options η) (retries : Nat) :
    Nat → Act ν η μ (List (Fetched ν))
  | 0 => return []
  | callers + 1 => do
    let first ← fetch host invoke key factory options retries
    return first :: (← race key factory options retries callers)

end ExpiringCache.Act
