import ExpiringCache.World

/-!
# Disposal of values

A value that has left the cache may be handed to the host's release function, if there is one.
Values that leave other than by expiry are handed over exactly when the settings say so.
-/

namespace ExpiringCache.Act

variable {ν η μ : Type} (invoke : Invoke ν η μ)

/-- Hands the entry's value over. -/
def release (key : Key) (e : Entry ν η) : Act ν η μ Unit := do
  match (← cache).settings.release with
  | none => return ()
  | some handler => during (.releasing key e.generation) (invoke (.release handler key e.value))

/-- Hands the value over if the settings say so. -/
def releaseIfSet (key : Key) (e : Entry ν η) : Act ν η μ Unit := do
  if (← cache).settings.dispose then release invoke key e

end ExpiringCache.Act
