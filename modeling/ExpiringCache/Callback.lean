import ExpiringCache.Key
import ExpiringCache.Policy

/-!
# Callbacks

The moments at which the cache calls its host, what it tells it and what it expects back.
-/

namespace ExpiringCache

/-- What a handler says to an eviction. -/
inductive Decision where
  | proceed
  | cancel
deriving DecidableEq

/-- What becomes of a value that has left the cache. -/
inductive Disposal where
  | keep
  | dispose
deriving DecidableEq

namespace Disposal

def ofBool (dispose : Bool) : Disposal := if dispose then .dispose else .keep

def opposite : Disposal → Disposal
  | keep => .dispose
  | dispose => .keep

end Disposal

/-- A call of one of the host's functions, named by `η`. -/
inductive Callback (ν η : Type) where
  /-- An expired entry is about to be evicted; the handler may veto. -/
  | expiring (handler : η) (key : Key) (value : ν) (policy : Policy η)
  /-- An expired entry was evicted; the handler sees the disposal decided so far. -/
  | expired (handler : η) (key : Key) (value : ν) (running : Disposal)
  /-- A value is handed over for disposal. -/
  | release (handler : η) (key : Key) (value : ν)
  /-- A fetch needs a value. -/
  | factory (handler : η) (key : Key)
  /-- An insertion names no policy. -/
  | defaultPolicy (handler : η) (key : Key)
deriving DecidableEq

namespace Callback

variable {ν η : Type}

@[reducible] def Answer : Callback ν η → Type
  | expiring .. => Decision
  | expired .. => Disposal
  | release .. => Unit
  | factory .. => Except String ν
  | defaultPolicy .. => Option (Policy η)

def key : Callback ν η → Key
  | expiring _ k _ _ => k
  | expired _ k _ _ => k
  | release _ k _ => k
  | factory _ k => k
  | defaultPolicy _ k => k

def isRelease : Callback ν η → Bool
  | release .. => true
  | _ => false

def isFactory : Callback ν η → Bool
  | factory .. => true
  | _ => false

end Callback

end ExpiringCache
