import ExpiringCache.Error
import ExpiringCache.Callback
import ExpiringCache.Stats

/-!
# Operations

What can be asked of a cache, and what it answers. An operation that cannot be carried out is
refused with a cause.
-/

namespace ExpiringCache

/-- How an insertion is made. -/
structure Options (η : Type) where
  /-- Without a policy the cache's default is asked for one. -/
  policy : Option (Policy η)
  /-- Replace a live entry. -/
  overwrite : Bool
deriving DecidableEq

namespace Options

variable {η : Type}

def default : Options η := ⟨none, false⟩

def overwriting : Options η := ⟨none, true⟩

end Options

inductive Operation (ν η : Type) where
  | insert (key : Key) (value : ν) (options : Options η)
  | get (key : Key)
  | contains (key : Key)
  | fetch (key : Key) (factory : η) (options : Options η)
  /-- Several callers fetch the same key, one after another. -/
  | race (key : Key) (factory : η) (options : Options η) (callers : Nat)
  | remove (key : Key)
  | clear
  | sweep
  | length
  | keys
  | statistics
  | timerRunning
  | onExpiring (handler : η)
  | onExpired (handler : η)
  | drop
deriving DecidableEq

namespace Operation

/-- An insertion that replaces whatever is there. -/
def add {ν η : Type} (key : Key) (value : ν) : Operation ν η := .insert key value .overwriting

end Operation

/-- Why an operation was not carried out. -/
inductive Refusal where
  /-- The cache refused the key. -/
  | error (cause : CacheError)
  /-- The factory of a fetch failed with this text. -/
  | factoryFailed (message : String)
  /-- The fetch would have waited for a fetch that waits for it. -/
  | waitsForItself
  /-- There is no cache any more. -/
  | dropped
deriving DecidableEq

/-- What a caller of a fetch gets. -/
inductive Fetched (ν : Type) where
  | value (value : ν)
  | refused (cause : Refusal)
deriving DecidableEq

/-- What an operation answers. -/
inductive Answer (ν : Type) where
  | done
  | flag (b : Bool)
  | count (n : Nat)
  | found (value : Option ν)
  | fetched (value : ν)
  /-- What each caller of a race got. -/
  | raced (results : List (Fetched ν))
  | keys (keys : List Key)
  | statistics (stats : Stats)
  | refused (cause : Refusal)
deriving DecidableEq

end ExpiringCache
