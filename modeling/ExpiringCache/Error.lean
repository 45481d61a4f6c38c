import ExpiringCache.Text.Quoted

/-!
# Errors of the cache

The two causes for which the cache itself refuses: a key its validator rejects, carried as quoted
text, and settings it cannot work with. Each has a message and an inspection text.
-/

namespace ExpiringCache

inductive CacheError where
  | invalidKey (shown : String)
  | invalidConfiguration (reason : String)
deriving DecidableEq

namespace CacheError

def message : CacheError → String
  | invalidKey shown => "Invalid key: " ++ shown
  | invalidConfiguration reason => "Invalid configuration: " ++ reason

/-- The cause by name, its text quoted. -/
def text : CacheError → String
  | invalidKey shown => "InvalidKey(" ++ Text.quoted shown ++ ")"
  | invalidConfiguration reason => "InvalidConfiguration(" ++ Text.quoted reason ++ ")"

/-- The refusal of `key`. -/
def forKey (key : String) : CacheError := .invalidKey (Text.quoted key)

/-- The refusal of a timer that would never wait. -/
def zeroInterval : CacheError :=
  .invalidConfiguration "expiration timer interval must be greater than zero"

end CacheError

end ExpiringCache
