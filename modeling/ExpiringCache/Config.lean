import ExpiringCache.Time.Span

/-!
# Configuration

The settings that can be written down: the timer's interval in milliseconds and whether values
are disposed of when they leave the cache.
-/

namespace ExpiringCache

structure Config where
  intervalMs : UInt64
  dispose : Bool
deriving DecidableEq

namespace Config

/-- One tick per second, and no disposal. -/
def default : Config := ⟨1000, false⟩

def interval (c : Config) : Span := .ofMillis c.intervalMs

/-- The configuration for inspection. -/
def text (c : Config) : String :=
  "CacheConfig \x7b expiration_timer_interval_ms: " ++ toString c.intervalMs ++
    ", dispose_values_on_removal: " ++ toString c.dispose ++ " \x7d"

end Config

end ExpiringCache
