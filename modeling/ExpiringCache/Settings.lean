import ExpiringCache.Config
import ExpiringCache.Error

/-!
# Settings

What a cache is built with. Besides the configuration these are two of the host's functions, by
name: one that gives a policy to insertions without one, and one that takes over values that are
disposed of. An interval of zero is refused.
-/

namespace ExpiringCache

structure Settings (η : Type) where
  interval : Span
  /-- Whether values that leave the cache are disposed of, unless a handler decides otherwise. -/
  dispose : Bool
  defaultPolicy : Option η
  release : Option η
deriving DecidableEq

namespace Settings

variable {η : Type}

def ofConfig (c : Config) : Settings η := ⟨c.interval, c.dispose, none, none⟩

def default : Settings η := ofConfig .default

/-- The settings, unless their interval is zero. -/
def checked (s : Settings η) : Except CacheError (Settings η) :=
  if s.interval = .zero then .error .zeroInterval else .ok s

theorem checked_ofConfig_eq_error_iff (c : Config) :
    (ofConfig c : Settings η).checked = .error .zeroInterval ↔ c.intervalMs = 0 := by
  have hzero : (ofConfig c : Settings η).interval = .zero ↔ c.intervalMs = 0 :=
    Span.ofMillis_eq_zero_iff c.intervalMs
  rw [← hzero]
  unfold checked
  split <;> simp_all

end Settings

end ExpiringCache
