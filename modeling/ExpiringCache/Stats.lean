import ExpiringCache.Decimal.Binary64

/-!
# Statistics

Counters of what a cache did. A read counts as a hit or as a miss; the hit rate is their quotient
in binary64, each count rounded on its own before the division, and zero before the first read.
-/

namespace ExpiringCache

structure Stats where
  /-- Reads that found a value. -/
  hits : Nat
  /-- Reads that found none. -/
  misses : Nat
  /-- Entries evicted because they had expired. -/
  expirations : Nat
  /-- Evictions vetoed by a handler. -/
  cancelled : Nat
  /-- Entries taken out by removal or by clearing. -/
  removals : Nat
  /-- Entries stored. -/
  total : Nat
deriving DecidableEq

namespace Stats

def empty : Stats := ⟨0, 0, 0, 0, 0, 0⟩

def hit (s : Stats) : Stats := { s with hits := s.hits + 1 }

def miss (s : Stats) : Stats := { s with misses := s.misses + 1 }

def expiration (s : Stats) : Stats := { s with expirations := s.expirations + 1 }

def cancellation (s : Stats) : Stats := { s with cancelled := s.cancelled + 1 }

def removed (n : Nat) (s : Stats) : Stats := { s with removals := s.removals + n }

def withTotal (n : Nat) (s : Stats) : Stats := { s with total := n }

/-- The share of reads that were hits. -/
def hitRate (s : Stats) : Binary64 :=
  if s.hits + s.misses = 0 then .zero
  else ((Binary64.ofNat s.hits).bind fun h =>
    (Binary64.ofNat (s.hits + s.misses)).bind fun t => h.div t).getD .zero

/-- The counters by name, in their fixed order. -/
def fields (s : Stats) : List (String × Nat) :=
  [("hits", s.hits), ("misses", s.misses), ("expirations", s.expirations),
   ("cancelled_expirations", s.cancelled), ("removals", s.removals), ("total_entries", s.total)]

/-- The counters as a JSON object without blanks. -/
def json (s : Stats) : String :=
  "\x7b" ++ ",".intercalate (s.fields.map fun f => "\"" ++ f.1 ++ "\":" ++ toString f.2) ++ "\x7d"

/-- The counters for inspection. -/
def text (s : Stats) : String :=
  "CacheStats \x7b " ++ ", ".intercalate (s.fields.map fun f => f.1 ++ ": " ++ toString f.2) ++
    " \x7d"

end Stats

end ExpiringCache
