import ExpiringCache.Engine.Expiry

/-!
# Sweeping

A sweep lists the expired entries that nobody decides about and then evicts them one by one; its
result counts its own evictions. A tick of the timer is a sweep, after which the timer retires if
no entry that can expire is left.
-/

namespace ExpiringCache.Act

variable {ν η μ : Type} (host : Host ν η μ) (invoke : Invoke ν η μ)

/-- The insertions a sweep will try to evict. -/
def candidates : Act ν η μ (List (Key × Nat)) := do
  let rows ← (← cache).entries.rows.filterM fun r =>
    if r.2.pending then return false else expired host r.2
  return rows.map fun r => (r.1, r.2.generation)

def sweep : Act ν η μ Nat := do
  (← candidates host).foldlM (fun n c => do
    match ← expire host invoke c.1 c.2 with
    | .evicted => return n + 1
    | _ => return n) 0

/-- The keys whose entries read as present. -/
def liveKeys : Act ν η μ (List Key) := do
  let rows ← (← cache).entries.rows.filterM fun r => do
    if r.2.pending then return true else return !(← expired host r.2)
  return rows.map Prod.fst

/-- One tick of the timer. -/
def tick : Act ν η μ Unit := do
  let _ ← sweep host invoke
  if !(← cache).needsTimer then change (.setTimer none)

end ExpiringCache.Act
