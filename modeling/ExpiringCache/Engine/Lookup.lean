import ExpiringCache.Engine.Expiry

/-!
# Reading

A live entry is returned as it is. An expired one that handlers are deciding about is returned
too; any other goes through the expiry sequence first, and a veto lets it be read. When the
sequence finds that the entry has changed meanwhile, the read starts over. Only a full read counts
as a hit or a miss, once, at its end; and only a read of a live entry is an access for its policy.
-/

namespace ExpiringCache

inductive Access where
  /-- Is anything there? -/
  | peek
  /-- What is its value? -/
  | full
deriving DecidableEq

namespace Act

variable {ν η μ : Type} (host : Host ν η μ) (invoke : Invoke ν η μ)

/-- Ends a read: counts it and writes it down. -/
def readEnds (access : Access) (key : Key) (found : Option ν) : Act ν η μ (Option ν) := do
  if access = .full then
    change (.count fun s => if found.isSome then s.hit else s.miss)
    note (.read key found.isSome)
  return found

/-- Reads the value under `key`, starting over at most `retries` times. -/
def lookup (access : Access) (key : Key) : Nat → Act ν η μ (Option ν)
  | 0 => throw .exhausted
  | retries + 1 => do
    match (← cache).find? key with
    | none => readEnds access key none
    | some e =>
      if !(← expired host e) then
        if access = .full then
          let t ← now
          change (.touch t key)
        readEnds access key (some e.value)
      else if e.pending then
        readEnds access key (some e.value)
      else
        match ← expire host invoke key e.generation with
        | .evicted => readEnds access key none
        | .cancelled value => readEnds access key (some value)
        | .stale =>
          note (.retried key)
          lookup access key retries

end Act

end ExpiringCache
