import ExpiringCache.Policy

/-!
# Entries

An entry couples a value to its policy and to the moments of its insertion and of its last
access. Its generation tells one insertion from every other, also under the same key. An entry is
pending while handlers decide whether it may be evicted.
-/

namespace ExpiringCache

structure Entry (ν η : Type) where
  value : ν
  /-- Without a policy the entry never expires. -/
  policy : Option (Policy η)
  createdAt : Instant
  lastAccessedAt : Instant
  generation : Nat
  pending : Bool
deriving DecidableEq

namespace Entry

variable {ν η : Type}

/-- A value inserted at `now`; relative policies count from there. -/
def insertedAt (now : Instant) (value : ν) (policy : Option (Policy η)) (generation : Nat) :
    Entry ν η where
  value := value
  policy := policy.map (·.startingAt now)
  createdAt := now
  lastAccessedAt := now
  generation := generation
  pending := false

/-- The entry after an access at `now`. -/
def touch (e : Entry ν η) (now : Instant) : Entry ν η :=
  { e with lastAccessedAt := now, policy := e.policy.map (·.accessed now) }

def expired {m : Type → Type} [Monad m] (ask : η → Instant → m Bool) (now : Instant)
    (e : Entry ν η) : m Bool :=
  match e.policy with
  | some p => p.expired ask now
  | none => pure false

/-- Entries with a policy are what the timer runs for. -/
def canExpire (e : Entry ν η) : Bool := e.policy.isSome

@[simp] theorem canExpire_touch (e : Entry ν η) (now : Instant) :
    (e.touch now).canExpire = e.canExpire := by
  simp [canExpire, touch]

@[simp] theorem value_touch (e : Entry ν η) (now : Instant) : (e.touch now).value = e.value := rfl

@[simp] theorem generation_touch (e : Entry ν η) (now : Instant) :
    (e.touch now).generation = e.generation := rfl

@[simp] theorem pending_touch (e : Entry ν η) (now : Instant) :
    (e.touch now).pending = e.pending := rfl

end Entry

end ExpiringCache
