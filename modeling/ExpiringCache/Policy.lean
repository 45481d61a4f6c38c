import ExpiringCache.Time.Wall

/-!
# Expiration policies

A policy says from when on an entry counts as expired. Three kinds carry a deadline, and a
deadline is inclusive: the entry is expired at the deadline itself. A deadline that lies past the
last instant is `none` and is never reached. The fourth kind asks the host, by the name of one of
its predicates, and may be answered differently each time.

An access moves the deadline of a sliding policy only; an insertion restarts sliding and duration
policies, whatever deadline they were built with.
-/

namespace ExpiringCache

/-- When an entry expires; `η` names the host's predicates. -/
inductive Policy (η : Type) where
  /-- At a fixed moment. -/
  | absolute (deadline : Option Instant)
  /-- One window after the last access. -/
  | sliding (window : Span) (deadline : Option Instant)
  /-- A fixed time after insertion. -/
  | duration (life : Span) (deadline : Option Instant)
  /-- As soon as the host's predicate holds. -/
  | custom (predicate : η)
deriving DecidableEq

namespace Policy

variable {η : Type}

def absoluteOn (deadline : Instant) : Policy η := .absolute (some deadline)

/-- Expires when the wall clock, reading `wall` at the instant `now`, reaches `deadline`. -/
def absoluteAt (deadline wall : Wall) (now : Instant) : Policy η :=
  .absolute (now.plus? (deadline.remaining wall))

def slidingFrom (window : Span) (now : Instant) : Policy η := .sliding window (now.plus? window)

def durationFrom (life : Span) (now : Instant) : Policy η := .duration life (now.plus? life)

def deadline? : Policy η → Option Instant
  | .absolute d => d
  | .sliding _ d => d
  | .duration _ d => d
  | .custom _ => none

/-- A deadline that exists has been reached. -/
def reached (deadline : Option Instant) (now : Instant) : Bool := deadline.any (· ≤ now)

theorem reached_iff {d : Option Instant} {t : Instant} :
    reached d t = true ↔ ∃ u, d = some u ∧ u ≤ t := by
  cases d <;> simp [reached]

/-- Whether the policy is expired at `now`; `ask` puts the question to one of the host's
predicates, and is used for a custom policy only. -/
def expired {m : Type → Type} [Monad m] (ask : η → Instant → m Bool) (now : Instant) :
    Policy η → m Bool
  | .absolute d => pure (reached d now)
  | .sliding _ d => pure (reached d now)
  | .duration _ d => pure (reached d now)
  | .custom predicate => ask predicate now

/-- The policy after an access at `now`. -/
def accessed (now : Instant) : Policy η → Policy η
  | .sliding window _ => slidingFrom window now
  | p => p

/-- The policy of an entry inserted at `now`. -/
def startingAt (now : Instant) : Policy η → Policy η
  | .sliding window _ => slidingFrom window now
  | .duration life _ => durationFrom life now
  | p => p

/-- Whether an access moves the deadline. -/
def canReset : Policy η → Bool
  | .sliding .. => true
  | _ => false

/-- The policy carries a deadline, so its answer depends on the instant alone. -/
def isTimed : Policy η → Bool
  | .custom _ => false
  | _ => true

theorem expired_timed {m : Type → Type} [Monad m] (ask : η → Instant → m Bool) (now : Instant)
    {p : Policy η} (h : p.isTimed = true) :
    p.expired ask now = pure (reached p.deadline? now) := by
  cases p with
  | custom => cases h
  | _ => rfl

@[simp] theorem isTimed_accessed (p : Policy η) (now : Instant) :
    (p.accessed now).isTimed = p.isTimed := by
  cases p <;> rfl

@[simp] theorem isTimed_startingAt (p : Policy η) (now : Instant) :
    (p.startingAt now).isTimed = p.isTimed := by
  cases p <;> rfl

theorem accessed_accessed (p : Policy η) (t u : Instant) :
    (p.accessed t).accessed u = p.accessed u := by
  cases p <;> rfl

end Policy

end ExpiringCache
