import ExpiringCache.Program

/-!
# Scripts

A scripted host is given as data: every callback follows a script, a list of rules of which the
first that applies says what to do. Doing means taking steps on the cache, and then answering or
panicking. Policies are given as recipes, since a policy is built only when its turn comes.
-/

namespace ExpiringCache.Script

/-- What a predicate answers. -/
inductive Question where
  | always (b : Bool)
  /-- The flag of this name, false when it was never set. -/
  | flag (name : String)
  /-- Panics if the flag of this name is set, and else holds. -/
  | panicFlag (name : String)
  /-- Holds from this moment on. -/
  | since (moment : Instant)
  /-- Holds until this moment. -/
  | before (moment : Instant)
  /-- One answer after the other; the last one repeats. -/
  | series (answers : List Bool)
deriving DecidableEq

/-- How to build a policy. -/
inductive Recipe where
  | absolute (deadline : Instant)
  | wall (deadline : Wall)
  | sliding (window : Span)
  | duration (life : Span)
  | givenAbsolute (deadline : Option Instant)
  | givenSliding (window : Span) (deadline : Option Instant)
  | givenDuration (life : Span) (deadline : Option Instant)
  | custom (question : Question)
  /-- The policy that was stored under this name. -/
  | named (name : String)
deriving DecidableEq

/-- The word with which a rule answers. -/
inductive Word where
  | cancel
  | keep
  | dispose
  | flip
deriving DecidableEq

/-- Conditions, then steps of type `σ`, then a panic or an answer. -/
structure Rule (σ : Type) where
  /-- Only for these keys. -/
  keys : Option (List Key)
  /-- Only for keys that begin so. -/
  start : Option String
  /-- Only for values that are integers from here on. -/
  least : Option Int
  /-- Only so many times. -/
  times : Option Nat
  steps : List σ
  panic : Option String
  word : Option Word
  policy : Option Recipe

/-- Rules, and what to do if none applies. -/
structure Plan (σ : Type) where
  rules : List (Rule σ)
  otherwise : Rule σ

/-- What the factory of a fetch does, and what it makes or fails with. -/
structure Factory (σ ν : Type) where
  steps : List σ
  panic : Option String
  result : Except String ν

inductive Step (ν : Type) where
  | insert (key : Key) (value : ν) (policy : Option Recipe) (overwrite : Bool)
  | get (key : Key)
  | contains (key : Key)
  | remove (key : Key)
  | clear
  | fetch (key : Key) (factory : Factory (Step ν) ν) (policy : Option Recipe) (overwrite : Bool)
  /-- Several callers fetch the same key, one after another. -/
  | race (key : Key) (value : ν) (callers : Nat) (policy : Option Recipe) (overwrite : Bool)
  | sweep
  | length
  | isEmpty
  | keys
  | statistics
  | hitRate
  | timerRunning
  | onExpiring (tag : ν) (plan : Plan (Step ν))
  | onExpired (tag : ν) (plan : Plan (Step ν))
  | setFlag (name : String) (value : Bool)
  | definePolicy (name : String) (policy : Recipe)
  | elapse (span : Span)
  | drop

/-- The host's functions and predicates. Counters they keep are named by their cell. -/
inductive Hook (ν : Type) where
  | predicate (question : Question) (cell : Nat)
  /-- The uses of the plan's rules are counted in the cells from `cell` on. -/
  | handler (tag : ν) (plan : Plan (Step ν)) (cell : Nat)
  | silent (plan : Plan (Step ν)) (cell : Nat)
  | factory (factory : Factory (Step ν) ν)
  /-- Makes this value. -/
  | supply (value : ν)

/-- What a step comes to. -/
inductive Outcome (ν : Type) where
  | answered (answer : Answer ν)
  | rate (share : Binary64)
  | policy (policy : Policy (Hook ν))
  | race (results : List (Fetched ν)) (factories releases : Nat)
  | panicked (message : String)

/-- A callback as it ended or was unwound, with what became of its steps. -/
inductive Event (ν : Type) where
  | ended (callback : Callback ν (Hook ν)) (answer : callback.Answer)
      (steps : List (Outcome ν × List (Event ν)))
  | unwound (callback : Callback ν (Hook ν)) (steps : List (Outcome ν × List (Event ν)))

/-- What a step comes to and the callbacks that it caused. -/
abbrev Report (ν : Type) := Outcome ν × List (Event ν)

def Event.callback {ν : Type} : Event ν → Callback ν (Hook ν)
  | .ended c _ _ => c
  | .unwound c _ => c

/-- What became of the steps that the callback took. -/
def Event.steps {ν : Type} : Event ν → List (Report ν)
  | .ended _ _ reports => reports
  | .unwound _ reports => reports

/-- Events by key, those of one key in the order in which they ended. -/
def inKeyOrder {ν : Type} (events : List (Event ν)) : List (Event ν) :=
  events.mergeSort fun a b => decide (a.callback.key ≤ b.callback.key)

end ExpiringCache.Script
