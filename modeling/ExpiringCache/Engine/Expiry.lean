import ExpiringCache.Engine.Disposal

/-!
# Expiry of one entry

An expired entry is evicted in two parts. While the handlers that may veto are asked, the entry
is marked as pending; it reads as present then and is not offered to them again. The eviction is
made good only if the same insertion is still there and still expired, so that a replacement made
meanwhile wins. After that the other handlers are told, each seeing the disposal decided before
it. Both kinds of handlers are called as they were registered when their round began.
-/

namespace ExpiringCache

/-- How an attempt to evict an insertion ended. -/
inductive Fate (ν : Type) where
  | evicted
  /-- A handler vetoed; the value is the one that was offered. -/
  | cancelled (value : ν)
  /-- The insertion is gone, is being decided on already, or is not expired any more. -/
  | stale
deriving DecidableEq

namespace Act

variable {ν η μ : Type} (host : Host ν η μ) (invoke : Invoke ν η μ)

/-- Asks every handler that may veto. -/
def askExpiring (generation : Nat) (key : Key) (value : ν) (policy : Policy η) :
    Act ν η μ (List Decision) := do
  note (.offered generation key value policy)
  (← cache).expiring.mapM fun handler => invoke (.expiring handler key value policy)

/-- Tells every handler of the eviction and returns what they decided in the end. -/
def tellExpired (generation : Nat) (key : Key) (value : ν) (initial : Disposal) :
    Act ν η μ Disposal := do
  note (.announced generation key value initial)
  (← cache).expired.foldlM (fun running handler => invoke (.expired handler key value running))
    initial

/-- Work during which the insertion is marked. -/
def deciding {α : Type} (key : Key) (generation : Nat) : Act ν η μ α → Act ν η μ α :=
  bracket (fun w => (w.change (.mark true key generation)).push (.deciding key generation))
    (fun w => (w.change (.mark false key generation)).pop)

/-- The insertion with its policy, if it is expired and nobody decides about it. -/
def candidate? (key : Key) (generation : Nat) :
    Act ν η μ (Option (Entry ν η × Policy η)) := do
  match (← cache).insertion? key generation with
  | none => return none
  | some e =>
    match e.pending, e.policy with
    | false, some policy =>
      if ← expired host e then return some (e, policy) else return none
    | _, _ => return none

/-- Takes the insertion out if it is still expired. -/
def commit (key : Key) (generation : Nat) : Act ν η μ (Option (Entry ν η)) := do
  match (← cache).insertion? key generation with
  | none => return none
  | some e =>
    match e.policy with
    | none => return none
    | some _ =>
      if ← expired host e then
        change (.takeOut key .expiration)
        note (.left generation key e.value .expired)
        return some e
      else return none

/-- Tells the handlers that the insertion was evicted and does with its value as they say. -/
def disposeEvicted (key : Key) (gone : Entry ν η) : Act ν η μ Unit := do
  let initial := Disposal.ofBool (← cache).settings.dispose
  let final ← during (.telling key gone.generation)
    (tellExpired invoke gone.generation key gone.value initial)
  note (.disposed gone.generation key final)
  if final = .dispose then release invoke key gone

/-- Runs the whole sequence for one insertion. -/
def expire (key : Key) (generation : Nat) : Act ν η μ (Fate ν) := do
  match ← candidate? host key generation with
  | none => return .stale
  | some (e, policy) =>
    let answers ← deciding key generation (askExpiring invoke generation key e.value policy)
    note (.decided generation key e.value answers)
    if answers.contains .cancel then
      change (.count .cancellation)
      return .cancelled e.value
    match ← commit host key generation with
    | none => return .stale
    | some gone =>
      disposeEvicted invoke key gone
      return .evicted

end Act

end ExpiringCache
