import ExpiringCache.Engine.Fetch
import ExpiringCache.Engine.Removal
import ExpiringCache.Engine.Sweep

/-!
# Running operations and programs

Operations call back into the host, whose programs perform operations in turn. The nesting is
bounded by a number; a run that stays below the bound does not depend on it. A handle that was
given up is refused everything; the cache itself closes when the outermost operation on it ends,
or at once if none runs.
-/

namespace ExpiringCache

variable {ν η μ : Type}

/-- Runs a host's program, with `perform` for its operations. -/
def Program.run {α : Type} (perform : Operation ν η → Act ν η μ (Answer ν)) :
    Program ν η μ α → Act ν η μ α
  | .done a => return a
  | .panic message => throw (.panic message)
  | .clock next => do (next (← Act.now)).run perform
  | .wait span next => do
    modify fun w => { w with now := w.now.advance span }
    next.run perform
  | .load next => do (next (← get).memory).run perform
  | .store m next => do
    modify fun w => { w with memory := m }
    next.run perform
  | .perform op next => do (next (← Act.attempt (perform op))).run perform

namespace Act

variable (host : Host ν η μ) (invoke : Invoke ν η μ)

/-- Work on a key, unless the host does not accept it. -/
def keyed (key : Key) (work : Act ν η μ (Answer ν)) : Act ν η μ (Answer ν) :=
  if host.accepts key then work else return .refused (.error (.forKey key))

/-- Carries out an operation on a cache that is held. -/
def carryOut (retries : Nat) : Operation ν η → Act ν η μ (Answer ν)
  | .insert key value options => keyed host key do
    insert host invoke key value options
    return .done
  | .get key => keyed host key do return .found (← lookup host invoke .full key retries)
  | .contains key => keyed host key do
    return .flag (← lookup host invoke .peek key retries).isSome
  | .fetch key factory options => do
    match ← fetch host invoke key factory options retries with
    | .value value => return .fetched value
    | .refused cause => return .refused cause
  | .race key factory options callers => do
    if (← cache).admission.admits key then
      return .raced (← race host invoke key factory options retries callers)
    else return .refused .waitsForItself
  | .remove key => keyed host key do return .flag (← remove invoke key)
  | .clear => do
    clear invoke
    return .done
  | .sweep => do return .count (← sweep host invoke)
  | .length => do return .count (← cache).entries.size
  | .keys => do return .keys (← liveKeys host)
  | .statistics => do return .statistics (← cache).snapshot
  | .timerRunning => do return .flag (← cache).timerRunning
  | .onExpiring handler => do
    change fun c => { c with expiring := c.expiring ++ [handler] }
    return .done
  | .onExpired handler => do
    change fun c => { c with expired := c.expired ++ [handler] }
    return .done
  | .drop => do
    change .giveUp
    return .flag true

/-- The answer once the handle is given up: a second `drop` finds nothing, all else is refused. -/
def afterDrop : Operation ν η → Answer ν
  | .drop => .flag false
  | _ => .refused .dropped

/-- An operation as a whole: it keeps the cache open until it ends. -/
def operate (retries : Nat) (op : Operation ν η) : Act ν η μ (Answer ν) := do
  let result ← attempt do
    let result ← attempt (during (.operation op) (carryOut host invoke retries op))
    closeUnused invoke
    resume result
  note (.finished op)
  resume result

/-- Calls one of the host's functions, with `perform` for the operations of its program. -/
def callVia (perform : Operation ν η → Act ν η μ (Answer ν)) : Invoke ν η μ := fun c => do
  note (.entered c)
  match ← attempt ((host.respond c).run perform) with
  | .ok answer =>
    note (.returned c answer)
    return answer
  | .error message =>
    note (.unwound c)
    throw (.panic message)

/-- Performs an operation, with callbacks nested at most `depth` deep. -/
def perform : Nat → Operation ν η → Act ν η μ (Answer ν)
  | 0, _ => throw .exhausted
  | depth + 1, op => do
    if (← cache).handle = .held then operate host (callVia host (perform depth)) depth op
    else return afterDrop op

/-- Calls one of the host's functions, with callbacks nested at most `depth` deep. -/
def call (depth : Nat) : Invoke ν η μ := callVia host (perform host depth)

end Act

end ExpiringCache
