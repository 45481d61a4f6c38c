import ExpiringCache.Script.Memory

/-!
# The scripted host

Scripts turned into programs. A callback chooses its rule, takes the rule's steps one after
another, and then panics or answers; a step that is unwound stops the steps after it and unwinds
the callback too. Every callback is logged when it ends, among the events of the step that caused
it.
-/

namespace ExpiringCache.Script

variable {ν : Type}

/-- A program of the scripted host. -/
abbrev Action (ν α : Type) := Program ν (Hook ν) (Memory ν) α

/-- A result, or the message of the panic that took its place. -/
abbrev Caught (α : Type) := Except String α

def Recipe.make (recipe : Recipe) : Action ν (Policy (Hook ν)) := do
  let (policy, m) := recipe.build (← Program.now) (← Program.memory)
  Program.remember fun _ => m
  return policy

def options (policy : Option Recipe) (overwrite : Bool) : Action ν (Options (Hook ν)) := do
  match policy with
  | none => return ⟨none, overwrite⟩
  | some recipe => return ⟨some (← recipe.make), overwrite⟩

/-- Sets up the counters of a plan's rules. -/
def Plan.register (s : Plan (Step ν)) : Action ν Nat := do
  let (cell, m) := (← Program.memory).allocate s.rules.length
  Program.remember fun _ => m
  return cell

/-- Performs one operation. -/
def single (op : Operation ν (Hook ν)) : Action ν (Caught (Outcome ν)) := do
  return (← Program.attempt op).map .answered

/-- Performs one operation and makes something else of its answer. -/
def derived (op : Operation ν (Hook ν)) (f : Answer ν → Outcome ν) :
    Action ν (Caught (Outcome ν)) := do
  return (← Program.attempt op).map f

/-- Performs a race. Its callbacks are counted and not reported, but the steps that they took
are: of the events those of such callbacks are kept. -/
def counted (op : Operation ν (Hook ν)) : Action ν (Caught (Outcome ν)) := do
  let before ← Program.memory
  Program.remember (·.withEvents [])
  let result ← Program.attempt op
  let after ← Program.memory
  let telling := after.events.filter fun e => !e.steps.isEmpty
  Program.remember (·.withEvents (telling ++ before.events))
  return result.map fun
    | .raced results =>
      .race results (after.factories - before.factories) (after.releases - before.releases)
    | a => .answered a

/-- Takes one step. -/
def Step.take : Step ν → Action ν (Caught (Outcome ν))
  | .insert key value policy overwrite => do
    single (.insert key value (← options policy overwrite))
  | .get key => single (.get key)
  | .contains key => single (.contains key)
  | .remove key => single (.remove key)
  | .clear => single .clear
  | .fetch key factory policy overwrite => do
    single (.fetch key (.factory factory) (← options policy overwrite))
  | .race key value callers policy overwrite => do
    counted (.race key (.supply value) (← options policy overwrite) callers)
  | .sweep => single .sweep
  | .length => single .length
  | .isEmpty => derived .length fun
    | .count n => .answered (.flag (n = 0))
    | a => .answered a
  | .keys => derived .keys fun
    | .keys ks => .answered (.keys (ks.mergeSort fun a b => decide (a ≤ b)))
    | a => .answered a
  | .statistics => single .statistics
  | .hitRate => derived .statistics fun
    | .statistics s => .rate s.hitRate
    | a => .answered a
  | .timerRunning => single .timerRunning
  | .onExpiring tag plan => do single (.onExpiring (.handler tag plan (← plan.register)))
  | .onExpired tag plan => do single (.onExpired (.handler tag plan (← plan.register)))
  | .setFlag name value => do
    Program.remember (·.setFlag name value)
    return .ok (.answered .done)
  | .definePolicy name recipe => do
    let policy ← recipe.make
    Program.remember (·.define name policy)
    return .ok (.policy policy)
  | .elapse span => .wait span (.done (.ok (.answered .done)))
  | .drop => single .drop

/-- Collects the events since `before` was set aside, and puts that back. -/
def collect (before : List (Event ν)) : Action ν (List (Event ν)) := do
  let events := (← Program.memory).events
  Program.remember (·.withEvents before)
  return inKeyOrder events.reverse

/-- Takes one step and reports it; the second part is the message of its panic. -/
def Step.report (s : Step ν) : Action ν (Report ν × Option String) := do
  let before := (← Program.memory).events
  Program.remember (·.withEvents [])
  match ← s.take with
  | .ok outcome => return ((outcome, ← collect before), none)
  | .error message => return ((.panicked message, ← collect before), some message)

/-- Takes steps until one is unwound. -/
def takeSteps : List (Step ν) → Action ν (List (Report ν) × Option String)
  | [] => return ([], none)
  | s :: rest => do
    match ← s.report with
    | (report, some message) => return ([report], some message)
    | (report, none) =>
      let (reports, message) ← takeSteps rest
      return (report :: reports, message)

/-- A callback that takes steps, then panics or answers, and is logged. -/
def conduct (c : Callback ν (Hook ν)) (steps : List (Step ν)) (panic : Option String)
    (answer : Action ν c.Answer) : Action ν c.Answer := do
  let (reports, message) ← takeSteps steps
  match message.or panic with
  | some message =>
    Program.remember (·.log (.unwound c reports))
    .panic message
  | none =>
    let a ← answer
    Program.remember (·.log (.ended c a reports))
    return a

/-- The conditions of a rule that do not count its uses. -/
def Rule.applies {σ : Type} (r : Rule σ) (key : Key) (number : Option Int) : Bool :=
  r.keys.all (·.contains key) && r.start.all (·.isPrefixOf key) &&
    r.least.all fun least => number.any (least ≤ ·)

/-- The rule to follow. Its use is counted. -/
def Plan.choose (s : Plan (Step ν)) (cell : Nat) (key : Key) (number : Option Int) :
    Action ν (Rule (Step ν)) := do
  let m ← Program.memory
  let chosen := s.rules.zipIdx.find? fun (r, i) =>
    r.applies key number && r.times.all (m.count (cell + i) < ·)
  match chosen with
  | none => return s.otherwise
  | some (r, i) =>
    Program.remember (·.countUp (cell + i))
    return r

/-- Whether the word vetoes an eviction. -/
def vetoes : Option Word → Decision
  | some .cancel => .cancel
  | _ => .proceed

/-- The disposal that the word makes of the one decided so far. -/
def redirect (running : Disposal) : Option Word → Disposal
  | some .keep => .keep
  | some .dispose => .dispose
  | some .flip => running.opposite
  | _ => running

/-- The plan of a hook, with the first of its counters. -/
def Hook.plan : Hook ν → Plan (Step ν) × Nat
  | .handler _ plan cell => (plan, cell)
  | .silent plan cell => (plan, cell)
  | _ => (⟨[], ⟨none, none, none, none, [], none, none, none⟩⟩, 0)

def Hook.rule (hook : Hook ν) (key : Key) (number : Option Int) : Action ν (Rule (Step ν)) :=
  hook.plan.1.choose hook.plan.2 key number

/-- The host's side of a callback; `integer?` reads a value as a number. -/
def respond (integer? : ν → Option Int) : (c : Callback ν (Hook ν)) → Action ν c.Answer
  | .expiring hook key value policy => do
    let rule ← hook.rule key (integer? value)
    conduct (.expiring hook key value policy) rule.steps rule.panic (return vetoes rule.word)
  | .expired hook key value running => do
    let rule ← hook.rule key (integer? value)
    conduct (.expired hook key value running) rule.steps rule.panic
      (return redirect running rule.word)
  | .release hook key value => do
    let rule ← hook.rule key (integer? value)
    conduct (.release hook key value) rule.steps rule.panic (return ())
  | .defaultPolicy hook key => do
    let rule ← hook.rule key none
    conduct (.defaultPolicy hook key) rule.steps rule.panic do
      match rule.policy with
      | none => return none
      | some recipe => return some (← recipe.make)
  | .factory (.factory f) key =>
    conduct (.factory (.factory f) key) f.steps f.panic (return f.result)
  | .factory (.supply value) key =>
    conduct (.factory (.supply value) key) [] none (return .ok value)
  | .factory _ _ => return .error ""

/-- The host that follows scripts. -/
def host (accepts : Key → Bool) (integer? : ν → Option Int) :
    Host ν (Hook ν) (Memory ν) where
  accepts := accepts
  consult := Hook.consult
  respond := respond integer?

end ExpiringCache.Script
