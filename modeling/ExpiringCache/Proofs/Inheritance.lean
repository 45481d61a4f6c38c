import ExpiringCache.Engine.Session
import ExpiringCache.Proofs.Execution

/-!
# Properties that work inherits

Most of what the engine does is put together of a few kinds of steps that do not ask which fetches are in
progress. A property that these steps have, and that work inherits from its parts, is one that all of it
has. What is left to show are the ends of reads, the calls, and what is done under admission.
-/

namespace ExpiringCache

variable {ν η μ α β : Type}

/-- The two are the same to whoever does not ask for admission. -/
structure World.Resembles (w w' : World ν η μ) : Prop where
  now : w'.now = w.now
  memory : w'.memory = w.memory
  cache : ∃ a, w'.cache = { w.cache with admission := a }
  busy : w'.busy = w.busy

def Operation.isRead : Operation ν η → Bool
  | get _ => true
  | fetch .. => true
  | race .. => true
  | _ => false

/-- No read ends, and no callback is entered. -/
def Record.isRoutine : Record ν η → Bool
  | .read .. => false
  | .entered _ => false
  | _ => true

namespace Act

/-- Whatever is put together of steps that come to an end by themselves has such a property. The timer
and the handle are changed by no such step. -/
structure Woven (host : Host ν η μ) (P : ∀ {α : Type}, Act ν η μ α → Prop) : Prop where
  pure : ∀ {α : Type} (a : α), P (Pure.pure a)
  bind : ∀ {α β : Type} {x : Act ν η μ α} {f : α → Act ν η μ β}, P x → (∀ a, P (f a)) → P (x >>= f)
  get : ∀ {β : Type} {g : World ν η μ → Act ν η μ β}, (∀ w w', w.Resembles w' → g w' = g w) →
    (∀ w, P (g w)) → P (MonadState.get >>= g)
  consult : ∀ predicate t, P (Act.consult host predicate t)
  change : ∀ {t : Cache ν η → Cache ν η},
    (∀ c a, t { c with admission := a } = { t c with admission := a }) →
    (∀ c, (t c).handle = c.handle ∧ (t c).timer = c.timer) → P (Act.change t)
  note : ∀ r : Record ν η, r.isRoutine = true → P (Act.note r)
  during : ∀ {α : Type} {x : Act ν η μ α} (a : Activity ν η), (∀ key slot, a ≠ .fetching key slot) →
    a.isOperation = false → P x → P (Act.during a x)
  deciding : ∀ {α : Type} {x : Act ν η μ α} (key : Key) (g : Nat), P x → P (Act.deciding key g x)

/-- And so has whatever is cut short, or goes on where something was. -/
structure Inherited (host : Host ν η μ) (P : ∀ {α : Type}, Act ν η μ α → Prop) : Prop where
  pure : ∀ {α : Type} (a : α), P (Pure.pure a)
  throw : ∀ {α : Type} (halt : Halt), P (MonadExcept.throw halt : Act ν η μ α)
  bind : ∀ {α β : Type} {x : Act ν η μ α} {f : α → Act ν η μ β}, P x → (∀ a, P (f a)) → P (x >>= f)
  get : ∀ {β : Type} {g : World ν η μ → Act ν η μ β}, (∀ w w', w.Resembles w' → g w' = g w) →
    (∀ w, P (g w)) → P (MonadState.get >>= g)
  consult : ∀ predicate t, P (Act.consult host predicate t)
  change : ∀ {t : Cache ν η → Cache ν η},
    (∀ c a, t { c with admission := a } = { t c with admission := a }) → P (Act.change t)
  wait : ∀ span, P (modify fun w => { w with now := w.now.advance span })
  remember : ∀ m, P (modify fun w => { w with memory := m })
  note : ∀ r : Record ν η, r.isRoutine = true → P (Act.note r)
  attempt : ∀ {α : Type} {x : Act ν η μ α}, P x → P (Act.attempt x)
  during : ∀ {α : Type} {x : Act ν η μ α} (a : Activity ν η), (∀ key slot, a ≠ .fetching key slot) →
    P x → P (Act.during a x)
  deciding : ∀ {α : Type} {x : Act ν η μ α} (key : Key) (g : Nat), P x → P (Act.deciding key g x)

namespace Woven

variable {host : Host ν η μ} {P : ∀ {α : Type}, Act ν η μ α → Prop} (h : Woven host P)

include h

theorem cache {g : Cache ν η → Act ν η μ β} (hg : ∀ c a, g { c with admission := a } = g c)
    (hc : ∀ c, P (g c)) : P (Act.cache >>= g) := by
  refine h.get (g := fun w => g w.cache) ?_ fun w => hc w.cache
  intro w w' hr
  obtain ⟨a, ha⟩ := hr.cache
  rw [ha]
  exact hg w.cache a

theorem now {g : Instant → Act ν η μ β} (hg : ∀ t, P (g t)) : P (Act.now >>= g) :=
  h.get (g := fun w => g w.now) (fun _ _ hr => congrArg g hr.now) fun w => hg w.now

theorem mapM {f : α → Act ν η μ β} (xs : List α) (hf : ∀ a, P (f a)) : P (xs.mapM f) := by
  induction xs with
  | nil =>
    rw [List.mapM_nil]
    exact h.pure []
  | cons x xs ih =>
    rw [List.mapM_cons]
    exact h.bind (hf x) fun _ => h.bind ih fun _ => h.pure _

theorem foldlM {f : β → α → Act ν η μ β} (xs : List α) (hf : ∀ b a, P (f b a)) :
    ∀ b, P (xs.foldlM f b) := by
  induction xs with
  | nil => exact fun b => h.pure b
  | cons x xs ih =>
    intro b
    rw [List.foldlM_cons]
    exact h.bind (hf b x) ih

theorem forM {f : α → Act ν η μ Unit} (xs : List α) (hf : ∀ a, P (f a)) : P (xs.forM f) := by
  induction xs with
  | nil => exact h.pure ()
  | cons x xs ih => exact h.bind (hf x) fun _ => ih

theorem filterM {p : α → Act ν η μ Bool} (xs : List α) (hp : ∀ a, P (p a)) : P (xs.filterM p) := by
  have loop : ∀ acc, P (xs.filterAuxM p acc) := by
    induction xs with
    | nil => exact fun acc => h.pure acc
    | cons x xs ih => exact fun acc => h.bind (hp x) fun _ => ih _
  exact h.bind (loop []) fun _ => h.pure _

/-! ## Questions about entries -/

theorem expired (e : Entry ν η) : P (Act.expired host e) := by
  refine h.now fun t => ?_
  unfold Entry.expired
  cases e.policy with
  | none => exact h.pure false
  | some policy =>
    cases policy with
    | custom predicate => exact h.consult predicate t
    | _ => exact h.pure _

theorem occupied (key : Key) : P (Act.occupied host key) := by
  refine h.cache (fun _ _ => rfl) fun c => ?_
  cases c.find? key with
  | none => exact h.pure false
  | some e =>
    dsimp only
    split
    · exact h.pure true
    · exact h.bind (h.expired e) fun _ => h.pure _

theorem candidate? (key : Key) (g : Nat) : P (Act.candidate? host key g) := by
  refine h.cache (fun _ _ => rfl) fun c => ?_
  cases c.insertion? key g with
  | none => exact h.pure none
  | some e =>
    dsimp only
    split
    · refine h.bind (h.expired e) fun found => ?_
      split <;> exact h.pure _
    · exact h.pure none

theorem commit (key : Key) (g : Nat) : P (Act.commit host key g) := by
  refine h.cache (fun _ _ => rfl) fun c => ?_
  cases c.insertion? key g with
  | none => exact h.pure none
  | some e =>
    dsimp only
    split
    · exact h.pure none
    · refine h.bind (h.expired e) fun found => ?_
      split
      · exact h.bind (h.change (fun _ _ => rfl) fun _ => ⟨rfl, rfl⟩) fun _ =>
          h.bind (h.note _ rfl) fun _ => h.pure _
      · exact h.pure none

theorem liveKeys : P (Act.liveKeys host) := by
  refine h.cache (fun _ _ => rfl) fun c => h.bind (h.filterM _ fun r => ?_) fun _ => h.pure _
  split
  · exact h.pure true
  · exact h.bind (h.expired r.2) fun _ => h.pure _

theorem candidates : P (Act.candidates host) := by
  refine h.cache (fun _ _ => rfl) fun c => h.bind (h.filterM _ fun r => ?_) fun _ => h.pure _
  split
  · exact h.pure false
  · exact h.expired r.2

/-! ## Changes of entries -/

theorem place (key : Key) (value : ν) (policy : Option (Policy η)) :
    P (Act.place key value policy : Act ν η μ _) := by
  refine h.cache (fun _ _ => rfl) fun c => h.now fun t =>
    h.bind (h.change (fun _ _ => rfl) fun _ => ⟨rfl, rfl⟩) fun _ => h.bind (h.note _ rfl) fun _ => ?_
  cases c.find? key with
  | none => exact h.pure none
  | some old => exact h.bind (h.note _ rfl) fun _ => h.pure _

theorem takeAll : P (Act.takeAll : Act ν η μ (List (Key × Entry ν η))) :=
  h.cache (fun _ _ => rfl) fun _ => h.bind (h.change (fun _ _ => rfl) fun _ => ⟨rfl, rfl⟩) fun _ =>
    h.bind (h.forM _ fun _ => h.note _ rfl) fun _ => h.pure _

variable {invoke : Invoke ν η μ} (hi : ∀ c, c.isFactory = false → P (invoke c))

include hi

theorem release (key : Key) (e : Entry ν η) : P (Act.release invoke key e) := by
  refine h.cache (fun _ _ => rfl) fun c => ?_
  cases c.settings.release with
  | none => exact h.pure ()
  | some handler => exact h.during _ (fun _ _ ha => nomatch ha) rfl (hi _ rfl)

theorem releaseIfSet (key : Key) (e : Entry ν η) : P (Act.releaseIfSet invoke key e) := by
  refine h.cache (fun _ _ => rfl) fun c => ?_
  split
  · exact h.release hi key e
  · exact h.pure ()

theorem askExpiring (g : Nat) (key : Key) (value : ν) (policy : Policy η) :
    P (Act.askExpiring invoke g key value policy) :=
  h.bind (h.note _ rfl) fun _ => h.cache (fun _ _ => rfl) fun _ => h.mapM _ fun _ => hi _ rfl

theorem tellExpired (g : Nat) (key : Key) (value : ν) (initial : Disposal) :
    P (Act.tellExpired invoke g key value initial) :=
  h.bind (h.note _ rfl) fun _ => h.cache (fun _ _ => rfl) fun _ =>
    h.foldlM _ (fun running handler => hi (.expired handler key value running) rfl) initial

theorem disposeEvicted (key : Key) (gone : Entry ν η) : P (Act.disposeEvicted invoke key gone) := by
  refine h.cache (fun _ _ => rfl) fun c => h.bind
    (h.during _ (fun _ _ ha => nomatch ha) rfl (h.tellExpired hi _ key _ _)) fun final =>
    h.bind (h.note _ rfl) fun _ => ?_
  split
  · exact h.release hi key gone
  · exact h.pure ()

theorem expire (key : Key) (g : Nat) : P (Act.expire host invoke key g) := by
  refine h.bind (h.candidate? key g) fun found => ?_
  match found with
  | none => exact h.pure _
  | some (e, policy) =>
    refine h.bind (h.deciding key g (h.askExpiring hi g key e.value policy)) fun answers =>
      h.bind (h.note _ rfl) fun _ => ?_
    split
    · exact h.bind (h.change (fun _ _ => rfl) fun _ => ⟨rfl, rfl⟩) fun _ => h.pure _
    · refine h.bind (h.commit key g) fun gone => ?_
      cases gone with
      | none => exact h.pure _
      | some gone => exact h.bind (h.disposeEvicted hi key gone) fun _ => h.pure _

theorem policyFor (key : Key) (given : Option (Policy η)) : P (Act.policyFor invoke key given) := by
  cases given with
  | some policy => exact h.pure _
  | none =>
    refine h.cache (fun _ _ => rfl) fun c => ?_
    cases c.settings.defaultPolicy with
    | none => exact h.pure none
    | some handler => exact hi _ rfl

theorem store (htimer : P (Act.change .ensureTimer : Act ν η μ Unit)) (key : Key) (value : ν)
    (policy : Option (Policy η)) : P (Act.store invoke key value policy) := by
  refine h.bind (h.place key value policy) fun replaced => ?_
  have tended : ∀ rest : Act ν η μ Unit, P rest → P (do
      if policy.isSome then Act.change .ensureTimer
      rest) := by
    intro rest hrest
    cases policy with
    | none => exact hrest
    | some policy => exact h.bind htimer fun _ => hrest
  cases replaced with
  | none => exact tended _ (h.pure ())
  | some old => exact tended _ (h.releaseIfSet hi key old)

theorem insert (htimer : P (Act.change .ensureTimer : Act ν η μ Unit)) (key : Key) (value : ν)
    (options : Options η) : P (Act.insert host invoke key value options) := by
  refine h.bind (h.policyFor hi key options.policy) fun policy => ?_
  split
  · exact h.store hi htimer key value policy
  · refine h.bind (h.occupied key) fun taken => ?_
    split
    · exact h.pure ()
    · exact h.store hi htimer key value policy

theorem remove (key : Key) : P (Act.remove invoke key) := by
  refine h.cache (fun _ _ => rfl) fun c => ?_
  cases c.find? key with
  | none => exact h.pure false
  | some e =>
    exact h.bind (h.change (fun _ _ => rfl) fun _ => ⟨rfl, rfl⟩) fun _ => h.bind (h.note _ rfl) fun _ =>
      h.bind (h.releaseIfSet hi key e) fun _ => h.pure true

theorem clear : P (Act.clear invoke) :=
  h.bind h.takeAll fun rows => h.forM rows fun r => h.releaseIfSet hi r.1 r.2

theorem closeUnused (hclose : P (Act.change fun c => { c.setTimer none with handle := .closed })) :
    P (Act.closeUnused invoke) := by
  refine h.get ?_ fun w => ?_
  · intro w w' hr
    obtain ⟨a, ha⟩ := hr.cache
    rw [ha, hr.busy]
  · split
    · exact h.bind hclose fun _ => h.clear hi
    · exact h.pure ()

theorem sweep : P (Act.sweep host invoke) := by
  refine h.bind h.candidates fun cs => h.foldlM _ (fun n c => ?_) 0
  refine h.bind (h.expire hi c.1 c.2) fun fate => ?_
  cases fate <;> exact h.pure _

theorem tick (hretire : P (Act.change (.setTimer none) : Act ν η μ Unit)) :
    P (Act.tick host invoke) := by
  refine h.bind (h.sweep hi) fun _ => h.cache (fun _ _ => rfl) fun c => ?_
  split
  · exact hretire
  · exact h.pure ()

/-! ## Programs -/

section

omit hi

variable {perform : Operation ν η → Act ν η μ (Answer ν)}
  (throw : ∀ {α : Type} (halt : Halt), P (MonadExcept.throw halt : Act ν η μ α))
  (wait : ∀ span, P (modify fun w => { w with now := w.now.advance span }))
  (remember : ∀ m, P (modify fun w => { w with memory := m }))
  (attempt : ∀ {α : Type} {x : Act ν η μ α}, P x → P (Act.attempt x)) (hp : ∀ op, P (perform op))

include throw wait remember attempt hp

theorem run (p : Program ν η μ α) : P (p.run perform) := by
  induction p with
  | done a => exact h.pure a
  | panic message => exact throw _
  | clock next ih => exact h.now ih
  | wait span next ih => exact h.bind (wait span) fun _ => ih
  | load next ih =>
    exact h.get (g := fun w => (next w.memory).run perform)
      (fun _ _ hr => congrArg (fun m => (next m).run perform) hr.memory) fun w => ih w.memory
  | store m next ih => exact h.bind (remember m) fun _ => ih
  | perform op next ih => exact h.bind (attempt (hp op)) ih

theorem callVia (hentered : ∀ c : Callback ν η, P (Act.note (.entered c) : Act ν η μ Unit))
    (c : Callback ν η) : P (Act.callVia host perform c) := by
  have hrun := h.run throw wait remember attempt hp (host.respond c)
  refine h.bind (hentered c) fun _ => h.bind (attempt hrun) fun r => ?_
  cases r with
  | ok answer => exact h.bind (h.note _ rfl) fun _ => h.pure _
  | error message => exact h.bind (h.note _ rfl) fun _ => throw _

end

end Woven

namespace Inherited

variable {host : Host ν η μ} {P : ∀ {α : Type}, Act ν η μ α → Prop} (h : Inherited host P)

include h

theorem woven : Woven host P :=
  ⟨h.pure, h.bind, h.get, h.consult, fun ha _ => h.change ha, h.note, fun a ha _ => h.during a ha,
    h.deciding⟩

theorem ensureTimer : P (Act.change .ensureTimer : Act ν η μ Unit) := by
  refine h.change fun c a => ?_
  show (if c.timerRunning then _ else _) =
    { (if c.timerRunning then _ else _ : Cache ν η) with admission := a }
  cases c.timerRunning <;> rfl

theorem resume (result : Except String α) : P (Act.resume result : Act ν η μ α) := by
  cases result with
  | ok a => exact h.pure a
  | error message => exact h.throw _

variable {invoke : Invoke ν η μ} (hi : ∀ c, c.isFactory = false → P (invoke c))

include hi

theorem lookup (access : Access) (key : Key) (hread : ∀ found, P (readEnds access key found))
    (retries : Nat) : P (Act.lookup host invoke access key retries) := by
  induction retries with
  | zero => exact h.throw _
  | succ retries ih =>
    refine h.woven.cache (fun _ _ => rfl) fun c => ?_
    cases c.find? key with
    | none => exact hread none
    | some e =>
      refine h.bind (h.woven.expired e) fun past => ?_
      split
      · split
        · exact h.woven.now fun t => h.bind (h.change fun _ _ => rfl) fun _ => hread _
        · exact hread _
      · split
        · exact hread _
        · refine h.bind (h.woven.expire hi key e.generation) fun fate => ?_
          cases fate with
          | evicted => exact hread none
          | cancelled value => exact hread (some value)
          | stale => exact h.bind (h.note _ rfl) fun _ => ih

theorem guardedTick : P (Act.guardedTick host invoke) := by
  refine h.bind (h.attempt (h.woven.tick hi (h.change fun _ _ => rfl))) fun r => ?_
  cases r with
  | ok _ => exact h.pure ()
  | error _ => exact h.change fun _ _ => rfl

theorem runDue (moment : Instant) (bound : Nat) : P (Act.runDue host invoke moment bound) := by
  induction bound with
  | zero => exact h.throw _
  | succ bound ih =>
    refine h.woven.cache (fun _ _ => rfl) fun c => ?_
    split
    · exact h.bind (h.change fun _ _ => rfl) fun _ => ih
    · split
      · exact h.bind (h.change fun _ _ => rfl) fun _ => h.bind (h.guardedTick hi) fun _ => ih
      · exact h.pure ()
    · exact h.pure ()

theorem catchUp (bound : Nat) : P (Act.catchUp host invoke bound) := by
  induction bound with
  | zero => exact h.throw _
  | succ bound ih =>
    refine h.woven.now fun moment => h.bind (h.runDue hi moment bound) fun _ => h.woven.now fun t => ?_
    split
    · exact ih
    · exact h.pure ()

/-! ## Operations -/

omit hi in
theorem keyed {key : Key} {work : Act ν η μ (Answer ν)} (hw : P work) :
    P (Act.keyed host key work) := by
  unfold Act.keyed
  split
  · exact hw
  · exact h.pure _

/-- An operation that is no read. -/
theorem carryOut (retries : Nat) {op : Operation ν η} (hop : op.isRead = false) :
    P (Act.carryOut host invoke retries op) := by
  cases op with
  | insert key value options =>
    exact h.keyed (h.bind (h.woven.insert hi h.ensureTimer key value options) fun _ => h.pure _)
  | contains key =>
    exact h.keyed (h.bind (h.lookup hi .peek key (fun found => h.pure found) retries)
      fun _ => h.pure _)
  | remove key => exact h.keyed (h.bind (h.woven.remove hi key) fun _ => h.pure _)
  | clear => exact h.bind (h.woven.clear hi) fun _ => h.pure _
  | sweep => exact h.bind (h.woven.sweep hi) fun _ => h.pure _
  | length => exact h.woven.cache (fun _ _ => rfl) fun _ => h.pure _
  | keys => exact h.bind h.woven.liveKeys fun _ => h.pure _
  | statistics => exact h.woven.cache (fun _ _ => rfl) fun _ => h.pure _
  | timerRunning => exact h.woven.cache (fun _ _ => rfl) fun _ => h.pure _
  | onExpiring handler => exact h.bind (h.change fun _ _ => rfl) fun _ => h.pure _
  | onExpired handler => exact h.bind (h.change fun _ _ => rfl) fun _ => h.pure _
  | drop => exact h.bind (h.change fun _ _ => rfl) fun _ => h.pure _
  | _ => cases hop

theorem operate {retries : Nat} {op : Operation ν η}
    (hc : P (Act.during (.operation op) (Act.carryOut host invoke retries op))) :
    P (Act.operate host invoke retries op) := by
  refine h.bind (h.attempt (h.bind (h.attempt hc) fun result => ?_)) fun result => ?_
  · exact h.bind (h.woven.closeUnused hi (h.change fun _ _ => rfl)) fun _ => h.resume result
  · exact h.bind (h.note _ rfl) fun _ => h.resume result

/-! ## Programs -/

section

omit hi

variable {perform : Operation ν η → Act ν η μ (Answer ν)} (hp : ∀ op, P (perform op))

include hp

theorem run (p : Program ν η μ α) : P (p.run perform) :=
  h.woven.run h.throw h.wait h.remember h.attempt hp p

theorem callVia (hentered : ∀ c : Callback ν η, P (Act.note (.entered c) : Act ν η μ Unit))
    (c : Callback ν η) : P (Act.callVia host perform c) :=
  h.woven.callVia h.throw h.wait h.remember h.attempt hp hentered c

end

omit hi in
theorem turn {bound : Nat} (hp : ∀ op, P (perform host bound op))
    (hentered : ∀ c : Callback ν η, P (Act.note (.entered c) : Act ν η μ Unit))
    (p : Program ν η μ α) : P (Act.turn host bound p) := by
  refine h.bind (h.attempt (h.run hp p)) fun _ => h.bind (h.woven.cache (fun _ _ => rfl) fun c => ?_)
    fun _ => h.pure _
  split
  · exact h.catchUp (fun c _ => h.callVia hp hentered c) bound
  · exact h.pure ()

end Inherited

end Act

end ExpiringCache
