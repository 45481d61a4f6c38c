import ExpiringCache.Proofs.Alongside

/-!
# A fetch taken apart

A fetch does what its caller could do without it: get the key, have the factory called if nothing is found,
and insert what it made. The one thing it adds is that others are kept off the key meanwhile. So a fetch
whose factory fails leaves what the read and the factory have left, and nothing else.
-/

namespace ExpiringCache

variable {ν η μ α β : Type}

/-- What a fetch comes by before it stores anything. -/
inductive Sought (ν : Type) where
  | found (value : ν)
  | made (value : ν)
  | failed (message : String)

/-- What is answered to the caller of a fetch. -/
def Fetched.answer : Fetched ν → Answer ν
  | .value v => .fetched v
  | .refused cause => .refused cause

/-- From what a factory answers. -/
def Sought.of : Except String ν → Sought ν
  | .ok value => .made value
  | .error message => .failed message

namespace Act

section

variable (host : Host ν η μ) (invoke : Invoke ν η μ) (retries : Nat) (key : Key)

/-- Gets the key, unless it is to be overwritten, and calls the factory if nothing is found. -/
def seek (factory : η) (options : Options η) : Act ν η μ (Sought ν) := do
  let answer ← if options.overwrite then pure (.found none)
    else carryOut host invoke retries (.get key)
  match answer with
  | .found (some value) => return .found value
  | _ => return .of (← invoke (.factory factory key))

/-- Inserts what was made. -/
def conclude (options : Options η) : Sought ν → Act ν η μ (Answer ν)
  | .found value => return .fetched value
  | .failed message => return .refused (.factoryFailed message)
  | .made value => do
    let _ ← carryOut host invoke retries (.insert key value { options with overwrite := true })
    return .fetched value

end

variable {host : Host ν η μ} {invoke : Invoke ν η μ} {key : Key}

theorem bracket_map (enter leave : World ν η μ → World ν η μ) (x : Act ν η μ α) (g : α → β) :
    (bracket enter leave x >>= fun a => Pure.pure (g a)) =
      bracket enter leave (x >>= fun a => Pure.pure (g a)) := by
  funext w
  show EStateM.bind (bracket enter leave x) _ w = bracket enter leave (EStateM.bind x _) w
  unfold bracket EStateM.bind
  dsimp only
  cases x (enter w) <;> rfl

/-- What a fetch does once it is let in. -/
theorem fetchInside_eq (hk : host.accepts key = true) (factory : η) (options : Options η)
    (retries : Nat) :
    (fetchInside host invoke key factory options retries >>= fun f => Pure.pure (Fetched.answer f)) =
      seek host invoke retries key factory options >>= conclude host invoke retries key options := by
  have made : (make host invoke key factory options >>= fun f => Pure.pure (Fetched.answer f)) =
      (invoke (.factory factory key) >>= fun made =>
        conclude host invoke retries key options (.of made)) := by
    unfold make
    rw [bind_assoc]
    congr 1
    funext made
    cases made with
    | error message => rfl
    | ok value =>
      simp only [conclude, Sought.of, carryOut, keyed, hk, if_true, bind_assoc, pure_bind]
      rfl
  unfold fetchInside seek
  cases options.overwrite with
  | true =>
    simp only [if_true, pure_bind, bind_assoc]
    exact made
  | false =>
    simp only [Bool.false_eq_true, if_false, carryOut, keyed, hk, if_true, bind_assoc, pure_bind]
    congr 1
    funext found
    cases found with
    | some value => rfl
    | none =>
      simp only [bind_assoc, pure_bind]
      exact made

theorem conclude_unaware (hi : ∀ c, (invoke c).Unaware key) (host : Host ν η μ) (retries : Nat)
    (options : Options η) (s : Sought ν) :
    (conclude host invoke retries key options s).Unaware key := by
  have h := Unaware.inherited key host
  cases s with
  | found value => exact h.pure _
  | failed message => exact h.pure _
  | made value => exact h.bind (carryOut_unaware hi host retries rfl) fun _ => h.pure _

theorem seek_unaware (hi : ∀ c, (invoke c).Unaware key) (host : Host ν η μ) (retries : Nat)
    (factory : η) (options : Options η) :
    (seek host invoke retries key factory options).Unaware key := by
  have h := Unaware.inherited key host
  have called : (invoke (.factory factory key) >>= fun made =>
      (Pure.pure (Sought.of made) : Act ν η μ (Sought ν))).Unaware key :=
    h.bind (hi (.factory factory key)) fun _ => h.pure _
  unfold seek
  split
  · exact called
  · refine h.bind (carryOut_unaware hi host retries rfl) fun answer => ?_
    dsimp only
    split
    · exact h.pure _
    · exact called

end Act

/-- No fetch of `key` is in progress, and only fetches in progress are admitted. -/
structure World.Unclaimed (key : Key) (w : World ν η μ) : Prop where
  slots : w.Slotted
  vacant : ∀ slot, .fetching key slot ∉ w.calls

/-- A key that nobody fetches is admitted. -/
theorem World.Unclaimed.acquire? {key : Key} {w : World ν η μ} (hw : w.Unclaimed key) :
    ∃ acquired slot, w.cache.admission.acquire? key = some (acquired, slot) := by
  obtain ⟨⟨acquired, slot⟩, ha⟩ := Option.isSome_iff_exists.mp
    ((hw.slots.acquire?_isSome_iff key).mpr (not_exists.mpr hw.vacant))
  exact ⟨acquired, slot, ha⟩

/-- `v'` is `v`, with nothing in progress and nobody admitted that was not in `w`. -/
structure World.Leaves (w v v' : World ν η μ) : Prop where
  agrees : v.AgreesButForAdmission v'
  calls : v.calls = w.calls
  calls' : v'.calls = w.calls
  slots' : v'.Slotted

theorem World.Leaves.unclaimed {key : Key} {w v v' : World ν η μ} (h : w.Leaves v v')
    (hw : w.Unclaimed key) : v'.Unclaimed key :=
  ⟨h.slots', fun slot => h.calls' ▸ hw.vacant slot⟩

/-- From `w` to `v` the factory was called first, or at once after a miss. -/
def World.Tries (key : Key) (factory : η) (w v : World ν η μ) : Prop :=
  ∃ called before, called :: (before ++ w.journal) <:+ v.journal ∧
    called.record = .entered (.factory factory key) ∧ ∀ l ∈ before, l.record = .read key false

/-- From `w` to `v` the value was stored in place of `old`, whose value was then handed over if that
is set. -/
def World.Supplants (key : Key) (value : ν) (policy : Option (Policy η)) (old : Entry ν η)
    (w v : World ν η μ) : Prop :=
  ∃ later, v.journal = later ++ (w.placed key value policy).journal ∧
    ∀ handler, w.cache.settings.dispose = true → w.cache.settings.release = some handler →
      ∃ l ∈ later, l.record = .entered (.release handler key old.value)

namespace Act

variable {host : Host ν η μ} {invoke : Invoke ν η μ} {key : Key} {w : World ν η μ}

theorem fetch_eq (host : Host ν η μ) (invoke : Invoke ν η μ) {acquired : Admission} {slot : Nat}
    (ha : w.cache.admission.acquire? key = some (acquired, slot)) (factory : η) (options : Options η)
    (retries : Nat) : fetch host invoke key factory options retries w = (if host.accepts key = true then
      holding key acquired slot (fetchInside host invoke key factory options retries)
    else Pure.pure (.refused (.error (.forKey key))) : Act ν η μ (Fetched ν)) w := by
  have hcache : (cache : Act ν η μ (Cache ν η)) w = .ok w.cache w := rfl
  unfold fetch
  show EStateM.bind cache _ w = _
  rw [EStateM.bind, hcache]
  dsimp only
  rw [ha]

/-- A fetch that is let in is its parts, done under admission. -/
theorem carryOut_fetch_eq (hk : host.accepts key = true) {acquired : Admission} {slot : Nat}
    (ha : w.cache.admission.acquire? key = some (acquired, slot)) (factory : η) (options : Options η)
    (retries : Nat) : carryOut host invoke retries (.fetch key factory options) w =
      holding key acquired slot (seek host invoke retries key factory options >>=
        conclude host invoke retries key options) w := by
  have hfetch := fetch_eq host invoke ha factory options retries
  rw [if_pos hk] at hfetch
  have hanswer : carryOut host invoke retries (.fetch key factory options) =
      (fetch host invoke key factory options retries >>= fun f => Pure.pure (Fetched.answer f)) := by
    refine congrArg (fetch host invoke key factory options retries >>= ·) ?_
    funext fetched
    cases fetched <;> rfl
  have hbind : (fetch host invoke key factory options retries >>= fun f =>
      Pure.pure (Fetched.answer f)) w = (holding key acquired slot
        (fetchInside host invoke key factory options retries) >>= fun f =>
          Pure.pure (Fetched.answer f)) w := by
    show EStateM.bind _ _ w = EStateM.bind _ _ w
    unfold EStateM.bind
    rw [hfetch]
  rw [hanswer, hbind, holding, bracket_map, fetchInside_eq hk]
  rfl

/-- Whatever goes the same way when it is done under admission. -/
theorem Unaware.under {x : Act ν η μ α} (hx : x.Unaware key) (hw : w.Unclaimed key)
    {acquired : Admission} {slot : Nat}
    (ha : w.cache.admission.acquire? key = some (acquired, slot)) :
    x.Ends w fun r v => r ≠ .error .exhausted → v.fetches key = w.fetches key →
      (holding key acquired slot x).Ends w fun r' v' => r' = r ∧ w.Leaves v v' := by
  apply (hx w).mono
  rintro r v ⟨-, hgo⟩ hr hv
  have hin : w.Beside key
      ((w.change ({ · with admission := acquired })).push (.fetching key slot)) :=
    ⟨⟨rfl, rfl, ⟨acquired, rfl⟩, rfl⟩, .here slot w.calls, hw.slots, hw.slots.acquire ha⟩
  apply ends_bracket
  apply Ends.mono (hgo hr hv _ hin)
  rintro r' v' ⟨rfl, hb, hc, hc'⟩
  obtain ⟨a, hcache⟩ := hb.agrees.cache
  refine ⟨rfl, ⟨hb.agrees.now, hb.agrees.memory, ?_, hb.agrees.journal⟩, hc, ?_,
    hb.slots'.dismiss hc'⟩
  · exact ⟨_, congrArg (fun c : Cache ν η => { c with
      admission := v'.cache.admission.release key slot }) hcache⟩
  · rw [World.calls_pop, World.calls_change, hc']
    rfl

/-! ## The factory -/

theorem call_enters (host : Host ν η μ) (depth : Nat) (c : Callback ν η) (w : World ν η μ) :
    (call host depth c).Ends w fun _ v => w.line (.entered c) :: w.journal <:+ v.journal := by
  have responds := run_stretches host depth (host.respond c)
  refine ends_note.mpr (Ends.mono (P := fun _ v => Stretch (w.note (.entered c)) v) ?_
    fun _ _ hs => hs.suffix)
  refine Follows.bind Stretch.paths (.attempt responds) (fun r => ?_) _
  cases r with
  | ok answer => exact .note Stretch.paths rfl (fun _ h => by cases h) (.pure Stretch.paths)
  | error message => exact .note Stretch.paths rfl (fun _ h => by cases h) (.throw Stretch.paths)

theorem conclude_follows (hi : ∀ c, (invoke c).Stretches) (host : Host ν η μ) (retries : Nat)
    (key : Key) (options : Options η) (s : Sought ν) :
    (conclude host invoke retries key options s).Follows Stretch := by
  cases s with
  | found value => exact .pure Stretch.paths
  | failed message => exact .pure Stretch.paths
  | made value =>
    exact .bind Stretch.paths (carryOut_follows Stretch.paths (fun c _ => hi c) host retries
      (Stretch.permits host _)) fun _ => .pure Stretch.paths

/-- If there is nothing under the key, the factory is called after a miss. -/
theorem seek_enters (hk : host.accepts key = true) (hf : w.cache.find? key = none)
    (depth retries : Nat) (factory : η) (options : Options η) :
    (seek host (call host depth) (retries + 1) key factory options).Ends w fun _ v =>
      w.Tries key factory v := by
  have called : ∀ (u : World ν η μ) (before : List (Line ν η)), u.journal = before ++ w.journal →
      (∀ l ∈ before, l.record = .read key false) →
      (call host depth (.factory factory key) >>= fun made =>
        (Pure.pure (Sought.of made) : Act ν η μ (Sought ν))).Ends u fun _ v =>
          w.Tries key factory v := by
    intro u before hj hb
    refine (call_enters host depth (.factory factory key) u).bind ?_ ?_
    · exact fun made v hv => ⟨_, before, hj ▸ hv, rfl, hb⟩
    · exact fun halt v hv => ⟨_, before, hj ▸ hv, rfl, hb⟩
  unfold seek
  split
  · exact called w [] rfl (fun _ h => nomatch h)
  · have hget : carryOut host (call host depth) (retries + 1) (.get key) =
        (lookup host (call host depth) .full key (retries + 1) >>= fun found =>
          Pure.pure (.found found)) := if_pos hk
    have hread : (lookup host (call host depth) .full key (retries + 1)).Ends w fun r v =>
        r = .ok none ∧ ∃ l, v.journal = [l] ++ w.journal ∧ l.record = .read key false := by
      unfold lookup
      apply ends_cache.mpr
      rw [hf]
      exact ⟨rfl, _, rfl, rfl⟩
    rw [hget, bind_assoc]
    refine hread.bind ?_ ?_
    · rintro found v ⟨hr, l, hj, hl⟩
      cases hr
      exact called v [l] hj fun m hm => List.mem_singleton.mp hm ▸ hl
    · rintro halt v ⟨hr, -⟩
      cases hr

/-! ## The insertion -/

theorem store_supplants (depth : Nat) (key : Key) (value : ν) (policy : Option (Policy η))
    {old : Entry ν η} (hf : w.cache.find? key = some old) :
    (store (call host depth) key value policy).Ends w fun _ v =>
      w.Supplants key value policy old v := by
  have released : ∀ u : World ν η μ, u.journal = (w.placed key value policy).journal →
      u.cache.settings = w.cache.settings →
      (releaseIfSet (call host depth) key old).Ends u fun _ v =>
        w.Supplants key value policy old v := by
    intro u hj hs
    unfold releaseIfSet
    apply ends_cache.mpr
    rw [hs]
    split
    · unfold release
      apply ends_cache.mpr
      rw [hs]
      cases hr : w.cache.settings.release with
      | none => exact ⟨[], hj, fun _ _ h => nomatch hr.symm.trans h⟩
      | some handler =>
        let u' := u.push (.releasing key old.generation)
        let c : Callback ν η := .release handler key old.value
        apply ends_bracket
        apply (call_enters host depth c u').mono
        rintro r v ⟨more, hmore⟩
        refine ⟨more ++ [u'.line (.entered c)], ?_, fun handler' _ heq => ?_⟩
        · rw [List.append_assoc, ← hj]
          exact hmore.symm
        · cases hr.symm.trans heq
          exact ⟨_, List.mem_append_right more (List.mem_singleton.mpr rfl), rfl⟩
    · rename_i hd
      exact ⟨[], hj, fun _ h => absurd h hd⟩
  refine ends_place ?_
  rw [hf]
  cases policy with
  | none => exact released _ rfl (by rw [World.cache_placed]; rfl)
  | some p =>
    refine released ((w.placed key value (some p)).change .ensureTimer) rfl ?_
    rw [World.cache_change, World.cache_placed]
    unfold Cache.ensureTimer
    split <;> rfl

/-! ## Keys that are not accepted -/

end Act

namespace Operation

/-- The key an operation is about, if it is about one. -/
def key? : Operation ν η → Option Key
  | insert key _ _ => some key
  | get key => some key
  | contains key => some key
  | fetch key _ _ => some key
  | race key _ _ _ => some key
  | remove key => some key
  | _ => none

/-- The answer to an operation that is refused; each caller of a race gets one. -/
def refusal (cause : Refusal) : Operation ν η → Answer ν
  | race _ _ _ callers => .raced (List.replicate callers (.refused cause))
  | _ => .refused cause

end Operation

namespace Act

theorem carryOut_rejected (invoke : Invoke ν η μ) (hk : host.accepts key = false)
    (hw : w.Unclaimed key) (retries : Nat) {op : Operation ν η} (hop : op.key? = some key) :
    carryOut host invoke retries op w = .ok (op.refusal (.error (.forKey key))) w := by
  obtain ⟨acquired, slot, ha⟩ := hw.acquire?
  have fetched : ∀ factory options, fetch host invoke key factory options retries w =
      .ok (.refused (.error (.forKey key))) w := by
    intro factory options
    rw [fetch_eq host invoke ha, hk]
    rfl
  have keyed : ∀ work : Act ν η μ (Answer ν), Act.keyed host key work w =
      .ok (.refused (.error (.forKey key))) w := by
    intro work
    unfold Act.keyed
    rw [hk]
    rfl
  have raced : ∀ factory options callers, race host invoke key factory options retries callers w =
      .ok (List.replicate callers (.refused (.error (.forKey key)))) w := by
    intro factory options callers
    induction callers with
    | zero => rfl
    | succ callers ih =>
      show EStateM.bind (fetch host invoke key factory options retries) _ w = _
      unfold EStateM.bind
      rw [fetched]
      show EStateM.bind (race host invoke key factory options retries callers) _ w = _
      unfold EStateM.bind
      rw [ih]
      rfl
  cases op <;> cases hop
  case fetch factory options =>
    show EStateM.bind (fetch host invoke key factory options retries) _ w = _
    unfold EStateM.bind
    rw [fetched]
    rfl
  case race factory options callers =>
    have hadmits : w.cache.admission.admits key = true := by
      unfold Admission.admits
      rw [ha]
      rfl
    show (if w.cache.admission.admits key = true then _ else _ : Act ν η μ (Answer ν)) w = _
    rw [if_pos hadmits]
    show EStateM.bind (race host invoke key factory options retries callers) _ w = _
    unfold EStateM.bind
    rw [raced]
    rfl
  all_goals exact keyed _

theorem perform_rejected (hk : host.accepts key = false) (hw : w.Unclaimed key)
    (hh : w.cache.handle = .held) (depth : Nat) {op : Operation ν η} (hop : op.key? = some key) :
    (perform host (depth + 1) op).Ends w fun r v =>
      r = .ok (op.refusal (.error (.forKey key))) ∧ v = w.note (.finished op) := by
  have hin : (w.push (.operation op)).Unclaimed key := by
    refine ⟨hw.slots.push rfl, fun slot hmem => ?_⟩
    rcases List.mem_cons.mp hmem with h | h
    · cases h
    · exact hw.vacant slot h
  have hcarried := carryOut_rejected (call host depth) hk hin depth hop
  unfold perform
  apply ends_cache.mpr
  rw [if_pos hh]
  apply operate_closes
  unfold Ends
  rw [show carryOut host (callVia host (perform host depth)) depth op (w.push (.operation op)) = _ from
    hcarried]
  show Closes _ op _ (.ok _) w
  unfold Closes closeUnused
  rw [if_neg (by simp [cutShort])]
  apply ends_get.mpr
  rw [if_neg (by simp [hh])]
  exact ⟨rfl, rfl⟩

end Act

/-! ## Fetches -/

/-- How fetches of `key` come out, in terms of what they are made of. -/
structure Host.FetchesApart (host : Host ν η μ) (key : Key) : Prop where
  /-- If the factory fails, the fetch leaves what the read and the factory leave. -/
  failed : host.accepts key = true → ∀ (depth retries : Nat) (factory : η) (options : Options η)
    (w : World ν η μ), w.Unclaimed key →
    (Act.seek host (Act.call host depth) retries key factory options).Ends w fun r v =>
      ∀ message, r = .ok (.failed message) → v.fetches key = w.fetches key →
        (Act.carryOut host (Act.call host depth) retries (.fetch key factory options)).Ends w
          fun r' v' => r' = .ok (.refused (.factoryFailed message)) ∧ w.Leaves v v' ∧
            v'.Unclaimed key
  /-- However it ends, it leaves what its parts leave. -/
  whole : host.accepts key = true → ∀ (depth retries : Nat) (factory : η) (options : Options η)
    (w : World ν η μ), w.Unclaimed key →
    (Act.seek host (Act.call host depth) retries key factory options >>=
        Act.conclude host (Act.call host depth) retries key options).Ends w fun r v =>
      r ≠ .error .exhausted → v.fetches key = w.fetches key →
        (Act.carryOut host (Act.call host depth) retries (.fetch key factory options)).Ends w
          fun r' v' => r' = r ∧ w.Leaves v v'
  /-- If there is nothing under the key, its factory is called. -/
  absent : host.accepts key = true → ∀ (depth retries : Nat) (factory : η) (options : Options η)
    (w : World ν η μ), w.Unclaimed key → w.cache.find? key = none →
    (Act.carryOut host (Act.call host depth) (retries + 1) (.fetch key factory options)).Ends w
      fun _ v => w.Tries key factory v
  /-- The insertion it ends with replaces whatever is there once the policy is known. -/
  replaces : host.accepts key = true → ∀ (depth retries : Nat) (value : ν) (options : Options η)
    (w : World ν η μ), (Act.policyFor (Act.call host depth) key options.policy).Ends w fun r u =>
      ∀ policy old, r = .ok policy → u.cache.find? key = some old →
        (Act.carryOut host (Act.call host depth) retries
            (.insert key value { options with overwrite := true })).Ends w fun _ v =>
          u.Supplants key value policy old v
  /-- A key that is not accepted fails every operation, and nothing else happens. -/
  rejected : host.accepts key = false → ∀ (depth : Nat) (op : Operation ν η) (w : World ν η μ),
    op.key? = some key → w.cache.handle = .held → w.Unclaimed key →
    (Act.perform host (depth + 1) op).Ends w fun r v =>
      r = .ok (op.refusal (.error (.forKey key))) ∧ v = w.note (.finished op)

namespace Act

variable {host : Host ν η μ} {key : Key} {w : World ν η μ}

theorem fetch_leaves (hk : host.accepts key = true) (hw : w.Unclaimed key) (depth retries : Nat)
    (factory : η) (options : Options η) :
    (seek host (call host depth) retries key factory options >>=
        conclude host (call host depth) retries key options).Ends w fun r v =>
      r ≠ .error .exhausted → v.fetches key = w.fetches key →
        (carryOut host (call host depth) retries (.fetch key factory options)).Ends w
          fun r' v' => r' = r ∧ w.Leaves v v' := by
  obtain ⟨acquired, slot, ha⟩ := hw.acquire?
  have hunaware : (seek host (call host depth) retries key factory options >>=
      conclude host (call host depth) retries key options).Unaware key :=
    unaware_bind (seek_unaware (call_unaware host key depth) host retries factory options) fun s =>
      conclude_unaware (call_unaware host key depth) host retries options s
  apply (hunaware.under hw ha).mono
  intro r v h hr hv
  exact (h hr hv).congr (carryOut_fetch_eq hk ha factory options retries)

theorem fetch_fails (hk : host.accepts key = true) (hw : w.Unclaimed key) (depth retries : Nat)
    (factory : η) (options : Options η) :
    (seek host (call host depth) retries key factory options).Ends w fun r v =>
      ∀ message, r = .ok (.failed message) → v.fetches key = w.fetches key →
        (carryOut host (call host depth) retries (.fetch key factory options)).Ends w
          fun r' v' => r' = .ok (.refused (.factoryFailed message)) ∧ w.Leaves v v' ∧
            v'.Unclaimed key := by
  apply (ends_self (seek host (call host depth) retries key factory options) w).mono
  rintro r v (⟨s, rfl, hs⟩ | ⟨halt, rfl, -⟩) message hr hv
  · cases hr
    have hwhole : (seek host (call host depth) retries key factory options >>=
        conclude host (call host depth) retries key options) w =
          .ok (.refused (.factoryFailed message)) v := by
      show EStateM.bind _ _ w = _
      unfold EStateM.bind
      rw [hs]
      rfl
    apply ((fetch_leaves hk hw depth retries factory options).of_ok hwhole (fun h => nomatch h) hv).mono
    exact fun _ _ h => ⟨h.1, h.2, h.2.unclaimed hw⟩
  · cases hr

theorem fetch_enters (hk : host.accepts key = true) (hw : w.Unclaimed key)
    (hf : w.cache.find? key = none) (depth retries : Nat) (factory : η) (options : Options η) :
    (carryOut host (call host depth) (retries + 1) (.fetch key factory options)).Ends w
      fun _ v => w.Tries key factory v := by
  obtain ⟨acquired, slot, ha⟩ := hw.acquire?
  refine Ends.congr (ends_bracket ?_) (carryOut_fetch_eq hk ha factory options (retries + 1))
  refine (seek_enters (w := (w.change ({ · with admission := acquired })).push (.fetching key slot))
    hk hf depth retries factory options).bind ?_ fun _ _ h => h
  rintro s v ⟨called, before, hv, hrest⟩
  apply (conclude_follows (call_stretches host depth) host (retries + 1) key options s v).mono
  exact fun _ _ hs => ⟨called, before, hv.trans hs.suffix, hrest⟩

theorem insert_supplants (hk : host.accepts key = true) (depth retries : Nat) (value : ν)
    (options : Options η) (w : World ν η μ) :
    (policyFor (call host depth) key options.policy).Ends w fun r u =>
      ∀ policy old, r = .ok policy → u.cache.find? key = some old →
        (carryOut host (call host depth) retries
            (.insert key value { options with overwrite := true })).Ends w fun _ v =>
          u.Supplants key value policy old v := by
  apply (ends_self (policyFor (call host depth) key options.policy) w).mono
  rintro r u (⟨policy, rfl, hp⟩ | ⟨halt, rfl, -⟩) policy' old hr hf
  · cases hr
    show (if host.accepts key = true then _ else _ : Act ν η μ (Answer ν)).Ends w _
    rw [if_pos hk]
    have hknown : (policyFor (call host depth) key options.policy).Ends w fun r v =>
        r = .ok policy ∧ v = u := by
      unfold Ends
      rw [hp]
      exact ⟨rfl, rfl⟩
    refine Ends.bind (P := fun _ v => u.Supplants key value policy old v) (hknown.bind ?_ ?_)
      (fun _ _ h => h) fun _ _ h => h
    · rintro _ v ⟨hpolicy, rfl⟩
      cases hpolicy
      exact store_supplants depth key value policy hf
    · rintro halt v ⟨h, -⟩
      cases h
  · cases hr

end Act

/-- A fetch is its parts, unless some callback fetches the same key meanwhile: it ends as they do and
leaves what they leave, line by line, with nobody admitted that was not before. So a factory that fails
leaves no trace but its own, and is called again by the next fetch if there is still nothing; and what a
factory makes replaces even what it has stored itself. Keys that are not accepted fail at once. -/
theorem fetches_leave_what_their_parts_leave (host : Host ν η μ) (key : Key) :
    host.FetchesApart key where
  failed hk depth retries factory options _ hw := Act.fetch_fails hk hw depth retries factory options
  whole hk depth retries factory options _ hw := Act.fetch_leaves hk hw depth retries factory options
  absent hk depth retries factory options _ hw hf :=
    Act.fetch_enters hk hw hf depth retries factory options
  replaces hk depth retries value options w := Act.insert_supplants hk depth retries value options w
  rejected hk depth _ _ hop hh hw := Act.perform_rejected hk hw hh depth hop

/-! ## A handler that fetches -/

/-- Its handler fetches the key that it is asked about; one of its factories fails. -/
def Host.refetching : Host Nat String Unit where
  accepts _ := true
  consult _ _ memory := (.ok true, memory)
  respond
    | .expiring _ key _ _ => .perform (.fetch key "make" .default) fun _ => .done .proceed
    | .expired _ _ _ running => .done running
    | .release .. => .done ()
    | .factory "fail" _ => .perform (.add "j" 1) fun _ => .done (.error "none")
    | .factory .. => .done (.ok 2)
    | .defaultPolicy .. => .done none

/-- An entry is expired as soon as it is stored. -/
def Program.delay : Program Nat String Unit Unit :=
  .perform (.onExpiring "ask") fun _ =>
  .perform (.insert "k" 1 ⟨some (.duration .zero none), false⟩) fun _ => .done ()

def World.overdue : World Nat String Unit :=
  (Act.turn .refetching 6 .delay).after (.fresh .keeping .task .zero ())

theorem overdue_between : Between .refetching .keeping .task World.overdue :=
  .turn 6 .delay (.ok ()) (.fresh .zero ()) rfl

theorem overdue_unclaimed (key : Key) : World.overdue.Unclaimed key := by
  have hcalls : World.overdue.calls = [] := (Reachable.between overdue_between).calls
  exact ⟨(Reachable.between overdue_between).sound.1.admission, fun slot h => by rw [hcalls] at h; cases h⟩

/-- The factory stores something and fails; the fetch leaves that, and its miss. -/
theorem failed_fetch_of_overdue : ∃ v : World Nat String Unit,
    (Act.carryOut .refetching (Act.call .refetching 5) 5 (.fetch "i" "fail" .default)).Ends World.overdue
      fun r' v' => r' = .ok (.refused (.factoryFailed "none")) ∧ World.overdue.Leaves v v' ∧
        v'.Unclaimed "i" := by
  have hsought : (Act.seek .refetching (Act.call .refetching 5) 5 "i" "fail" .default).Ends World.overdue
      fun r v => r = .ok (.failed "none") ∧ v.fetches "i" = World.overdue.fetches "i" :=
    ⟨rfl, by decide +kernel⟩
  have hfailed := (fetches_leave_what_their_parts_leave .refetching "i").failed rfl 5 5 "fail" .default
    World.overdue (overdue_unclaimed "i")
  obtain ⟨r, ⟨⟨hr, hv⟩, h⟩, -⟩ := (hsought.and hfailed).outcome
  exact ⟨_, h "none" hr hv⟩

/-- The handler's own fetch is answered if the key is just got, but not from within a fetch. -/
theorem refetching_handler_tells_fetches_apart :
    Between .refetching .keeping .task World.overdue ∧ World.overdue.Unclaimed "k" ∧
    (Act.seek .refetching (Act.call .refetching 5) 5 "k" "fail" .default).Ends World.overdue (fun r v =>
      r = .ok (.failed "none") ∧ v.cache.stats.hits = 1) ∧
    (Act.carryOut .refetching (Act.call .refetching 5) 5 (.fetch "k" "fail" .default)).Ends World.overdue
      fun r v => r = .ok (.refused (.factoryFailed "none")) ∧ v.cache.stats.hits = 0 :=
  ⟨overdue_between, overdue_unclaimed "k", ⟨rfl, by decide +kernel⟩, ⟨rfl, by decide +kernel⟩⟩

end ExpiringCache
