import ExpiringCache.Proofs.Crowds
import ExpiringCache.Proofs.Targets

/-!
# Fetches in between each other

A fetch is cut into the steps that others can come in between: getting the slot, locking it,
reading, having a value made, storing it, unlocking, checking whether one is the last, and giving
the slot up. Many callers fetch at once and their steps come in any order. Other work goes on in
between that neither takes away nor replaces what is stored under a key, and no read of theirs finds
an entry expired. With nobody in between the steps make up a fetch of the engine.
-/

namespace ExpiringCache

variable {ν η μ : Type}

/-- What a factory came to: a value, a failure, or a panic. -/
abbrev Made (ν : Type) := Except String (Except String ν)

/-- What the caller of a fetch gets, unless the fetch panics. -/
abbrev Received (ν : Type) := Except String (Fetched ν)

/-- How far a caller's fetch has come. -/
inductive Progress (ν : Type) where
  | unread
  /-- Nothing was there to be read. -/
  | missing
  /-- A value was made and is not stored yet. -/
  | holding (value : ν)
  | done (received : Received ν)

def Progress.afterRead : Option ν → Progress ν
  | some value => .done (.ok (.value value))
  | none => .missing

namespace Made

def received : Made ν → Received ν
  | .ok (.ok value) => .ok (.value value)
  | .ok (.error message) => .ok (.refused (.factoryFailed message))
  | .error message => .error message

def succeeds : Made ν → Bool
  | .ok (.ok _) => true
  | _ => false

def task : Made ν → Progress ν
  | .ok (.ok value) => .holding value
  | outcome => .done outcome.received

end Made

structure Caller (ν : Type) where
  key : Key
  place : Place
  task : Progress ν
  /-- What its factory came to, if it was called. -/
  made : Option (Made ν)
  /-- What it stored. -/
  stored : Option ν

namespace Caller

def coming (key : Key) : Caller ν := ⟨key, .outside, .unread, none, none⟩

def works (c : Caller ν) : Bool :=
  match c.task with
  | .missing => true
  | .holding _ => true
  | _ => false

def value? (c : Caller ν) : Option ν :=
  match c.task with
  | .done (.ok (.value value)) => some value
  | _ => none

def succeeded (c : Caller ν) : Bool := c.made.any (·.succeeds)

variable {c : Caller ν} {value : ν}

theorem works_of_missing (h : c.task = .missing) : c.works = true := by
  unfold works
  rw [h]

theorem works_of_holding (h : c.task = .holding value) : c.works = true := by
  unfold works
  rw [h]

theorem value?_of_done (h : c.task = .done (.ok (.value value))) : c.value? = some value := by
  unfold value?
  rw [h]

end Caller

namespace World

def value? (w : World ν η μ) (key : Key) : Option ν := (w.cache.find? key).map (·.value)

/-- What is stored under the key, if anything, is not expired when it is looked at. -/
def Live (host : Host ν η μ) (w : World ν η μ) (key : Key) : Prop :=
  ∀ e, w.cache.find? key = some e → (Act.expired host e).Returns w fun found _ => found = false

/-- What is stored under the key is neither taken away nor replaced, and nobody goes in or out. -/
structure Spares (key : Key) (w w' : World ν η μ) : Prop where
  admission : w'.cache.admission = w.cache.admission
  kept : ∀ value, w.value? key = some value → w'.value? key = some value

/-- Nothing is stored under it besides. -/
structure Preserves (key : Key) (w w' : World ν η μ) : Prop where
  admission : w'.cache.admission = w.cache.admission
  same : w'.value? key = w.value? key

def withAdmission (a : Admission) (w : World ν η μ) : World ν η μ :=
  w.change ({ · with admission := a })

end World

variable (host : Host ν η μ) (invoke : Invoke ν η μ)

inductive Caller.Turn : World ν η μ → Caller ν → World ν η μ → Caller ν → Prop
  | refuse {w : World ν η μ} {c : Caller ν} (hp : c.place = .outside)
      (ha : host.accepts c.key = false) :
      Turn w c w { c with
        place := .gone
        task := .done (.ok (.refused (.error (.forKey c.key)))) }
  | pass {w : World ν η μ} {c : Caller ν} {a : Admission} {place : Place}
      (h : Admission.Passage c.key w.cache.admission c.place a place)
      (hin : c.place = .outside → host.accepts c.key = true)
      (hout : ∀ slot, c.place = .inside slot → ∃ received, c.task = .done received) :
      Turn w c (w.withAdmission a) { c with place := place }
  | read {w w' : World ν η μ} {c : Caller ν} {slot : Nat} (retries : Nat) {found : Option ν}
      (hp : c.place = .inside slot) (ht : c.task = .unread) (hl : w.Live host c.key)
      (h : Act.lookup host invoke .full c.key (retries + 1) w = .ok found w') :
      Turn w c w' { c with task := .afterRead found }
  | make {w : World ν η μ} {c : Caller ν} (outcome : Made ν) (ht : c.task = .missing) :
      Turn w c w { c with made := some outcome, task := outcome.task }
  | store {w w' : World ν η μ} {c : Caller ν} {value : ν} {policy : Option (Policy η)}
      {replaced : Option (Entry ν η)} (ht : c.task = .holding value)
      (h : Act.place c.key value policy w = .ok replaced w') :
      Turn w c w' { c with stored := some value, task := .done (.ok (.value value)) }

structure Crowd (ν η μ : Type) where
  world : World ν η μ
  callers : List (Caller ν)

inductive Crowd.Step (others : World ν η μ → World ν η μ → Prop) :
    Crowd ν η μ → Crowd ν η μ → Prop
  | turn {w w' : World ν η μ} {c c' : Caller ν} (pre post : List (Caller ν))
      (h : c.Turn host invoke w w' c') : Step others ⟨w, pre ++ c :: post⟩ ⟨w', pre ++ c' :: post⟩
  | others {w w' : World ν η μ} {callers : List (Caller ν)} (h : others w w') :
      Step others ⟨w, callers⟩ ⟨w', callers⟩

/-- A schedule: steps of callers and of others in any order. -/
def Crowd.Steps (others : World ν η μ → World ν η μ → Prop) :
    Crowd ν η μ → Crowd ν η μ → Prop := Relation.ReflTransGen (Crowd.Step host invoke others)

variable {host invoke}

/-! ## What a caller has come to -/

def Place.isEarly : Place → Bool
  | .waiting _ => true
  | .inside _ => true
  | _ => false

def Place.isLate : Place → Bool
  | .outside => false
  | .waiting _ => false
  | _ => true

variable (host) in
/-- All that a caller can have come to. -/
inductive Caller.Sound : Caller ν → Prop
  | coming {key : Key} : Sound (.coming key)
  | refused {key : Key} (ha : host.accepts key = false) :
      Sound ⟨key, .gone, .done (.ok (.refused (.error (.forKey key)))), none, none⟩
  | unread {key : Key} {place : Place} (ha : host.accepts key = true)
      (hp : place.isEarly = true) : Sound ⟨key, place, .unread, none, none⟩
  | missing {key : Key} {slot : Nat} (ha : host.accepts key = true) :
      Sound ⟨key, .inside slot, .missing, none, none⟩
  | holding {key : Key} {slot : Nat} {value : ν} (ha : host.accepts key = true) :
      Sound ⟨key, .inside slot, .holding value, some (.ok (.ok value)), none⟩
  | stored {key : Key} {place : Place} {value : ν} (ha : host.accepts key = true)
      (hp : place.isLate = true) :
      Sound ⟨key, place, .done (.ok (.value value)), some (.ok (.ok value)), some value⟩
  | found {key : Key} {place : Place} {value : ν} (ha : host.accepts key = true)
      (hp : place.isLate = true) : Sound ⟨key, place, .done (.ok (.value value)), none, none⟩
  | failed {key : Key} {place : Place} {outcome : Made ν} (ha : host.accepts key = true)
      (hp : place.isLate = true) (hf : outcome.succeeds = false) :
      Sound ⟨key, place, .done outcome.received, some outcome, none⟩

theorem Made.task_of_failed {outcome : Made ν} (h : outcome.succeeds = false) :
    outcome.task = .done outcome.received := by
  rcases outcome with _ | _ | _ <;> first | rfl | cases h

theorem Admission.Passage.late {key : Key} {a a' : Admission} {p p' : Place}
    (h : Admission.Passage key a p a' p') (hp : p.isLate = true) : p'.isLate = true := by
  cases h <;> first | rfl | cases hp

namespace Caller

variable {w w' : World ν η μ} {c c' : Caller ν}

theorem Turn.sound (h : c.Turn host invoke w w' c') (hc : c.Sound host) : c'.Sound host := by
  cases h with
  | refuse hp ha =>
    cases hc with
    | coming => exact .refused ha
    | unread _ he => cases hp; cases he
    | stored _ hl => cases hp; cases hl
    | found _ hl => cases hp; cases hl
    | failed _ hl => cases hp; cases hl
    | _ => cases hp
  | pass h hin hout =>
    cases hc with
    | coming =>
      cases h with
      | enter => exact .unread (hin rfl) rfl
    | refused => cases h
    | unread ha he =>
      cases h with
      | enter => cases he
      | lock => exact .unread ha rfl
      | unlock =>
        obtain ⟨received, hdone⟩ := hout _ rfl
        cases hdone
      | retire => cases he
      | leave => cases he
    | missing =>
      cases h with
      | unlock =>
        obtain ⟨received, hdone⟩ := hout _ rfl
        cases hdone
    | holding =>
      cases h with
      | unlock =>
        obtain ⟨received, hdone⟩ := hout _ rfl
        cases hdone
    | stored ha hp => exact .stored ha (h.late hp)
    | found ha hp => exact .found ha (h.late hp)
    | failed ha hp hf => exact .failed ha (h.late hp) hf
  | @read _ _ slot retries found hp ht hl h =>
    cases hc with
    | coming => cases hp
    | unread ha =>
      cases hp
      cases found with
      | none => exact .missing ha
      | some value => exact .found ha rfl
    | _ => cases ht
  | make outcome ht =>
    cases hc with
    | missing ha =>
      cases ho : outcome.succeeds with
      | true =>
        rcases outcome with _ | _ | _ <;> first | exact .holding ha | cases ho
      | false =>
        rw [Made.task_of_failed ho]
        exact .failed ha rfl ho
    | _ => cases ht
  | store ht h =>
    cases hc with
    | holding ha =>
      cases ht
      exact .stored ha rfl
    | _ => cases ht

theorem Turn.key (h : c.Turn host invoke w w' c') : c'.key = c.key := by
  cases h <;> rfl

theorem Sound.inside (h : c.Sound host) (hw : c.works = true) : c.place.isInside = true := by
  cases h <;> first | rfl | cases hw

/-- A factory's value is held or has been handed on. -/
theorem Sound.of_succeeded (h : c.Sound host) (hs : c.succeeded = true) :
    c.works = true ∨ ∃ value, c.value? = some value := by
  cases h with
  | holding => exact Or.inl rfl
  | stored => exact Or.inr ⟨_, rfl⟩
  | failed _ _ hf =>
    have hs : Made.succeeds _ = true := hs
    rw [hf] at hs
    cases hs
  | _ => cases hs

end Caller

/-! ## Reads and stores -/

namespace World

variable {w w' : World ν η μ}

theorem Preserves.refl (key : Key) (w : World ν η μ) : w.Preserves key w := ⟨rfl, rfl⟩

theorem Preserves.spares {key : Key} (h : w.Preserves key w') : w.Spares key w' :=
  ⟨h.admission, fun _ hv => h.same.trans hv⟩

theorem Preserves.of_entries {key : Key} (ha : w'.cache.admission = w.cache.admission)
    (he : w'.cache.entries = w.cache.entries) : w.Preserves key w' := by
  refine ⟨ha, ?_⟩
  unfold value? Cache.find?
  rw [he]

theorem value?_touch (t : Instant) (key : Key) (w : World ν η μ) (j : Key) :
    (w.change (.touch t key)).value? j = w.value? j := by
  show ((w.cache.touch t key).find? j).map _ = (w.cache.find? j).map _
  rw [Cache.find?_touch]
  split
  · rename_i hj
    rw [Option.map_map, hj]
    rfl
  · rfl

end World

theorem World.Live.of_vacant {w : World ν η μ} {key : Key} (h : w.value? key = none) :
    w.Live host key := by
  intro e he
  unfold World.value? at h
  rw [he] at h
  cases h

theorem World.Live.congr {w w' : World ν η μ} {key : Key} (h : w.Live host key)
    (hn : w'.now = w.now) (hm : w'.memory = w.memory)
    (hf : w'.cache.find? key = w.cache.find? key) : w'.Live host key := by
  intro e he
  obtain ⟨found, w1, hx, hfound⟩ := h e (hf ▸ he)
  have hanswer : (Act.expired host e).Returns w' fun found' _ => found' = found := by
    unfold Act.expired at hx ⊢
    change e.expired (Act.consult host) w.now w = .ok found w1 at hx
    show (e.expired (Act.consult host) w'.now).Returns w' _
    rw [hn]
    unfold Entry.expired at hx ⊢
    cases hq : e.policy with
    | none =>
      rw [hq] at hx
      cases hx
      exact .pure rfl
    | some policy =>
      rw [hq] at hx
      cases policy with
      | custom predicate =>
        change Act.consult host predicate w.now w = .ok found w1 at hx
        show (Act.consult host predicate w.now).Returns w' _
        unfold Act.Returns Act.consult at *
        rw [hm]
        cases hr : host.consult predicate w.now w.memory with
        | mk answer m =>
          rw [hr] at hx
          cases answer with
          | error message => cases hx
          | ok b =>
            cases hx
            exact ⟨_, _, rfl, rfl⟩
      | _ =>
        cases hx
        exact .pure rfl
  exact hanswer.mono fun _ _ hb => hb.trans hfound

/-- A read of an entry that is not expired, or of none. -/
theorem Act.lookup_finds (invoke : Invoke ν η μ) {w : World ν η μ} {key : Key}
    (hl : w.Live host key) (retries : Nat) :
    (lookup host invoke .full key (retries + 1)).Returns w fun found w' =>
      found = w.value? key ∧ ∀ j, w.Preserves j w' := by
  unfold lookup
  refine .cache ?_
  cases hf : w.cache.find? key with
  | none =>
    refine .change (.note (.pure ⟨?_, fun _ => .of_entries rfl rfl⟩))
    unfold World.value?
    rw [hf]
    rfl
  | some e =>
    obtain ⟨found, w1, hx, rfl⟩ := hl e hf
    have hq := (expired_questions host e w).of_ok hx
    refine .bind (P := fun found v => found = false ∧ v.cache = w.cache)
      ⟨_, _, hx, rfl, hq.cache⟩ ?_
    rintro found w2 ⟨rfl, hc⟩
    refine .now (.change (.change (.note (.pure ⟨?_, ?_⟩))))
    · unfold World.value?
      rw [hf]
      rfl
    · intro j
      have ha : w2.cache.admission = w.cache.admission := by rw [hc]
      refine ⟨ha, (World.value?_touch w2.now key w2 j).trans ?_⟩
      unfold World.value?
      rw [hc]

theorem Act.lookup_live {w w' : World ν η μ} {key : Key} {retries : Nat} {found : Option ν}
    (hl : w.Live host key) (h : lookup host invoke .full key (retries + 1) w = .ok found w') :
    found = w.value? key ∧ ∀ j, w.Preserves j w' := by
  obtain ⟨found', w'', hx, hrest⟩ := lookup_finds invoke hl retries
  rw [h] at hx
  cases hx
  exact hrest

theorem Act.place_stores {w w' : World ν η μ} {key : Key} {value : ν}
    {policy : Option (Policy η)} {replaced : Option (Entry ν η)}
    (h : place key value policy w = .ok replaced w') :
    w'.cache.admission = w.cache.admission ∧
      ∀ j, w'.value? j = if j = key then some value else w.value? j := by
  rw [place_eq] at h
  cases h
  have hc := World.cache_placed key value policy w
  refine ⟨by rw [hc]; rfl, ?_⟩
  intro j
  unfold World.value?
  rw [hc, Cache.find?_insert]
  split <;> rfl

theorem Caller.Turn.sources {w w' : World ν η μ} {c c' : Caller ν}
    (h : c.Turn host invoke w w' c') (hc : c.Sound host) :
    (∀ value, c.stored = some value → c'.stored = some value) ∧
      ∀ key value, w'.value? key = some value →
        w.value? key = some value ∨ (key = c.key ∧ c'.stored = some value) := by
  cases h with
  | @read _ _ slot retries found hp ht hl h =>
    refine ⟨fun _ hs => hs, ?_⟩
    intro key value hv
    rw [((Act.lookup_live hl h).2 key).same] at hv
    exact Or.inl hv
  | @store _ _ made policy replaced ht h =>
    refine ⟨?_, ?_⟩
    · intro value hs
      cases hc with
      | holding => cases hs
      | _ => cases ht
    · intro key value hv
      rw [(Act.place_stores h).2] at hv
      split at hv
      · rename_i hk
        exact Or.inr ⟨hk, hv⟩
      · exact Or.inl hv
  | _ => exact ⟨fun _ hs => hs, fun _ _ hv => Or.inl hv⟩

/-- Only where a caller works it changes what is stored. -/
theorem Caller.Turn.elsewhere {w w' : World ν η μ} {c c' : Caller ν}
    (h : c.Turn host invoke w w' c') (key : Key) :
    w'.value? key = w.value? key ∨ (key = c.key ∧ c.works = true) := by
  cases h with
  | @read _ _ slot retries found hp ht hl h => exact Or.inl ((Act.lookup_live hl h).2 key).same
  | @store _ _ made policy replaced ht h =>
    rw [(Act.place_stores h).2]
    split
    · rename_i hk
      exact Or.inr ⟨hk, works_of_holding ht⟩
    · exact Or.inl rfl
  | _ => exact Or.inl rfl

theorem Caller.Turn.vacant {w w' : World ν η μ} {c c' : Caller ν}
    (h : c.Turn host invoke w w' c') (hv : c.works = true → w.value? c.key = none)
    (hw : c'.works = true) : w'.value? c'.key = none := by
  cases h with
  | refuse => cases hw
  | pass => exact hv hw
  | @read _ _ slot retries found hp ht hl h =>
    obtain ⟨rfl, hkeeps⟩ := Act.lookup_live hl h
    refine (hkeeps c.key).same.trans ?_
    cases hf : w.value? c.key with
    | none => rfl
    | some value =>
      rw [hf] at hw
      cases hw
  | make outcome ht => exact hv (works_of_missing ht)
  | store => cases hw

/-! ## One fetch by itself -/

namespace Crowd.Steps

variable {others : World ν η μ → World ν η μ → Prop} {start : Crowd ν η μ} {w w' : World ν η μ}
  {c c' : Caller ν} {cs : List (Caller ν)}

theorem turn (pre post : List (Caller ν))
    (h : Crowd.Steps host invoke others start ⟨w, pre ++ c :: post⟩)
    (ht : c.Turn host invoke w w' c') :
    Crowd.Steps host invoke others start ⟨w', pre ++ c' :: post⟩ :=
  Relation.ReflTransGen.tail h (.turn pre post ht)

theorem meanwhile (h : Crowd.Steps host invoke others start ⟨w, cs⟩) (w' : World ν η μ)
    (ho : others w w') : Crowd.Steps host invoke others start ⟨w', cs⟩ :=
  Relation.ReflTransGen.tail h (.others ho)

end Crowd.Steps

/-- The factory comes to one of these outcomes, and like all callbacks it leaves alone what is
stored under the key and who is inside. The others return. -/
structure Considerate (invoke : Invoke ν η μ) (key : Key) (factory : η) (makes : Made ν → Prop) :
    Prop where
  factory : ∀ w, (invoke (.factory factory key)).Ends w fun r w' =>
    w.Preserves key w' ∧ ∃ outcome, Act.caught r = .ok outcome ∧ makes outcome
  others : ∀ c, c.isFactory = false → ∀ w, (invoke c).Returns w fun _ w' => w.Preserves key w'

namespace Act

variable {w : World ν η μ} {key : Key} {factory : η} {makes : Made ν → Prop}

theorem policyFor_considerate (hi : Considerate invoke key factory makes)
    (policy : Option (Policy η)) (w : World ν η μ) :
    (policyFor invoke key policy).Returns w fun _ w' => w.Preserves key w' := by
  cases policy with
  | some policy => exact .pure (.refl key w)
  | none =>
    unfold policyFor
    refine .cache ?_
    cases w.cache.settings.defaultPolicy with
    | none => exact .pure (.refl key w)
    | some handler => exact hi.others _ rfl w

theorem releaseIfSet_considerate (hi : Considerate invoke key factory makes) (e : Entry ν η)
    (w : World ν η μ) : (releaseIfSet invoke key e).Returns w fun _ w' => w.Preserves key w' := by
  unfold releaseIfSet release
  refine .cache ?_
  split
  · refine .cache ?_
    cases w.cache.settings.release with
    | none => exact .pure (.refl key w)
    | some handler =>
      refine .bracket ((hi.others (.release handler key e.value) rfl _).mono ?_)
      intro _ w' h
      exact ⟨h.admission, h.same⟩
  · exact .pure (.refl key w)

theorem releaseReplaced_considerate (hi : Considerate invoke key factory makes)
    (replaced : Option (Entry ν η)) (w : World ν η μ) :
    (match replaced with
      | none => Pure.pure ()
      | some old => releaseIfSet invoke key old : Act ν η μ Unit).Returns w fun _ w' =>
        w.Preserves key w' := by
  cases replaced with
  | none => exact .pure (.refl key w)
  | some old => exact releaseIfSet_considerate hi old w

/-- An insertion that overwrites is a store with other work before and after it. -/
theorem insert_places (hi : Considerate invoke key factory makes) (host : Host ν η μ) (value : ν)
    (policy : Option (Policy η)) (w : World ν η μ) :
    (insert host invoke key value ⟨policy, true⟩).Returns w fun _ w' =>
      ∃ given replaced w1 w2, w.Preserves key w1 ∧ place key value given w1 = .ok replaced w2 ∧
        ∃ w3, w2.Preserves key w3 ∧ w3.Preserves key w' := by
  unfold insert
  refine .bind (policyFor_considerate hi policy w) ?_
  intro given w1 h1
  unfold store
  have hplace := place_eq w1 key value given
  refine .bind (P := fun replaced v => place key value given w1 = .ok replaced v)
    ⟨_, _, hplace, hplace⟩ ?_
  intro replaced w2 h2
  cases given with
  | none =>
    refine (releaseReplaced_considerate hi replaced w2).mono ?_
    intro _ w' h3
    exact ⟨none, replaced, w1, w2, h1, h2, w2, .refl key w2, h3⟩
  | some given =>
    have htimer : w2.Preserves key (w2.change .ensureTimer) := by
      refine .of_entries ?_ ?_
      · show (Cache.ensureTimer w2.cache).admission = _
        unfold Cache.ensureTimer
        split <;> rfl
      · show (Cache.ensureTimer w2.cache).entries = _
        unfold Cache.ensureTimer
        split <;> rfl
    refine .change ((releaseReplaced_considerate hi replaced _).mono ?_)
    intro _ w' h3
    exact ⟨some given, replaced, w1, w2, h1, h2, _, htimer, h3⟩

/-- What a fetch does once it is let in, step by step. -/
theorem fetchInside_turns {slot : Nat} {start : Crowd ν η μ} (pre post : List (Caller ν))
    (hi : Considerate invoke key factory makes) (hl : w.Live host key)
    (policy : Option (Policy η)) (retries : Nat)
    (h : Crowd.Steps host invoke (World.Preserves key) start
      ⟨w, pre ++ ⟨key, .inside slot, .unread, none, none⟩ :: post⟩) :
    (fetchInside host invoke key factory ⟨policy, false⟩ (retries + 1)).Ends w fun r w' =>
      ∃ received made stored, caught r = .ok received ∧
        (∀ outcome, made = some outcome → makes outcome) ∧
        Crowd.Steps host invoke (World.Preserves key) start
          ⟨w', pre ++ ⟨key, .inside slot, .done received, made, stored⟩ :: post⟩ := by
  obtain ⟨found, w1, hread, -⟩ := lookup_finds invoke hl retries
  have h1 := h.turn _ _ (.read retries rfl rfl hl hread)
  unfold fetchInside
  refine Returns.bind_ends (P := fun a v => found = a ∧ w1 = v) ⟨found, w1, hread, rfl, rfl⟩ ?_
  rintro _ _ ⟨rfl, rfl⟩
  cases found with
  | some value =>
    exact ends_pure.mpr ⟨_, none, none, rfl, nofun, h1⟩
  | none =>
    unfold make
    refine (hi.factory w1).bind ?_ ?_
    · rintro outcome w2 ⟨h2, made, hr, hmakes⟩
      cases hr
      have h3 := h1.meanwhile w2 h2
      have hmade : ∀ o, some (Except.ok outcome : Made ν) = some o → makes o := by
        rintro _ ⟨⟩
        exact hmakes
      cases outcome with
      | error message =>
        exact ends_pure.mpr ⟨_, _, none, rfl, hmade,
          h3.turn _ _ (.make (.ok (.error message)) rfl)⟩
      | ok value =>
        have h4 := h3.turn _ _ (.make (.ok (.ok value)) rfl)
        refine (insert_places hi host value policy w2).bind_ends ?_
        rintro _ w6 ⟨given, replaced, w3, w4, hbefore, hplace, w5, hafter, hlast⟩
        have h5 := (h4.meanwhile w3 hbefore).turn _ _ (.store rfl hplace)
        exact ends_pure.mpr ⟨_, _, _, rfl, hmade, (h5.meanwhile w5 hafter).meanwhile w6 hlast⟩
    · rintro e w2 ⟨h2, outcome, hr, hmakes⟩
      cases e with
      | panic message =>
        cases hr
        refine ⟨_, _, none, rfl, ?_,
          (h1.meanwhile w2 h2).turn _ _ (.make (.error message) rfl)⟩
        rintro _ ⟨⟩
        exact hmakes
      | exhausted => cases hr

/-- A fetch that nobody comes in between is the schedule of one caller's steps. -/
theorem fetch_turns {start : Crowd ν η μ} (pre post : List (Caller ν))
    (hi : Considerate invoke key factory makes) (hl : w.Live host key)
    (hadmits : w.cache.admission.admits key = true) (policy : Option (Policy η)) (retries : Nat)
    (h : Crowd.Steps host invoke (World.Preserves key) start ⟨w, pre ++ .coming key :: post⟩) :
    (fetch host invoke key factory ⟨policy, false⟩ (retries + 1)).Ends w fun r w' =>
      ∃ received made stored, caught r = .ok received ∧
        (∀ outcome, made = some outcome → makes outcome) ∧
        Crowd.Steps host invoke (World.Preserves key) start
          ⟨w', pre ++ ⟨key, .gone, .done received, made, stored⟩ :: post⟩ := by
  obtain ⟨⟨acquired, slot⟩, hq⟩ := Option.isSome_iff_exists.mp hadmits
  unfold fetch
  refine ends_cache.mpr ?_
  rw [hq]
  unfold Admission.acquire? at hq
  simp only [Option.map_eq_some_iff, Prod.mk.injEq] at hq
  obtain ⟨locked, hlock, rfl, rfl⟩ := hq
  cases ha : host.accepts key with
  | false =>
    exact ends_pure.mpr ⟨_, none, none, rfl, nofun,
      h.turn _ _ (.refuse rfl ha)⟩
  | true =>
    have h1 := h.turn _ _ (.pass (.enter _) (fun _ => ha) (fun _ hp => by cases hp))
    have h2 := h1.turn _ _ (.pass (.lock hlock) (fun hp => by cases hp) (fun _ hp => by cases hp))
    have h3 := h2.meanwhile ((w.withAdmission locked).push
      (.fetching key (w.cache.admission.enter key).2)) (.of_entries rfl rfl)
    refine ends_bracket ((fetchInside_turns pre post hi ?_ policy retries h3).mono ?_)
    · exact hl.congr rfl rfl rfl
    rintro r v ⟨received, made, stored, hr, hmade, h4⟩
    have h5 := h4.meanwhile v.pop (.of_entries rfl rfl)
    have h6 := h5.turn _ _ (.pass (.unlock _ _) (fun hp => by cases hp) fun _ _ => ⟨received, rfl⟩)
    have h7 := h6.turn _ _ (.pass (.retire _ _) (fun hp => by cases hp) (fun _ hp => by cases hp))
    have h8 := h7.turn _ _ (.pass (.leave _ _) (fun hp => by cases hp) (fun _ hp => by cases hp))
    exact ⟨received, made, stored, hr, hmade, h8⟩

end Act

end ExpiringCache
