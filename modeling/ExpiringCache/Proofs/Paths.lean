import ExpiringCache.Proofs.Operations
import ExpiringCache.Proofs.Questions

/-!
# Paths

Work of the engine is put together from a few kinds of step, and a relation between the beginning and
the end of work that every such step keeps is kept by the whole work, however it ends. What an
operation stores or takes out by itself is the only thing that depends on the operation: so a relation
may hold of the work of a host that performs certain operations only.
-/

namespace ExpiringCache

variable {ν η μ α β : Type}

/-- The callback makes no value but for such keys. -/
def Callback.MakesFor (F : Key → Prop) : Callback ν η → Prop
  | .factory _ key => F key
  | _ => True

theorem Callback.makesFor_all (c : Callback ν η) : c.MakesFor fun _ => True := by
  cases c <;> trivial

/-- A change of the timer or of the handlers only, by which no handler is lost and a running timer is
let alone. -/
structure Cache.Retunes (c d : Cache ν η) : Prop extends Cache.Aside c d where
  handle : d.handle = c.handle
  expiring : c.expiring <+: d.expiring
  expired : c.expired <+: d.expired
  timer : c.timerRunning = true → d.timer = c.timer

theorem Cache.retunes_ensureTimer (c : Cache ν η) : c.Retunes c.ensureTimer := by
  unfold ensureTimer
  split
  · exact ⟨⟨rfl, rfl, rfl, rfl, rfl⟩, rfl, List.prefix_rfl, List.prefix_rfl, fun _ => rfl⟩
  · rename_i hr
    exact ⟨⟨rfl, rfl, rfl, rfl, rfl⟩, rfl, List.prefix_rfl, List.prefix_rfl, fun h => absurd h hr⟩

theorem Cache.pending_of_mark {c : Cache ν η} {b : Bool} {key : Key} {g : Nat} {e : Entry ν η}
    (h : (c.mark b key g).insertion? key g = some e) : e.pending = b := by
  obtain ⟨hf, hg⟩ := Cache.insertion?_eq_some.mp h
  rw [find?_mark, if_pos rfl] at hf
  obtain ⟨e₀, -, rfl⟩ := Option.map_eq_some_iff.mp hf
  split at hg
  · rename_i h₀
    rw [if_pos h₀]
  · rename_i h₀
    exact absurd hg h₀

/-- The relation holds of what happens in work in which values are made for keys in `F` only. -/
structure Paths (R : World ν η μ → World ν η μ → Prop) (F : Key → Prop) : Prop where
  still (w : World ν η μ) : R w w
  trans {w v u : World ν η μ} (h : R w v) (k : R v u) : R w u
  memory {w : World ν η μ} (m : μ) : R w { w with memory := m }
  note {w : World ν η μ} (r : Record ν η) (hr : r.isRemark = true)
    (hf : ∀ c, r = .entered c → c.MakesFor F) : R w (w.note r)
  retune {w : World ν η μ} (f : Cache ν η → Cache ν η) (h : w.cache.Retunes (f w.cache)) :
    R w (w.change f)
  -- only a read of a live entry is an access
  touch {w : World ν η μ} (key : Key) (e : Entry ν η) (he : w.cache.find? key = some e)
    (hlive : e.due w.now = false) : R w (w.change (.touch w.now key))
  read {w : World ν η μ} (key : Key) (found : Bool) :
    R w ((w.change (.count fun s => if found then s.hit else s.miss)).note (.read key found))
  vetoed {w : World ν η μ} (g : Nat) (key : Key) (value : ν) (answers : List Decision)
    (h : Decision.cancel ∈ answers) :
    R w ((w.note (.decided g key value answers)).change (.count .cancellation))
  concluded {w v : World ν η μ} (g : Nat) (key : Key) (value : ν) (answers : List Decision)
    (u : Upshot) (h : Decision.cancel ∉ answers)
    (hp : ∀ e, w.cache.insertion? key g = some e → e.pending = false)
    (hv : (w.note (.decided g key value answers)).Commits key g u v) : R w v
  close {w : World ν η μ} (h : w.cache.handle = .givenUp ∧ w.busy = false) :
    R w (w.change fun c => { c.setTimer none with handle := .closed }).emptied
  during {w v : World ν η μ} (a : Activity ν η) (ha : a.isPlain = true) (h : R (w.push a) v) :
    R w v.pop
  deciding {w v : World ν η μ} (key : Key) (g : Nat) (e : Entry ν η)
    (he : w.cache.insertion? key g = some e) (hp : e.pending = false)
    (hdue : ∀ policy, e.policy = some policy → policy.isTimed = true → e.due w.now = true)
    (h : R ((w.change (.mark true key g)).push (.deciding key g)) v) :
    R w ((v.change (.mark false key g)).pop)
  holding {w v : World ν η μ} (key : Key) (acquired : Admission) (slot : Nat)
    (ha : w.cache.admission.acquire? key = some (acquired, slot))
    (h : R ((w.change ({ · with admission := acquired })).push (.fetching key slot)) v) :
    R w ((v.change fun c => { c with admission := c.admission.release key slot }).pop)

/-- New insertions under `key` are on the path. -/
def Stores (host : Host ν η μ) (R : World ν η μ → World ν η μ → Prop) (key : Key) : Prop :=
  host.accepts key = true →
    ∀ (w : World ν η μ) (value : ν) (policy : Option (Policy η)), R w (w.placed key value policy)

/-- What the operation makes, stores or takes out by itself is on the path. -/
def Permits (host : Host ν η μ) (R : World ν η μ → World ν η μ → Prop) (F : Key → Prop) :
    Operation ν η → Prop
  | .insert key _ _ => Stores host R key
  | .fetch key _ _ => F key ∧ Stores host R key
  | .race key _ _ _ => F key ∧ Stores host R key
  | .remove key => ∀ (w : World ν η μ) (e : Entry ν η), w.cache.find? key = some e →
      R w ((w.change (.takeOut key (.removed 1))).note (.left e.generation key e.value .removed))
  | .clear => ∀ w : World ν η μ, R w w.emptied
  | .drop => ∀ w : World ν η μ, R w (w.change .giveUp)
  | _ => True

/-- The program performs these operations only. -/
def Program.Only (ok : Operation ν η → Prop) : Program ν η μ α → Prop
  | .done _ => True
  | .panic _ => True
  | .clock next => ∀ t, (next t).Only ok
  | .wait _ next => next.Only ok
  | .load next => ∀ m, (next m).Only ok
  | .store _ next => next.Only ok
  | .perform op next => ok op ∧ ∀ r, (next r).Only ok

theorem Program.only_of_all {ok : Operation ν η → Prop} (h : ∀ op, ok op) (p : Program ν η μ α) :
    p.Only ok := by
  induction p with
  | done => trivial
  | panic => trivial
  | clock next ih => exact ih
  | wait span next ih => exact ih
  | load next ih => exact ih
  | store m next ih => exact ih
  | perform op next ih => exact ⟨h op, ih⟩

/-- The callbacks perform these operations only. -/
def Host.Only (host : Host ν η μ) (ok : Operation ν η → Prop) : Prop :=
  ∀ c, (host.respond c).Only ok

/-- The program may come to wait for this span. -/
def Program.Waits (span : Span) : Program ν η μ α → Prop
  | .done _ => False
  | .panic _ => False
  | .clock next => ∃ t, (next t).Waits span
  | .wait s next => s = span ∨ next.Waits span
  | .load next => ∃ m, (next m).Waits span
  | .store _ next => next.Waits span
  | .perform _ next => ∃ r, (next r).Waits span

/-- Some callback may. -/
def Host.Waits (host : Host ν η μ) (span : Span) : Prop := ∃ c, (host.respond c).Waits span

namespace Act

variable {R : World ν η μ → World ν η μ → Prop} {F : Key → Prop}

/-- The work leads along a path, however it ends. -/
def Follows (R : World ν η μ → World ν η μ → Prop) (x : Act ν η μ α) : Prop :=
  ∀ w, x.Ends w fun _ w' => R w w'

/-- The operation follows the path if the callbacks do. -/
def Admits (host : Host ν η μ) (R : World ν η μ → World ν η μ → Prop) (F : Key → Prop)
    (op : Operation ν η) : Prop :=
  ∀ depth retries : Nat, (∀ c, c.MakesFor F → (call host depth c).Follows R) →
    (carryOut host (call host depth) retries op).Follows R

section

variable {x : Act ν η μ α} {f : α → Act ν η μ β}

theorem Follows.attempt (h : x.Follows R) : (Act.attempt x).Follows R := fun w => ends_attempt (h w)

variable (hR : Paths R F)

include hR

namespace Follows

theorem pure {a : α} : (Pure.pure a : Act ν η μ α).Follows R := hR.still

theorem throw {e : Halt} : (throw e : Act ν η μ α).Follows R := hR.still

theorem bind (h : x.Follows R) (hf : ∀ a, (f a).Follows R) : (x >>= f).Follows R := by
  intro w
  refine (h w).bind ?_ fun _ _ hs => hs
  intro a v hs
  exact (hf a v).mono fun _ _ hr => hR.trans hs hr

omit hR in
theorem cache {f : Cache ν η → Act ν η μ β} (h : ∀ c, (f c).Follows R) :
    (Act.cache >>= f).Follows R := fun w => h w.cache w

omit hR in
theorem now {f : Instant → Act ν η μ β} (h : ∀ t, (f t).Follows R) :
    (Act.now >>= f).Follows R := fun w => h w.now w

theorem change {t : Cache ν η → Cache ν η} {f : Unit → Act ν η μ β}
    (ht : ∀ c : Cache ν η, c.Retunes (t c)) (h : (f ()).Follows R) :
    (Act.change t >>= f).Follows R :=
  fun w => (h (w.change t)).mono fun _ _ hr => hR.trans (hR.retune t (ht w.cache)) hr

theorem note {r : Record ν η} {f : Unit → Act ν η μ β} (hr : r.isRemark = true)
    (hf : ∀ c, r = .entered c → c.MakesFor F) (h : (f ()).Follows R) :
    (Act.note r >>= f).Follows R :=
  fun w => (h (w.note r)).mono fun _ _ hs => hR.trans (hR.note r hr hf) hs

theorem during {a : Activity ν η} (ha : a.isPlain = true) (h : x.Follows R) :
    (Act.during a x).Follows R :=
  fun w => ends_bracket ((h (w.push a)).mono fun _ _ hs => hR.during a ha hs)

theorem mapM {f : α → Act ν η μ β} (xs : List α) (h : ∀ a, (f a).Follows R) :
    (xs.mapM f).Follows R := by
  induction xs with
  | nil =>
    rw [List.mapM_nil]
    exact .pure hR
  | cons x xs ih =>
    rw [List.mapM_cons]
    exact .bind hR (h x) fun _ => .bind hR ih fun _ => .pure hR

theorem foldlM {f : β → α → Act ν η μ β} (xs : List α) (h : ∀ b a, (f b a).Follows R) :
    ∀ b, (xs.foldlM f b).Follows R := by
  induction xs with
  | nil => exact fun _ => .pure hR
  | cons x xs ih =>
    intro b
    rw [List.foldlM_cons]
    exact .bind hR (h b x) ih

theorem forM {f : α → Act ν η μ Unit} (xs : List α) (h : ∀ a, (f a).Follows R) :
    (xs.forM f).Follows R := by
  induction xs with
  | nil => exact .pure hR
  | cons x xs ih => exact .bind hR (h x) fun _ => ih

theorem filterM {p : α → Act ν η μ Bool} (xs : List α) (h : ∀ a, (p a).Follows R) :
    (xs.filterM p).Follows R := by
  have loop : ∀ acc, (xs.filterAuxM p acc).Follows R := by
    induction xs with
    | nil => exact fun _ => .pure hR
    | cons x xs ih => exact fun acc => .bind hR (h x) fun _ => ih _
  exact .bind hR (loop []) fun _ => .pure hR

end Follows

end

end Act

namespace Paths

variable {R : World ν η μ → World ν η μ → Prop} {F : Key → Prop} {w v : World ν η μ}

theorem asks (hR : Paths R F) {policy : Policy η} {answer : Option Bool}
    (h : w.Asks policy answer v) : R w v := by
  cases h with
  | timed => exact hR.still w
  | custom predicate answer m => exact hR.trans (hR.memory m) (hR.note _ rfl fun _ h => nomatch h)

end Paths

namespace Act

variable {R : World ν η μ → World ν η μ → Prop} {F : Key → Prop} {host : Host ν η μ}
  {invoke : Invoke ν η μ}

/-- Asking whether an entry is expired leaves the cache alone, and an entry found live is not due. -/
theorem expired_path (hR : Paths R F) (host : Host ν η μ) (e : Entry ν η) (w : World ν η μ) :
    (expired host e).Ends w fun r w' => R w w' ∧ w'.cache = w.cache ∧ w'.now = w.now ∧
      (r = .ok false → e.due w.now = false) := by
  cases hp : e.policy with
  | none =>
    apply (expired_timeless host hp w).mono
    rintro r w' ⟨-, rfl⟩
    exact ⟨hR.still w', rfl, rfl, fun _ => Entry.due_eq_false_of_policy hp _⟩
  | some policy =>
    apply (expired_asks host hp w).mono
    intro r w' ha
    refine ⟨hR.asks ha, ha.cache, ha.now, ?_⟩
    rintro rfl
    rw [Entry.due_eq_reached hp]
    cases ht : policy.isTimed with
    | true => exact ha.reached ht
    | false =>
      cases policy with
      | custom => rfl
      | _ => cases ht

theorem expired_follows (hR : Paths R F) (host : Host ν η μ) (e : Entry ν η) :
    (expired host e).Follows R := fun w => (expired_path hR host e w).mono fun _ _ h => h.1

theorem readEnds_follows (hR : Paths R F) (access : Access) (key : Key) (found : Option ν) :
    (readEnds access key found : Act ν η μ (Option ν)).Follows R := by
  unfold readEnds
  split
  · intro w
    exact hR.read key found.isSome
  · exact .pure hR

theorem occupied_follows (hR : Paths R F) (host : Host ν η μ) (key : Key) :
    (occupied host key).Follows R := by
  refine .cache fun c => ?_
  cases c.find? key with
  | none => exact .pure hR
  | some e =>
    dsimp only
    split
    · exact .pure hR
    · exact .bind hR (expired_follows hR host e) fun _ => .pure hR

theorem liveKeys_follows (hR : Paths R F) (host : Host ν η μ) : (liveKeys host).Follows R := by
  refine .cache fun c => .bind hR (.filterM hR _ fun r => ?_) fun _ => .pure hR
  split
  · exact .pure hR
  · exact .bind hR (expired_follows hR host r.2) fun _ => .pure hR

theorem resume_follows (hR : Paths R F) (result : Except String α) :
    (resume result : Act ν η μ α).Follows R := by
  cases result with
  | ok a => exact .pure hR
  | error message => exact .throw hR

theorem Follows.keyed (hR : Paths R F) {work : Act ν η μ (Answer ν)} {key : Key}
    (h : host.accepts key = true → work.Follows R) : (keyed host key work).Follows R := by
  unfold Act.keyed
  split
  · rename_i ha
    exact h ha
  · exact .pure hR

section

variable (hR : Paths R F) (hi : ∀ c, c.MakesFor F → (invoke c).Follows R)

include hR hi

/-! ## Expiry -/

theorem release_follows (key : Key) (e : Entry ν η) : (release invoke key e).Follows R := by
  refine .cache fun c => ?_
  cases c.settings.release with
  | none => exact .pure hR
  | some handler => exact .during hR rfl (hi _ trivial)

theorem releaseIfSet_follows (key : Key) (e : Entry ν η) :
    (releaseIfSet invoke key e).Follows R := by
  refine .cache fun c => ?_
  split
  · exact release_follows hR hi key e
  · exact .pure hR

theorem askExpiring_follows (g : Nat) (key : Key) (value : ν) (policy : Policy η) :
    (askExpiring invoke g key value policy).Follows R :=
  .note hR rfl (fun _ h => nomatch h) (.cache fun _ => .mapM hR _ fun _ => hi _ trivial)

theorem tellExpired_follows (g : Nat) (key : Key) (value : ν) (initial : Disposal) :
    (tellExpired invoke g key value initial).Follows R :=
  .note hR rfl (fun _ h => nomatch h) (.cache fun _ =>
    .foldlM hR _ (fun running handler => hi (.expired handler key value running) trivial) initial)

theorem disposeEvicted_follows (key : Key) (gone : Entry ν η) :
    (disposeEvicted invoke key gone).Follows R := by
  have htell := tellExpired_follows hR hi gone.generation key gone.value
  refine .cache fun c => .bind hR (.during hR rfl (htell _)) fun final =>
    .note hR rfl (fun _ h => nomatch h) ?_
  split
  · exact release_follows hR hi key gone
  · exact .pure hR

theorem expire_follows (host : Host ν η μ) (key : Key) (g : Nat) :
    (expire host invoke key g).Follows R := by
  intro w
  unfold expire
  refine (candidate?_asks host key g w).bind ?_ ?_
  · rintro found w1 ⟨hw1, hfound⟩
    have h1 : R w w1 := by
      rcases hw1 with rfl | ⟨policy, ha⟩
      · exact hR.still w1
      · exact hR.asks ha
    match found, hfound with
    | none, _ => exact h1
    | some (e, policy), hfound =>
      obtain ⟨he, hp, hq, ha⟩ := hfound e policy rfl
      have hdue : ∀ p, e.policy = some p → p.isTimed = true → e.due w1.now = true := by
        intro p hp' ht
        obtain rfl : policy = p := Option.some.inj (hq.symm.trans hp')
        rw [Entry.due_eq_reached hq, ha.now]
        exact ha.reached ht
      rw [← ha.cache] at he
      refine Ends.bind (P := fun _ w' => R w w' ∧
        ∀ e', w'.cache.insertion? key g = some e' → e'.pending = false) ?_ ?_ fun _ _ hs => hs.1
      · refine ends_bracket ((askExpiring_follows hR hi g key e.value policy _).mono ?_)
        intro r w2 hs
        exact ⟨hR.trans h1 (hR.deciding key g e he hp hdue hs), fun _ => Cache.pending_of_mark⟩
      · rintro answers w2 ⟨h2, hfree⟩
        apply ends_note.mpr
        split
        · rename_i hv
          have hcancel : Decision.cancel ∈ answers := List.contains_iff_mem.mp hv
          exact ends_change.mpr
            (ends_pure.mpr (hR.trans h2 (hR.vetoed g key e.value answers hcancel)))
        · rename_i hv
          have hno : Decision.cancel ∉ answers := fun h => hv (List.contains_iff_mem.mpr h)
          apply (commit_commits host key g _).bind
          · rintro r w3 ⟨hc, -⟩
            have h3 : R w w3 := hR.trans h2 (hR.concluded g key e.value answers _ hno hfree hc)
            cases r with
            | none => exact h3
            | some gone =>
              have hrest := Follows.bind hR (disposeEvicted_follows hR hi key gone)
                (f := fun _ => Pure.pure (Fate.evicted (ν := ν))) fun _ => .pure hR
              exact (hrest w3).mono fun _ _ h4 => hR.trans h3 h4
          · rintro error w3 ⟨hc, -⟩
            exact hR.trans h2 (hR.concluded g key e.value answers _ hno hfree hc)
  · rintro error w1 ⟨hw1, -⟩
    rcases hw1 with rfl | ⟨policy, ha⟩
    · exact hR.still w1
    · exact hR.asks ha

/-! ## Operations -/

theorem lookup_follows (host : Host ν η μ) (access : Access) (key : Key) (retries : Nat) :
    (lookup host invoke access key retries).Follows R := by
  induction retries with
  | zero => exact .throw hR
  | succ retries ih =>
    intro w
    unfold lookup
    apply ends_cache.mpr
    cases hf : w.cache.find? key with
    | none => exact readEnds_follows hR access key none w
    | some e =>
      refine (expired_path hR host e w).bind ?_ fun _ _ h => h.1
      rintro found w1 ⟨h1, hc, hn, hlive⟩
      cases found with
      | false =>
        rw [if_pos (show (!false) = true from rfl)]
        dsimp only
        split
        · refine ends_now.mpr (ends_change.mpr ((readEnds_follows hR _ key (some e.value) _).mono ?_))
          intro r w2 h2
          have htouch : R w1 (w1.change (.touch w1.now key)) := by
            apply hR.touch key e
            · rw [hc, hf]
            · rw [hn]
              exact hlive rfl
          exact hR.trans h1 (hR.trans htouch h2)
        · exact (readEnds_follows hR access key (some e.value) w1).mono fun _ _ h => hR.trans h1 h
      | true =>
        rw [if_neg (show ¬(!true) = true by decide)]
        refine Ends.mono (P := fun _ w' => R w1 w') ?_ fun _ _ h => hR.trans h1 h
        split
        · exact readEnds_follows hR access key (some e.value) w1
        · refine Follows.bind hR (expire_follows hR hi host key e.generation) (fun fate => ?_) w1
          cases fate with
          | evicted => exact readEnds_follows hR access key none
          | cancelled value => exact readEnds_follows hR access key (some value)
          | stale => exact .note hR rfl (fun _ h => by cases h) ih

theorem policyFor_follows (key : Key) (given : Option (Policy η)) :
    (policyFor invoke key given).Follows R := by
  cases given with
  | some policy => exact .pure hR
  | none =>
    refine .cache fun c => ?_
    cases c.settings.defaultPolicy with
    | none => exact .pure hR
    | some handler => exact hi (.defaultPolicy handler key) trivial

theorem store_follows {key : Key} (hs : ∀ (w : World ν η μ) (value : ν) (policy : Option (Policy η)),
    R w (w.placed key value policy)) (value : ν) (policy : Option (Policy η)) :
    (store invoke key value policy).Follows R := by
  have tended : ∀ rest : Act ν η μ Unit, rest.Follows R →
      (do if policy.isSome then change .ensureTimer
          rest).Follows R := by
    intro rest hrest
    cases policy with
    | none => exact hrest
    | some policy => exact .change hR Cache.retunes_ensureTimer hrest
  have placed : (place key value policy : Act ν η μ (Option (Entry ν η))).Follows R := by
    intro w
    unfold Ends
    rw [place_eq]
    exact hs w value policy
  refine .bind hR placed fun replaced => ?_
  cases replaced with
  | none => exact tended _ (.pure hR)
  | some old => exact tended _ (releaseIfSet_follows hR hi key old)

theorem insert_follows (host : Host ν η μ) {key : Key}
    (hs : ∀ (w : World ν η μ) (value : ν) (policy : Option (Policy η)),
      R w (w.placed key value policy)) (value : ν) (options : Options η) :
    (insert host invoke key value options).Follows R := by
  refine .bind hR (policyFor_follows hR hi key options.policy) fun policy => ?_
  split
  · exact store_follows hR hi hs value policy
  · refine .bind hR (occupied_follows hR host key) fun taken => ?_
    split
    · exact .pure hR
    · exact store_follows hR hi hs value policy

theorem make_follows (host : Host ν η μ) {key : Key} (hF : F key)
    (hs : ∀ (w : World ν η μ) (value : ν) (policy : Option (Policy η)),
      R w (w.placed key value policy)) (factory : η) (options : Options η) :
    (make host invoke key factory options).Follows R := by
  refine .bind hR (hi (.factory factory key) hF) fun made => ?_
  cases made with
  | error message => exact .pure hR
  | ok value => exact .bind hR (insert_follows hR hi host hs value _) fun _ => .pure hR

theorem fetchInside_follows (host : Host ν η μ) {key : Key} (hF : F key)
    (hs : ∀ (w : World ν η μ) (value : ν) (policy : Option (Policy η)),
      R w (w.placed key value policy)) (factory : η) (options : Options η) (retries : Nat) :
    (fetchInside host invoke key factory options retries).Follows R := by
  unfold fetchInside
  split
  · exact make_follows hR hi host hF hs factory options
  · refine .bind hR (lookup_follows hR hi host .full key retries) fun found => ?_
    cases found with
    | none => exact make_follows hR hi host hF hs factory options
    | some value => exact .pure hR

omit hi in
theorem fetch_follows {host : Host ν η μ} {key : Key} {factory : η} {options : Options η}
    {retries : Nat} (h : host.accepts key = true →
      (fetchInside host invoke key factory options retries).Follows R) :
    (fetch host invoke key factory options retries).Follows R := by
  intro w
  unfold fetch
  apply ends_cache.mpr
  cases ha : w.cache.admission.acquire? key with
  | none => exact hR.still w
  | some entered =>
    obtain ⟨acquired, slot⟩ := entered
    show (if host.accepts key = true then _ else _ : Act ν η μ (Fetched ν)).Ends w _
    split
    · rename_i hk
      refine ends_bracket ((h hk _).mono ?_)
      exact fun _ _ hs => hR.holding key acquired slot ha hs
    · exact hR.still w

omit hi in
theorem race_follows {host : Host ν η μ} {key : Key} {factory : η} {options : Options η}
    {retries : Nat} (h : (fetch host invoke key factory options retries).Follows R)
    (callers : Nat) : (race host invoke key factory options retries callers).Follows R := by
  induction callers with
  | zero => exact .pure hR
  | succ callers ih => exact .bind hR h fun _ => .bind hR ih fun _ => .pure hR

theorem remove_follows {key : Key} (ht : ∀ (w : World ν η μ) (e : Entry ν η),
    w.cache.find? key = some e → R w ((w.change (.takeOut key (.removed 1))).note
      (.left e.generation key e.value .removed))) : (remove invoke key).Follows R := by
  intro w
  unfold remove
  apply ends_cache.mpr
  cases hf : w.cache.find? key with
  | none => exact hR.still w
  | some e =>
    refine ends_change.mpr (ends_note.mpr ?_)
    have hrest := Follows.bind hR (releaseIfSet_follows hR hi key e)
      (f := fun _ => Pure.pure true) fun _ => .pure hR
    exact (hrest _).mono fun _ _ hs => hR.trans (ht w e hf) hs

theorem clear_ends_path {w v : World ν η μ} (h : R v w.emptied) :
    (clear invoke).Ends w fun _ w' => R v w' := by
  unfold clear
  apply ends_takeAll
  exact (Follows.forM hR w.cache.entries.rows (fun r => releaseIfSet_follows hR hi r.1 r.2) _).mono
    fun _ _ hs => hR.trans h hs

theorem closeUnused_follows : (closeUnused invoke).Follows R := by
  intro w
  unfold closeUnused
  apply ends_get.mpr
  split
  · rename_i h
    exact ends_change.mpr (clear_ends_path hR hi (hR.close h))
  · exact hR.still w

theorem sweep_follows (host : Host ν η μ) : (sweep host invoke).Follows R := by
  have listed : (candidates host).Follows R := by
    refine .cache fun c => .bind hR (.filterM hR _ fun r => ?_) fun _ => .pure hR
    split
    · exact .pure hR
    · exact expired_follows hR host r.2
  refine .bind hR listed fun cs => .foldlM hR _ (fun n c => ?_) 0
  refine .bind hR (expire_follows hR hi host c.1 c.2) fun fate => ?_
  cases fate <;> exact .pure hR

theorem carryOut_follows (host : Host ν η μ) (retries : Nat) {op : Operation ν η}
    (hop : Permits host R F op) : (carryOut host invoke retries op).Follows R := by
  cases op with
  | insert key value options =>
    exact .keyed hR fun ha =>
      .bind hR (insert_follows hR hi host (hop ha) value options) fun _ => .pure hR
  | get key =>
    exact .keyed hR fun _ =>
      .bind hR (lookup_follows hR hi host .full key retries) fun _ => .pure hR
  | contains key =>
    exact .keyed hR fun _ =>
      .bind hR (lookup_follows hR hi host .peek key retries) fun _ => .pure hR
  | fetch key factory options =>
    have hfetch := fetch_follows hR fun ha =>
      fetchInside_follows hR hi host hop.1 (hop.2 ha) factory options retries
    refine .bind hR hfetch fun r => ?_
    cases r <;> exact .pure hR
  | race key factory options callers =>
    have hfetch := fetch_follows hR fun ha =>
      fetchInside_follows hR hi host hop.1 (hop.2 ha) factory options retries
    refine .cache fun c => ?_
    split
    · exact .bind hR (race_follows hR hfetch callers) fun _ => .pure hR
    · exact .pure hR
  | remove key => exact .keyed hR fun _ => .bind hR (remove_follows hR hi hop) fun _ => .pure hR
  | clear =>
    have hclear : (clear invoke).Follows R := fun w => clear_ends_path hR hi (hop w)
    exact .bind hR hclear fun _ => .pure hR
  | sweep => exact .bind hR (sweep_follows hR hi host) fun _ => .pure hR
  | length => exact .cache fun _ => .pure hR
  | keys => exact .bind hR (liveKeys_follows hR host) fun _ => .pure hR
  | statistics => exact .cache fun _ => .pure hR
  | timerRunning => exact .cache fun _ => .pure hR
  | onExpiring handler =>
    exact .change hR (fun _ => ⟨⟨rfl, rfl, rfl, rfl, rfl⟩, rfl, List.prefix_append ..,
      List.prefix_rfl, fun _ => rfl⟩) (.pure hR)
  | onExpired handler =>
    exact .change hR (fun _ => ⟨⟨rfl, rfl, rfl, rfl, rfl⟩, rfl, List.prefix_rfl,
      List.prefix_append .., fun _ => rfl⟩) (.pure hR)
  | drop => exact fun w => hop w

omit hi in
theorem Permits.admits {op : Operation ν η} (h : Permits host R F op) : Admits host R F op :=
  fun _ retries hi => carryOut_follows hR hi host retries h

theorem operate_follows {host : Host ν η μ} {retries : Nat} {op : Operation ν η}
    (h : (carryOut host invoke retries op).Follows R) :
    (operate host invoke retries op).Follows R := by
  have carried : (attempt (during (.operation op) (carryOut host invoke retries op))).Follows R :=
    .attempt (.during hR rfl h)
  refine .bind hR (.attempt (.bind hR carried fun result =>
    .bind hR (closeUnused_follows hR hi) fun _ => resume_follows hR result)) fun result =>
      .note hR rfl (fun _ h => nomatch h) (resume_follows hR result)

/-! ## Ticks -/

variable (hset : ∀ (timer : Option Timer) (w : World ν η μ), R w (w.change (.setTimer timer)))

include hset

theorem tick_follows (host : Host ν η μ) : (tick host invoke).Follows R := by
  refine .bind hR (sweep_follows hR hi host) fun _ => .cache fun c => ?_
  split
  · exact hset none
  · exact .pure hR

theorem guardedTick_follows (host : Host ν η μ) : (guardedTick host invoke).Follows R := by
  refine .bind hR (.attempt (tick_follows hR hi hset host)) fun r => ?_
  cases r with
  | ok _ => exact .pure hR
  | error _ => exact fun w => hset (w.cache.timer.map fun _ => .ended) w

end

/-! ## The timer's loops -/

section

variable {host : Host ν η μ} {invoke : Invoke ν η μ} (still : ∀ w, R w w)
  (trans : ∀ {w v u}, R w v → R v u → R w u)
  (hset : ∀ (timer : Option Timer) (w : World ν η μ), R w (w.change (.setTimer timer)))

include still trans hset

section

variable (htick : (guardedTick host invoke).Follows R)

include htick

theorem runDue_follows (moment : Instant) (bound : Nat) :
    (runDue host invoke moment bound).Follows R := by
  have set : ∀ (timer : Option Timer) {x : Act ν η μ Unit}, x.Follows R →
      (Act.change (.setTimer timer) >>= fun _ => x).Follows R :=
    fun timer x h w => (h _).mono fun _ _ hs => trans (hset timer w) hs
  induction bound with
  | zero => exact still
  | succ bound ih =>
    have ticked : (guardedTick host invoke >>= fun _ => runDue host invoke moment bound).Follows R :=
      fun w => (htick w).bind (fun _ v hv => (ih v).mono fun _ _ hs => trans hv hs) fun _ _ hv => hv
    refine .cache fun c => ?_
    split
    · exact set _ ih
    · split
      · exact set _ ticked
      · exact still
    · exact still

theorem catchUp_follows (bound : Nat) : (catchUp host invoke bound).Follows R := by
  induction bound with
  | zero => exact still
  | succ bound ih =>
    refine .now fun moment w => ?_
    refine (runDue_follows still trans hset htick moment bound w).bind ?_ fun _ _ hv => hv
    intro _ v hv
    apply ends_now.mpr
    split
    · exact (ih v).mono fun _ _ hs => trans hv hs
    · exact hv

end

/-- What the ticks and the settings of the timer keep is kept by the timer's part of a turn. -/
theorem settle_of_ticks {bound : Nat} (htick : (guardedTick host (call host bound)).Follows R) :
    (settle host bound).Follows R := by
  refine .cache fun c => ?_
  split
  · exact catchUp_follows still trans hset htick bound
  · exact still

end

/-! ## Programs and turns -/

section

variable (hR : Paths R F) {ok : Operation ν η → Prop}

include hR

theorem run_follows {perform : Operation ν η → Act ν η μ (Answer ν)}
    (hp : ∀ op, ok op → (perform op).Follows R) (p : Program ν η μ α) (h : p.Only ok)
    (hw : ∀ span, p.Waits span → ∀ w : World ν η μ, R w { w with now := w.now.advance span }) :
    (p.run perform).Follows R := by
  induction p with
  | done a => exact .pure hR
  | panic message => exact .throw hR
  | clock next ih => exact .now fun t => ih t (h t) fun span hs => hw span ⟨t, hs⟩
  | wait span next ih =>
    intro w
    exact (ih h (fun s hs => hw s (Or.inr hs)) { w with now := w.now.advance span }).mono
      fun _ _ hs => hR.trans (hw span (Or.inl rfl) w) hs
  | load next ih =>
    exact fun w => ih w.memory (h w.memory) (fun span hs => hw span ⟨w.memory, hs⟩) w
  | store m next ih =>
    intro w
    exact (ih h hw { w with memory := m }).mono fun _ _ hs => hR.trans (hR.memory m) hs
  | perform op next ih =>
    exact .bind hR (.attempt (hp op h.1)) fun r => ih r (h.2 r) fun span hs => hw span ⟨r, hs⟩

variable (hwait : ∀ span, host.Waits span → ∀ w : World ν η μ,
  R w { w with now := w.now.advance span })

include hwait

theorem callVia_follows {perform : Operation ν η → Act ν η μ (Answer ν)}
    (hp : ∀ op, ok op → (perform op).Follows R) (hhost : host.Only ok) (c : Callback ν η)
    (hc : c.MakesFor F) : (callVia host perform c).Follows R := by
  have responds := run_follows hR hp (host.respond c) (hhost c) fun span h => hwait span ⟨c, h⟩
  refine .note hR rfl (fun _ h => by cases h; exact hc) (.bind hR (.attempt responds) fun r => ?_)
  cases r with
  | ok answer => exact .note hR rfl (fun _ h => nomatch h) (.pure hR)
  | error message => exact .note hR rfl (fun _ h => nomatch h) (.throw hR)

variable (hok : ∀ op, ok op → Admits host R F op) (hhost : host.Only ok)

include hok hhost

theorem perform_follows (depth : Nat) :
    ∀ op, Admits host R F op → (perform host depth op).Follows R := by
  induction depth with
  | zero => exact fun op _ => .throw hR
  | succ depth ih =>
    intro op hop
    refine .cache fun c => ?_
    split
    · have hi := callVia_follows hR hwait (fun op h => ih op (hok op h)) hhost
      exact operate_follows hR hi (hop depth depth hi)
    · exact .pure hR

theorem call_follows (depth : Nat) (c : Callback ν η) (hc : c.MakesFor F) :
    (call host depth c).Follows R :=
  callVia_follows hR hwait (fun op h => perform_follows hR hwait hok hhost depth op (hok op h)) hhost
    c hc

variable (hset : ∀ (timer : Option Timer) (w : World ν η μ), R w (w.change (.setTimer timer)))

include hset

theorem settle_follows (bound : Nat) : (settle host bound).Follows R :=
  settle_of_ticks hR.still hR.trans hset
    (guardedTick_follows hR (call_follows hR hwait hok hhost bound) hset host)

theorem turn_follows (bound : Nat) (p : Program ν η μ α) (hp : p.Only (Admits host R F))
    (hw : ∀ span, p.Waits span → ∀ w : World ν η μ, R w { w with now := w.now.advance span }) :
    (turn host bound p).Follows R := by
  have hrun := run_follows hR (perform_follows hR hwait hok hhost bound) p hp hw
  exact .bind hR (.attempt hrun) fun _ =>
    .bind hR (settle_follows hR hwait hok hhost hset bound) fun _ => .pure hR

end

/-- Whatever the host performs, waits for and decides is on the path, and so are the timer's beats. -/
structure Governs (host : Host ν η μ) (R : World ν η μ → World ν η μ → Prop) : Prop where
  paths : Paths R fun _ => True
  elapsed (span : Span) (w : World ν η μ) : R w { w with now := w.now.advance span }
  scheduled (timer : Option Timer) (w : World ν η μ) : R w (w.change (.setTimer timer))
  admits (op : Operation ν η) : Admits host R (fun _ => True) op

namespace Governs

variable {host : Host ν η μ} (h : Governs host R)

include h

theorem only : host.Only (Admits host R fun _ => True) :=
  fun c => Program.only_of_all h.admits (host.respond c)

theorem perform (depth : Nat) (op : Operation ν η) : (Act.perform host depth op).Follows R :=
  perform_follows h.paths (fun span _ => h.elapsed span) (fun _ hop => hop) h.only depth op
    (h.admits op)

theorem run (depth : Nat) (p : Program ν η μ α) : (p.run (Act.perform host depth)).Follows R :=
  run_follows h.paths (fun op _ => h.perform depth op) p (Program.only_of_all h.admits p)
    fun span _ => h.elapsed span

theorem call (depth : Nat) (c : Callback ν η) : (Act.call host depth c).Follows R :=
  call_follows h.paths (fun span _ => h.elapsed span) (fun _ hop => hop) h.only depth c
    c.makesFor_all

theorem settle (bound : Nat) : (Act.settle host bound).Follows R :=
  settle_follows h.paths (fun span _ => h.elapsed span) (fun _ hop => hop) h.only h.scheduled bound

theorem turn (bound : Nat) (p : Program ν η μ α) : (Act.turn host bound p).Follows R :=
  turn_follows h.paths (fun span _ => h.elapsed span) (fun _ hop => hop) h.only h.scheduled bound p
    (Program.only_of_all h.admits p) fun span _ => h.elapsed span

end Governs

end Act

namespace Paths

open Act

variable {R : World ν η μ → World ν η μ → Prop} {host : Host ν η μ}
  (hR : Paths R fun _ => True) (stores : ∀ key, Stores host R key)
  (removes : ∀ key (w : World ν η μ) (e : Entry ν η), w.cache.find? key = some e →
    R w ((w.change (.takeOut key (.removed 1))).note (.left e.generation key e.value .removed)))
  (empties : ∀ w : World ν η μ, R w w.emptied) (drops : ∀ w : World ν η μ, R w (w.change .giveUp))

include stores removes empties drops

/-- A path is open to every operation if it leads along whatever one stores or takes out. -/
theorem permits (op : Operation ν η) : Permits host R (fun _ => True) op := by
  cases op with
  | insert key => exact stores key
  | fetch key => exact ⟨trivial, stores key⟩
  | race key => exact ⟨trivial, stores key⟩
  | remove key => exact removes key
  | clear => exact empties
  | drop => exact drops
  | _ => trivial

include hR

theorem admits (op : Operation ν η) : Admits host R (fun _ => True) op :=
  Permits.admits hR (permits stores removes empties drops op)

end Paths

end ExpiringCache
