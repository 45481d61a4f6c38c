import ExpiringCache.Engine.Session
import ExpiringCache.Proofs.Admission
import ExpiringCache.Proofs.Execution
import ExpiringCache.Proofs.TimedMap

/-!
# Caches of quiet hosts

A host is quiet if its functions neither use the cache nor panic, never veto an eviction, and give
policies with deadlines only; they may take time and use the host's memory. With such a host and
such policies every piece of work returns, and what it leaves in the cache shows the timed map: the
live parts agree, key by key, whatever expired entries are still stored.
-/

namespace ExpiringCache

variable {ν η μ α : Type}

/-- The program neither performs operations nor panics, and answers `P`. -/
def Program.Calm (P : α → Prop) : Program ν η μ α → Prop
  | .done a => P a
  | .panic _ => False
  | .clock next => ∀ t, (next t).Calm P
  | .wait _ next => next.Calm P
  | .load next => ∀ m, (next m).Calm P
  | .store _ next => next.Calm P
  | .perform _ _ => False

def Callback.Welcome : (c : Callback ν η) → c.Answer → Prop
  | .expiring .., answer => answer = .proceed
  | .defaultPolicy .., policy => ∀ p, policy = some p → p.isTimed = true
  | _, _ => True

def Host.Quiet (host : Host ν η μ) : Prop := ∀ c, (host.respond c).Calm c.Welcome

/-- A host that makes the same value for every key, and lets everything else pass. -/
def Host.obliging (value : ν) : Host ν η μ where
  accepts _ := true
  consult _ _ memory := (.ok false, memory)
  respond
    | .expiring .. => .done .proceed
    | .expired _ _ _ running => .done running
    | .release .. => .done ()
    | .factory .. => .done (.ok value)
    | .defaultPolicy .. => .done none

theorem Host.obliging_quiet (value : ν) : (Host.obliging value : Host ν η μ).Quiet := by
  intro c
  cases c with
  | expiring => exact rfl
  | defaultPolicy =>
    intro p hp
    cases hp
  | _ => trivial

namespace Line

/-- The line supplies and stores nothing. -/
def silent (l : Line ν η) : Bool := !l.supplies && !l.stores

end Line

/-- Time may pass, and entries may change, but nothing is supplied or stored. -/
structure Quietly (w w' : World ν η μ) : Prop where
  now : w.now ≤ w'.now
  calls : w'.calls = w.calls
  settings : w'.cache.settings = w.cache.settings
  admission : w'.cache.admission = w.cache.admission
  handle : w'.cache.handle = w.cache.handle
  journal : ∃ seg, w'.journal = seg ++ w.journal ∧ ∀ l ∈ seg, l.silent = true

namespace Quietly

variable {w w' w'' : World ν η μ}

theorem refl (w : World ν η μ) : Quietly w w := by
  refine ⟨Int.le_refl _, rfl, rfl, rfl, rfl, [], rfl, ?_⟩
  intro l hl
  cases hl

theorem trans (h : Quietly w w') (k : Quietly w' w'') : Quietly w w'' :=
  ⟨Int.le_trans h.now k.now, k.calls.trans h.calls, k.settings.trans h.settings,
    k.admission.trans h.admission, k.handle.trans h.handle, written_trans h.journal k.journal⟩

theorem note {r : Record ν η} (hr : (Line.mk r w.now w.calls w.cache).silent = true) :
    Quietly w (w.note r) := by
  refine ⟨Int.le_refl _, rfl, rfl, rfl, rfl, [_], rfl, ?_⟩
  intro l hl
  rw [List.mem_singleton.mp hl]
  exact hr

theorem change {f : Cache ν η → Cache ν η} (hs : (f w.cache).settings = w.cache.settings)
    (ha : (f w.cache).admission = w.cache.admission) (hh : (f w.cache).handle = w.cache.handle) :
    Quietly w (w.change f) := by
  refine ⟨Int.le_refl _, rfl, hs, ha, hh, [], rfl, ?_⟩
  intro l hl
  cases hl

theorem inside {a : Activity ν η} (h : Quietly (w.push a) w') : Quietly w w'.pop := by
  obtain ⟨seg, hj, hs⟩ := h.journal
  refine ⟨h.now, ?_, h.settings, h.admission, h.handle, seg, hj, hs⟩
  show w'.calls.tail = w.calls
  rw [h.calls]
  rfl

end Quietly

namespace Act

variable {host : Host ν η μ} {invoke : Invoke ν η μ} {w : World ν η μ} {key : Key}

/-- The two lines of a callback that lasted from `w` to `w'`. -/
def callLines (c : Callback ν η) (v : c.Answer) (w w' : World ν η μ) : List (Line ν η) :=
  [⟨.returned c v, w'.now, w.calls, w.cache⟩, ⟨.entered c, w.now, w.calls, w.cache⟩]

/-- Every callback returns a welcome answer, and leaves the cache alone. -/
def Answers (invoke : Invoke ν η μ) : Prop :=
  ∀ (c : Callback ν η) (w : World ν η μ), (invoke c).Returns w fun v w' =>
    c.Welcome v ∧ w'.cache = w.cache ∧ w'.calls = w.calls ∧ w.now ≤ w'.now ∧
    w'.journal = callLines c v w w' ++ w.journal

theorem run_calm {perform : Operation ν η → Act ν η μ (Answer ν)} {P : α → Prop}
    (p : Program ν η μ α) (hp : p.Calm P) : ∀ w : World ν η μ, (p.run perform).Returns w fun v w' =>
      P v ∧ w'.cache = w.cache ∧ w'.calls = w.calls ∧ w.now ≤ w'.now ∧ w'.journal = w.journal := by
  induction p with
  | done a =>
    intro w
    exact .pure ⟨hp, rfl, rfl, Int.le_refl _, rfl⟩
  | panic => exact hp.elim
  | clock next ih =>
    intro w
    exact .now (ih w.now (hp w.now) w)
  | wait span next ih =>
    intro w
    refine .modify (Returns.mono (ih hp _) ?_)
    rintro v w' ⟨hv, hc, hcalls, hn, hj⟩
    exact ⟨hv, hc, hcalls, Int.le_trans (w.now.le_advance span) hn, hj⟩
  | load next ih =>
    intro w
    exact .get (ih w.memory (hp w.memory) w)
  | store m next ih =>
    intro w
    exact .modify (ih hp _)
  | perform => exact hp.elim

theorem callVia_answers (hq : host.Quiet) (perform : Operation ν η → Act ν η μ (Answer ν)) :
    Answers (callVia host perform) := by
  intro c w
  unfold callVia
  refine .note (.bind (.attempt (S := fun r w' => ∃ v, r = .ok v ∧ c.Welcome v ∧
    w'.cache = w.cache ∧ w'.calls = w.calls ∧ w.now ≤ w'.now ∧
    w'.journal = ⟨.entered c, w.now, w.calls, w.cache⟩ :: w.journal) ?_) ?_)
  · refine (run_calm (host.respond c) (hq c) (w.note (.entered c))).mono ?_
    rintro v w' ⟨hv, hc, hcalls, hn, hj⟩
    exact ⟨v, rfl, hv, hc, hcalls, hn, hj⟩
  · rintro r w' ⟨v, rfl, hv, hc, hcalls, hn, hj⟩
    refine .note (.pure ⟨hv, hc, hcalls, hn, ?_⟩)
    show ⟨.returned c v, w'.now, w'.calls, w'.cache⟩ :: w'.journal = _
    rw [hj, hc, hcalls]
    rfl

/-- A callback that supplies nothing passes quietly. -/
theorem Answers.quiet (ha : Answers invoke) {c : Callback ν η} (w : World ν η μ)
    (hc : ∀ v (t : Instant) calls (cache : Cache ν η),
      (Line.mk (.returned c v) t calls cache).silent = true) :
    (invoke c).Returns w fun v w' => c.Welcome v ∧ Quietly w w' ∧ w'.cache = w.cache := by
  refine (ha c w).mono ?_
  rintro v w' ⟨hv, hcache, hcalls, hn, hj⟩
  refine ⟨hv, ⟨hn, hcalls, by rw [hcache], by rw [hcache], by rw [hcache], _, hj, ?_⟩, hcache⟩
  intro l hl
  rcases List.mem_cons.mp hl with rfl | hl
  · exact hc _ _ _ _
  · rw [List.mem_singleton.mp hl]
    rfl

theorem release_quiet (ha : Answers invoke) (key : Key) (e : Entry ν η) (w : World ν η μ) :
    (release invoke key e).Returns w fun _ w' => Quietly w w' ∧ w'.cache = w.cache := by
  unfold release
  refine .cache ?_
  cases w.cache.settings.release with
  | none => exact .pure ⟨.refl w, rfl⟩
  | some handler =>
    refine .bracket ((ha.quiet (w.push (.releasing key e.generation)) fun _ _ _ _ => rfl).mono ?_)
    rintro v w' ⟨-, hq, hc⟩
    exact ⟨hq.inside, hc⟩

theorem releaseIfSet_quiet (ha : Answers invoke) (key : Key) (e : Entry ν η) (w : World ν η μ) :
    (releaseIfSet invoke key e).Returns w fun _ w' => Quietly w w' ∧ w'.cache = w.cache := by
  unfold releaseIfSet
  refine .cache ?_
  split
  · exact release_quiet ha key e w
  · exact .pure ⟨.refl w, rfl⟩

theorem ask_quiet (ha : Answers invoke) {value : ν} {policy : Policy η} (handlers : List η) :
    ∀ w : World ν η μ, (handlers.mapM fun h => invoke (.expiring h key value policy)).Returns w
      fun answers w' => (∀ a ∈ answers, a = .proceed) ∧ Quietly w w' ∧ w'.cache = w.cache := by
  induction handlers with
  | nil =>
    intro w
    rw [List.mapM_nil]
    refine .pure ⟨?_, .refl w, rfl⟩
    intro a hm
    cases hm
  | cons handler handlers ih =>
    intro w
    rw [List.mapM_cons]
    refine .bind (ha.quiet w fun _ _ _ _ => rfl) ?_
    rintro answer w1 ⟨hanswer, hq1, hc1⟩
    refine .bind (ih w1) ?_
    rintro answers w2 ⟨hall, hq2, hc2⟩
    refine .pure ⟨?_, hq1.trans hq2, hc2.trans hc1⟩
    intro a hm
    rcases List.mem_cons.mp hm with rfl | hm
    · exact hanswer
    · exact hall a hm

theorem foldlM_returns {β : Type} {f : β → α → Act ν η μ β} {I : World ν η μ → Prop} (xs : List α)
    (hf : ∀ b x w, I w → (f b x).Returns w fun _ w' => Quietly w w' ∧ I w') :
    ∀ b w, I w → (xs.foldlM f b).Returns w fun _ w' => Quietly w w' ∧ I w' := by
  induction xs with
  | nil =>
    intro b w hw
    exact .pure ⟨.refl w, hw⟩
  | cons x xs ih =>
    intro b w hw
    rw [List.foldlM_cons]
    refine .bind (hf b x w hw) ?_
    rintro b' w1 ⟨hq1, hw1⟩
    refine (ih b' w1 hw1).mono ?_
    rintro _ w2 ⟨hq2, hw2⟩
    exact ⟨hq1.trans hq2, hw2⟩

theorem tell_quiet (ha : Answers invoke) {value : ν} (handlers : List η) (running : Disposal)
    (w : World ν η μ) :
    (handlers.foldlM (fun r h => invoke (.expired h key value r)) running).Returns w
      fun _ w' => Quietly w w' ∧ w'.cache = w.cache := by
  refine foldlM_returns (I := fun w' => w'.cache = w.cache) handlers ?_ running w rfl
  intro r h w1 hc1
  refine (ha.quiet w1 fun _ _ _ _ => rfl).mono ?_
  rintro answer w2 ⟨-, hq, hc⟩
  exact ⟨hq, hc.trans hc1⟩

theorem disposeEvicted_quiet (ha : Answers invoke) (key : Key) (gone : Entry ν η)
    (w : World ν η μ) :
    (disposeEvicted invoke key gone).Returns w fun _ w' => Quietly w w' ∧ w'.cache = w.cache := by
  unfold disposeEvicted tellExpired
  refine .cache (.bind (.bracket (Q := fun _ w' => Quietly w w' ∧ w'.cache = w.cache) ?_) ?_)
  · refine .note (.cache ((tell_quiet ha _ _ _).mono ?_))
    rintro final w1 ⟨hq, hc⟩
    exact ⟨((Quietly.note rfl).trans hq).inside, hc⟩
  · rintro final w1 ⟨hq1, hc1⟩
    refine .note ?_
    have hq2 : Quietly w (w1.note (.disposed gone.generation key final)) := hq1.trans (.note rfl)
    split
    · refine (release_quiet ha key gone _).mono ?_
      rintro _ w2 ⟨hq, hc⟩
      exact ⟨hq2.trans hq, hc.trans hc1⟩
    · exact .pure ⟨hq2, hc1⟩

end Act

/-! ## What a cache shows -/

namespace Entry

/-- The entry as the map sees it. -/
def timed (e : Entry ν η) : Timed ν :=
  match e.policy with
  | some (.absolute d) => ⟨e.value, none, d⟩
  | some (.sliding span d) => ⟨e.value, some span, d⟩
  | some (.duration _ d) => ⟨e.value, none, d⟩
  | _ => ⟨e.value, none, none⟩

/-- Only deadlines decide about the entry, and nobody does so now. -/
structure Plain (e : Entry ν η) : Prop where
  pending : e.pending = false
  timed : ∀ p, e.policy = some p → p.isTimed = true

theorem value_timed (e : Entry ν η) : e.timed.value = e.value := by
  unfold timed
  split <;> rfl

theorem timed_touch (e : Entry ν η) (now : Instant) : (e.touch now).timed = e.timed.hit now := by
  unfold timed touch
  cases e.policy with
  | none => rfl
  | some p => cases p <;> rfl

theorem timed_insertedAt (now : Instant) (value : ν) (policy : Option (Policy η)) (g : Nat) :
    (insertedAt now value policy g).timed = .start now value policy := by
  unfold timed insertedAt
  cases policy with
  | none => rfl
  | some p => cases p <;> rfl

theorem Plain.touch {e : Entry ν η} (h : e.Plain) (now : Instant) : (e.touch now).Plain := by
  refine ⟨h.pending, ?_⟩
  intro p hp
  obtain ⟨q, hq, rfl⟩ := Option.map_eq_some_iff.mp hp
  rw [Policy.isTimed_accessed]
  exact h.timed q hq

theorem plain_insertedAt {policy : Option (Policy η)} (h : ∀ p, policy = some p → p.isTimed = true)
    (now : Instant) (value : ν) (g : Nat) : (insertedAt now value policy g).Plain := by
  refine ⟨rfl, ?_⟩
  intro p hp
  obtain ⟨q, hq, rfl⟩ := Option.map_eq_some_iff.mp hp
  rw [Policy.isTimed_startingAt]
  exact h q hq

theorem Plain.expired {m : Type → Type} [Monad m] {e : Entry ν η} (h : e.Plain)
    (ask : η → Instant → m Bool) (now : Instant) :
    e.expired ask now = pure (!e.timed.live now) := by
  unfold Entry.expired Entry.timed
  cases hp : e.policy with
  | none => rfl
  | some p =>
    have ht := h.timed p hp
    -- a deadline is reached at the deadline itself, where the entry stops being live
    have flip : ∀ (window : Option Span) (d : Option Instant), Policy.reached d now =
        !(⟨e.value, window, d⟩ : Timed ν).live now := by
      intro window d
      unfold Timed.live
      cases d with
      | none => rfl
      | some u =>
        unfold Policy.reached
        simp only [Option.any_some, Instant.le_def, Instant.lt_def, ← decide_not, Int.not_lt]
    cases p with
    | custom => cases ht
    | _ => exact congrArg pure (flip _ _)

end Entry

/-- The cache shows the map: its live entries are the map's, key by key. -/
structure Simulates (c : Cache ν η) (now : Instant) (m : TimedMap ν) : Prop where
  plain : ∀ key e, c.find? key = some e → e.Plain
  agrees : ∀ key, ((c.find? key).map (·.timed)).filter (·.live now) = m.look now key

namespace Simulates

variable {c d : Cache ν η} {now t : Instant} {m : TimedMap ν} {key : Key} {e : Entry ν η}

theorem later (h : Simulates c now m) (ht : now ≤ t) : Simulates c t m := by
  refine ⟨h.plain, ?_⟩
  intro key
  rw [TimedMap.look_later ht, ← h.agrees]
  cases (c.find? key).map (·.timed) with
  | none => rfl
  | some x =>
    cases hx : x.live t with
    | false => cases hn : x.live now <;> simp [Option.filter, hx, hn]
    | true => simp [Option.filter, hx, Timed.live_of_le ht hx]

theorem congr (h : Simulates c now m) (hf : ∀ k, d.find? k = c.find? k) : Simulates d now m := by
  refine ⟨?_, ?_⟩
  · intro key e he
    rw [hf] at he
    exact h.plain key e he
  · intro key
    rw [hf]
    exact h.agrees key

theorem look_none (h : Simulates c now m) (hf : c.find? key = none) : m.look now key = none := by
  rw [← h.agrees, hf]
  rfl

theorem look_dead (h : Simulates c now m) (hf : c.find? key = some e)
    (hd : e.timed.live now = false) : m.look now key = none := by
  rw [← h.agrees, hf]
  simp [Option.filter, hd]

theorem look_live (h : Simulates c now m) (hf : c.find? key = some e)
    (hl : e.timed.live now = true) : m.look now key = some e.timed := by
  rw [← h.agrees, hf]
  simp [Option.filter, hl]

theorem set (h : Simulates c now m) (key : Key) (new : Option (Entry ν η))
    (hf : ∀ k, d.find? k = if k = key then new else c.find? k) (hp : ∀ e, new = some e → e.Plain) :
    Simulates d now (m.set key (new.map (·.timed))) := by
  refine ⟨?_, ?_⟩
  · intro k e he
    rw [hf] at he
    split at he
    · exact hp e he
    · exact h.plain k e he
  · intro k
    rw [hf, TimedMap.look_set]
    split
    · rfl
    · exact h.agrees k

theorem touch (h : Simulates c now m) (he : c.find? key = some e)
    (hl : e.timed.live now = true) : Simulates (c.touch now key) now (m.hit now key) := by
  have hset := h.set (d := c.touch now key) key (some (e.touch now)) ?_ ?_
  · unfold TimedMap.hit
    rw [Option.map_some, Entry.timed_touch] at hset
    rw [h.look_live he hl]
    exact hset
  · intro k
    rw [Cache.find?_touch, he]
    rfl
  · intro f hf
    cases hf
    exact (h.plain key e he).touch now

theorem insert (h : Simulates c now m) (key : Key) (value : ν) {policy : Option (Policy η)}
    (hp : ∀ p, policy = some p → p.isTimed = true) :
    Simulates (c.insert now key value policy) now (m.store now key value policy) := by
  have hset := h.set key (some (.insertedAt now value policy c.nextGeneration))
    (Cache.find?_insert now key value policy c) ?_
  · rw [Option.map_some, Entry.timed_insertedAt] at hset
    exact hset
  · intro e he
    cases he
    exact Entry.plain_insertedAt hp ..

theorem vacate (h : Simulates c now m)
    (hf : ∀ k, d.find? k = if k = key then none else c.find? k) :
    Simulates d now (m.set key none) := by
  refine h.set key none hf ?_
  intro e he
  cases he

/-- An expired entry leaves the cache; the map has nothing to lose. -/
theorem evict (h : Simulates c now m) (hf : ∀ k, d.find? k = if k = key then none else c.find? k)
    (hd : m.look now key = none) : Simulates d now m := by
  refine ⟨?_, ?_⟩
  · intro k e he
    rw [hf] at he
    split at he
    · cases he
    · exact h.plain k e he
  · intro k
    rw [hf]
    split
    · rename_i hk
      subst hk
      exact hd.symm
    · exact h.agrees k

end Simulates

namespace Act

variable {host : Host ν η μ} {invoke : Invoke ν η μ} {w : World ν η μ} {key : Key}
  {m : TimedMap ν}

theorem expired_eq {e : Entry ν η} (h : e.Plain) (w : World ν η μ) :
    expired host e w = .ok (!e.timed.live w.now) w := by
  unfold expired
  show e.expired (consult host) w.now w = _
  rw [h.expired]
  rfl

theorem expired_returns {e : Entry ν η} (h : e.Plain) (w : World ν η μ) :
    (expired host e).Returns w fun b w' => b = (!e.timed.live w.now) ∧ w' = w :=
  ⟨_, w, expired_eq h w, rfl, rfl⟩

theorem candidate?_returns (hs : Simulates w.cache w.now m) (g : Nat) :
    (candidate? host key g).Returns w fun r w' => w' = w ∧
      (∀ e p, r = some (e, p) → w.cache.find? key = some e ∧ e.generation = g ∧
        e.timed.live w.now = false) ∧
      (r = none → ∀ e, w.cache.find? key = some e → e.generation = g → e.timed.live w.now = true) := by
  unfold candidate?
  refine .cache ?_
  cases hi : w.cache.insertion? key g with
  | none =>
    refine .pure ⟨rfl, ?_, ?_⟩
    · intro e p h
      cases h
    · intro _ e he hg
      rw [Cache.insertion?_eq_some.mpr ⟨he, hg⟩] at hi
      cases hi
  | some e =>
    obtain ⟨he, hg⟩ := Cache.insertion?_eq_some.mp hi
    have hplain := hs.plain key e he
    have only : ∀ e', w.cache.find? key = some e' → e' = e := by
      intro e' he'
      rw [he] at he'
      exact (Option.some.inj he').symm
    cases hp : e.policy with
    | none =>
      simp only [hplain.pending, hp]
      refine .pure ⟨rfl, ?_, ?_⟩
      · intro e p h
        cases h
      · intro _ e' he' _
        rw [only e' he']
        unfold Entry.timed
        rw [hp]
        rfl
    | some policy =>
      simp only [hplain.pending, hp]
      refine .bind (expired_returns hplain w) ?_
      rintro found w1 ⟨rfl, rfl⟩
      cases hl : e.timed.live w1.now with
      | true =>
        refine .pure ⟨rfl, ?_, ?_⟩
        · intro e p h
          cases h
        · intro _ e' he' _
          rw [only e' he']
          exact hl
      | false =>
        refine .pure ⟨rfl, ?_, ?_⟩
        · intro e' p h
          cases h
          exact ⟨he, hg, hl⟩
        · intro h
          cases h

end Act

end ExpiringCache
