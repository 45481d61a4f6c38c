import ExpiringCache.Proofs.Simulation

/-!
# Hosts that only decide

A program that thinks looks at the clock, uses the host's memory and comes to an answer. A host decides
if its handlers that may veto and its functions that give policies do no more than think, and if its
predicates answer by the instant alone. What a read of an expired entry comes to is known beforehand
then: the handlers are polled one after another, and a single veto lets the entry be read, while
without one it is evicted.
-/

namespace ExpiringCache

variable {ν η μ α : Type}

/-- What the program answers at `t` and the memory it leaves, if it only thinks. -/
def Program.think (t : Instant) : Program ν η μ α → μ → Option (α × μ)
  | .done a, m => some (a, m)
  | .clock next, m => (next t).think t m
  | .load next, m => (next m).think t m
  | .store m next, _ => next.think t m
  | .panic _, _ => none
  | .wait _ _, _ => none
  | .perform _ _, _ => none

theorem Program.run_think {perform : Operation ν η → Act ν η μ (Answer ν)} {a : α}
    (p : Program ν η μ α) : ∀ (w : World ν η μ) (m : μ), p.think w.now w.memory = some (a, m) →
      p.run perform w = .ok a { w with memory := m } := by
  induction p with
  | done b =>
    intro w m h
    cases h
    rfl
  | panic =>
    intro w m h
    cases h
  | clock next ih =>
    intro w m h
    exact ih w.now w m h
  | wait =>
    intro w m h
    cases h
  | load next ih =>
    intro w m h
    exact ih w.memory w m h
  | store k next ih =>
    intro w m h
    exact ih { w with memory := k } m h
  | perform =>
    intro w m h
    cases h

structure Host.Deciding (host : Host ν η μ) (holds : η → Instant → Bool) : Prop where
  consult : ∀ predicate t m, host.consult predicate t m = (.ok (holds predicate t), m)
  expiring : ∀ handler key value policy t m,
    ((host.respond (.expiring handler key value policy)).think t m).isSome = true
  defaultPolicy : ∀ handler key t m,
    ((host.respond (.defaultPolicy handler key)).think t m).isSome = true

/-- What handlers answer that are asked one after another. -/
def Host.poll (host : Host ν η μ) (t : Instant) (key : Key) (value : ν) (policy : Policy η) :
    List η → μ → List Decision
  | [], _ => []
  | handler :: handlers, m =>
    match (host.respond (.expiring handler key value policy)).think t m with
    | some (answer, m') => answer :: host.poll t key value policy handlers m'
    | none => []

/-- The entry is expired, going by what the predicates say of an instant. -/
def Entry.past (holds : η → Instant → Bool) (now : Instant) (e : Entry ν η) : Bool :=
  Id.run (e.expired (fun predicate t => pure (holds predicate t)) now)

/-- If the handlers were asked now about the entry under `key`, one of them would veto its eviction. -/
def Host.Vetoes (host : Host ν η μ) (w : World ν η μ) (key : Key) (e : Entry ν η) : Prop :=
  ∃ policy, e.policy = some policy ∧
    Decision.cancel ∈ host.poll w.now key e.value policy w.cache.expiring w.memory

theorem Entry.policy_of_past {holds : η → Instant → Bool} {now : Instant} {e : Entry ν η}
    (h : e.past holds now = true) : ∃ policy, e.policy = some policy := by
  cases hq : e.policy with
  | some policy => exact ⟨policy, rfl⟩
  | none =>
    unfold Entry.past Entry.expired at h
    rw [hq] at h
    cases h

namespace Line

def entersFactory (l : Line ν η) : Bool :=
  match l.record with
  | .entered c => c.isFactory
  | _ => false

end Line

/-- From `w` to `w'` no time passes and no factory is called. -/
structure Idly (w w' : World ν η μ) : Prop where
  now : w'.now = w.now
  calls : w'.calls = w.calls
  handle : w'.cache.handle = w.cache.handle
  journal : ∃ seg, w'.journal = seg ++ w.journal ∧ ∀ l ∈ seg, l.entersFactory = false

namespace Idly

variable {w w' w'' : World ν η μ}

theorem same (hn : w'.now = w.now) (hc : w'.calls = w.calls)
    (hh : w'.cache.handle = w.cache.handle) (hj : w'.journal = w.journal) : Idly w w' := by
  refine ⟨hn, hc, hh, [], hj, ?_⟩
  intro l hl
  cases hl

theorem refl (w : World ν η μ) : Idly w w := same rfl rfl rfl rfl

theorem trans (h : Idly w w') (k : Idly w' w'') : Idly w w'' :=
  ⟨k.now.trans h.now, k.calls.trans h.calls, k.handle.trans h.handle,
    written_trans h.journal k.journal⟩

theorem note {r : Record ν η} (hr : (w.line r).entersFactory = false) : Idly w (w.note r) := by
  refine ⟨rfl, rfl, rfl, [w.line r], rfl, ?_⟩
  intro l hl
  rw [List.mem_singleton.mp hl]
  exact hr

theorem inside {a : Activity ν η} (h : Idly (w.push a) w') : Idly w w'.pop := by
  refine ⟨h.now, ?_, h.handle, h.journal⟩
  rw [World.calls_pop, h.calls]
  rfl

end Idly

namespace Act

variable {host : Host ν η μ} {holds : η → Instant → Bool}
  {perform : Operation ν η → Act ν η μ (Answer ν)} {w : World ν η μ} {key : Key} {e : Entry ν η}
  {policy : Policy η}

/-- A program that thinks writes where it begins and what it answers. -/
theorem callVia_of_think {c : Callback ν η} {a : c.Answer} {m : μ}
    (h : (host.respond c).think w.now w.memory = some (a, m)) :
    (callVia host perform c).Returns w fun v w' =>
      v = a ∧ w' = World.note (.returned c a) { w.note (.entered c) with memory := m } := by
  have hrun : (host.respond c).run perform (w.note (.entered c)) =
      .ok a { w.note (.entered c) with memory := m } := (host.respond c).run_think _ m h
  unfold callVia
  refine .note (.bind (.attempt (S := fun r w' => r = .ok a ∧
    w' = { w.note (.entered c) with memory := m }) ⟨a, _, hrun, rfl, rfl⟩) ?_)
  rintro r w' ⟨rfl, rfl⟩
  exact .note (.pure ⟨rfl, rfl⟩)

theorem callVia_thinks {c : Callback ν η} {a : c.Answer} {m : μ} (hc : c.isFactory = false)
    (h : (host.respond c).think w.now w.memory = some (a, m)) :
    (callVia host perform c).Returns w fun v w' =>
      v = a ∧ w'.memory = m ∧ w'.cache = w.cache ∧ Idly w w' := by
  refine (callVia_of_think h).mono ?_
  rintro v w' ⟨rfl, rfl⟩
  refine ⟨rfl, rfl, rfl, ?_⟩
  have h1 : Idly w (w.note (.entered c)) := .note hc
  have h2 : Idly (w.note (.entered c)) { w.note (.entered c) with memory := m } :=
    .same rfl rfl rfl rfl
  exact (h1.trans h2).trans (.note rfl)

theorem ask_polls (hd : host.Deciding holds) {value : ν} (handlers : List η) :
    ∀ w : World ν η μ, (handlers.mapM fun handler =>
      callVia host perform (.expiring handler key value policy)).Returns w fun answers w' =>
        answers = host.poll w.now key value policy handlers w.memory ∧ w'.cache = w.cache ∧
          Idly w w' := by
  induction handlers with
  | nil =>
    intro w
    rw [List.mapM_nil]
    exact .pure ⟨rfl, rfl, .refl w⟩
  | cons handler handlers ih =>
    intro w
    obtain ⟨⟨a, m⟩, hthink⟩ :=
      Option.isSome_iff_exists.mp (hd.expiring handler key value policy w.now w.memory)
    rw [List.mapM_cons]
    refine .bind (callVia_thinks rfl hthink) ?_
    rintro answer w1 ⟨rfl, hm1, hc1, hi1⟩
    refine .bind (ih w1) ?_
    rintro answers w2 ⟨rfl, hc2, hi2⟩
    refine .pure ⟨?_, hc2.trans hc1, hi1.trans hi2⟩
    simp only [Host.poll, hthink, hi1.now, hm1]

theorem expired_decides (hd : host.Deciding holds) (e : Entry ν η) (w : World ν η μ) :
    (expired host e).Returns w fun found w' => found = e.past holds w.now ∧
      w'.cache = w.cache ∧ w'.memory = w.memory ∧ Idly w w' := by
  unfold expired
  show (e.expired (consult host) w.now).Returns w _
  unfold Entry.past Entry.expired
  cases e.policy with
  | none => exact .pure ⟨rfl, rfl, rfl, .refl w⟩
  | some policy =>
    cases policy with
    | custom predicate =>
      refine ⟨holds predicate w.now, w.note (.consulted predicate (some (holds predicate w.now))),
        ?_, rfl, rfl, rfl, .note rfl⟩
      show consult host predicate w.now w = _
      unfold consult
      rw [hd.consult]
    | _ => exact .pure ⟨rfl, rfl, rfl, .refl w⟩

/-! ## An expired entry that is read -/

theorem candidate?_decides (hd : host.Deciding holds) (hf : w.cache.find? key = some e)
    (hp : e.pending = false) (hq : e.policy = some policy) (hx : e.past holds w.now = true) :
    (candidate? host key e.generation).Returns w fun r w' => r = some (e, policy) ∧
      w'.cache = w.cache ∧ w'.memory = w.memory ∧ Idly w w' := by
  refine candidate?_of_expired hf hp hq ((expired_decides hd e w).mono ?_)
  rintro found w1 ⟨rfl, h⟩
  exact ⟨hx, h⟩

theorem deciding_polls (hd : host.Deciding holds) (g : Nat) (value : ν) :
    (deciding key g (askExpiring (callVia host perform) g key value policy)).Returns w
      fun answers w' => answers = host.poll w.now key value policy w.cache.expiring w.memory ∧
        w'.cache = (w.cache.mark true key g).mark false key g ∧ Idly w w' := by
  unfold deciding askExpiring
  refine .bracket (.note (.cache ((ask_polls hd _ _).mono ?_)))
  rintro answers w1 ⟨rfl, hc, hi⟩
  have h1 : Idly w (w.change (.mark true key g)) := .same rfl rfl rfl rfl
  have h2 : Idly (w.change (.mark true key g)) w1.pop :=
    Idly.inside (a := .deciding key g) ((Idly.note rfl).trans hi)
  refine ⟨rfl, ?_, (h1.trans h2).trans (.same rfl rfl rfl rfl)⟩
  show w1.cache.mark false key g = _
  rw [hc]
  rfl

theorem expire_vetoed (hd : host.Deciding holds) (hf : w.cache.find? key = some e)
    (hp : e.pending = false) (hx : e.past holds w.now = true) (hv : host.Vetoes w key e) :
    (expire host (callVia host perform) key e.generation).Returns w fun fate w' =>
      fate = .cancelled e.value ∧ Idly w w' := by
  obtain ⟨policy, hq, hcancel⟩ := hv
  unfold expire
  refine .bind (candidate?_decides hd hf hp hq hx) ?_
  rintro r w1 ⟨rfl, hc1, hm1, hi1⟩
  rw [← hi1.now, ← hc1, ← hm1] at hcancel
  refine .bind (deciding_polls hd e.generation e.value) ?_
  rintro answers w2 ⟨rfl, -, hi2⟩
  refine .note ?_
  rw [if_pos (List.contains_iff_mem.mpr hcancel)]
  have h3 : Idly w (w2.note (.decided e.generation key e.value
      (host.poll w1.now key e.value policy w1.cache.expiring w1.memory))) :=
    (hi1.trans hi2).trans (.note rfl)
  exact .change (.pure ⟨rfl, h3.trans (.same rfl rfl rfl rfl)⟩)

theorem commit_decides (hd : host.Deciding holds) {g : Nat} (hf : w.cache.find? key = some e)
    (hg : e.generation = g) (hq : e.policy = some policy) (hx : e.past holds w.now = true) :
    (commit host key g).Returns w fun r _ => r = some e := by
  have hexpired : (expired host e).Returns w fun found _ => found = true ∧ True :=
    (expired_decides hd e w).mono fun _ _ h => ⟨h.1.trans hx, trivial⟩
  rw [← hg]
  exact (commit_of_expired hf hq hexpired).mono fun _ _ h => h.1

theorem expire_unopposed (hd : host.Deciding holds) (hf : w.cache.find? key = some e)
    (hp : e.pending = false) (hx : e.past holds w.now = true) (hv : ¬ host.Vetoes w key e) :
    (expire host (callVia host perform) key e.generation).Ends w fun r _ =>
      ∀ fate, r = .ok fate → fate = .evicted := by
  obtain ⟨policy, hq⟩ := Entry.policy_of_past hx
  unfold expire
  refine (candidate?_decides hd hf hp hq hx).bind_ends ?_
  rintro r w1 ⟨rfl, hc1, hm1, hi1⟩
  refine (deciding_polls hd e.generation e.value).bind_ends ?_
  rintro answers w2 ⟨rfl, hc2, hi2⟩
  refine ends_note.mpr ?_
  have hno : Decision.cancel ∉ host.poll w1.now key e.value policy w1.cache.expiring w1.memory := by
    rw [hi1.now, hc1, hm1]
    exact fun h => hv ⟨policy, hq, h⟩
  rw [if_neg (fun h => hno (List.contains_iff_mem.mp h))]
  -- the round leaves the entry as it was, and so it is expired still
  have hf2 : w2.cache.find? key = some e := by
    rw [hc2, Cache.mark_mark ?_, hc1]
    · exact hf
    · intro e' he'
      rw [hc1, hf] at he'
      cases he'
      exact hp
  have hx2 : e.past holds w2.now = true := by
    rw [hi2.now, hi1.now]
    exact hx
  refine (commit_decides (w := w2.note (.decided e.generation key e.value
    (host.poll w1.now key e.value policy w1.cache.expiring w1.memory))) hd hf2 rfl hq hx2).bind_ends ?_
  rintro r w3 rfl
  refine (ends_self _ w3).bind ?_ ?_
  · intro _ w4 _
    refine ends_pure.mpr ?_
    intro fate h
    cases h
    rfl
  · intro _ w4 _ fate h
    cases h

theorem readEnds_idles (key : Key) (found : Option ν) (w : World ν η μ) :
    (readEnds .full key found).Returns w fun r w' => r = found ∧ Idly w w' := by
  have h1 : Idly w (w.change (.count fun s => if found.isSome then s.hit else s.miss)) :=
    .same rfl rfl rfl rfl
  exact .change (.note (.pure ⟨rfl, h1.trans (.note rfl)⟩))

/-- A live entry is read, and so is an expired one whose eviction is vetoed. -/
theorem lookup_served (hd : host.Deciding holds) (hf : w.cache.find? key = some e)
    (hp : e.pending = false) (hv : e.past holds w.now = false ∨ host.Vetoes w key e)
    (retries : Nat) :
    (lookup host (callVia host perform) .full key (retries + 1)).Returns w fun found w' =>
      found = some e.value ∧ Idly w w' := by
  have served : ∀ v : World ν η μ, Idly w v →
      (readEnds .full key (some e.value)).Returns v fun found w' =>
        found = some e.value ∧ Idly w w' := by
    intro v hi
    refine (readEnds_idles key (some e.value) v).mono ?_
    rintro found w' ⟨rfl, hi'⟩
    exact ⟨rfl, hi.trans hi'⟩
  unfold lookup
  refine .cache ?_
  rw [hf]
  refine .bind (expired_decides hd e w) ?_
  rintro found w1 ⟨rfl, hc1, hm1, hi1⟩
  cases hx : e.past holds w.now with
  | false => exact .now (.change (served _ (hi1.trans (.same rfl rfl rfl rfl))))
  | true =>
    have hveto : host.Vetoes w1 key e := by
      rcases hv with hlive | ⟨policy, hq, hcancel⟩
      · rw [hlive] at hx
        cases hx
      · refine ⟨policy, hq, ?_⟩
        rw [hi1.now, hc1, hm1]
        exact hcancel
    rw [← hc1] at hf
    rw [← hi1.now] at hx
    simp only [hp]
    refine .bind (expire_vetoed hd hf hp hx hveto) ?_
    rintro fate w2 ⟨rfl, hi2⟩
    exact served w2 (hi1.trans hi2)

/-- Otherwise an expired entry is not read. -/
theorem lookup_refused (hd : host.Deciding holds) (hf : w.cache.find? key = some e)
    (hp : e.pending = false) (hx : e.past holds w.now = true) (hv : ¬ host.Vetoes w key e)
    (retries : Nat) :
    (lookup host (callVia host perform) .full key (retries + 1)).Ends w fun r _ =>
      ∀ found, r = .ok found → found = none := by
  unfold lookup
  refine ends_cache.mpr ?_
  rw [hf]
  refine (expired_decides hd e w).bind_ends ?_
  rintro found w1 ⟨rfl, hc1, hm1, hi1⟩
  have hveto : ¬ host.Vetoes w1 key e := by
    rintro ⟨policy, hq, hcancel⟩
    rw [hi1.now, hc1, hm1] at hcancel
    exact hv ⟨policy, hq, hcancel⟩
  rw [← hc1] at hf
  rw [hx]
  rw [← hi1.now] at hx
  simp only [hp]
  refine (expire_unopposed hd hf hp hx hveto).bind ?_ ?_
  · intro fate w2 hfate
    rw [hfate fate rfl]
    refine (readEnds_idles key none w2).ends.mono ?_
    rintro r w3 ⟨found, rfl, rfl, -⟩ found' h
    cases h
    rfl
  · intro _ w2 _ found h
    cases h

/-! ## Insertions -/

theorem policyFor_decides (hd : host.Deciding holds) (given : Option (Policy η)) (w : World ν η μ) :
    (policyFor (callVia host perform) key given).Returns w fun _ w' =>
      w'.cache = w.cache ∧ Idly w w' := by
  cases given with
  | some policy => exact .pure ⟨rfl, .refl w⟩
  | none =>
    unfold policyFor
    refine .cache ?_
    cases w.cache.settings.defaultPolicy with
    | none => exact .pure ⟨rfl, .refl w⟩
    | some handler =>
      obtain ⟨⟨policy, m⟩, hthink⟩ :=
        Option.isSome_iff_exists.mp (hd.defaultPolicy handler key w.now w.memory)
      refine (callVia_thinks (c := .defaultPolicy handler key) rfl hthink).mono ?_
      rintro _ w' ⟨-, -, hc, hi⟩
      exact ⟨hc, hi⟩

/-- A stored entry is in the way of an insertion as long as it is live. -/
theorem occupied_decides (hd : host.Deciding holds) (hf : w.cache.find? key = some e)
    (hp : e.pending = false) : (occupied host key).Returns w fun taken w' =>
      taken = (!e.past holds w.now) ∧ w'.cache = w.cache ∧ Idly w w' := by
  unfold occupied
  refine .cache ?_
  rw [hf]
  simp only [hp]
  refine .bind (expired_decides hd e w) ?_
  rintro found w1 ⟨rfl, hc, -, hi⟩
  exact .pure ⟨rfl, hc, hi⟩

end Act

end ExpiringCache
