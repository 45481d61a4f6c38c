import ExpiringCache.Proofs.Operations
import ExpiringCache.Proofs.Quiet

/-!
# The timed map in the engine's work

Each piece of the engine's work for a quiet host, with what it does to the map the cache shows. An
expiry, be it due to a read, a sweep or a tick, does nothing to it.
-/

namespace ExpiringCache

variable {ν η μ α β : Type}

namespace Act

variable {host : Host ν η μ} {invoke : Invoke ν η μ} {w : World ν η μ} {key : Key}
  {m : TimedMap ν}

theorem deciding_returns (ha : Answers invoke) (g : Nat) (value : ν) (policy : Policy η)
    (hp : ∀ e, w.cache.find? key = some e → e.pending = false) :
    (deciding key g (askExpiring invoke g key value policy)).Returns w fun answers w' =>
      (∀ a ∈ answers, a = .proceed) ∧ Quietly w w' ∧ ∀ j, w'.cache.find? j = w.cache.find? j := by
  unfold deciding askExpiring
  refine .bracket (.note (.cache ((ask_quiet ha _ _).mono ?_)))
  rintro answers w1 ⟨hall, hq, hc⟩
  have h1 : Quietly w (w.change (.mark true key g)) := .change rfl rfl rfl
  have h2 : Quietly (w.change (.mark true key g)) w1.pop :=
    Quietly.inside (a := .deciding key g) ((Quietly.note rfl).trans hq)
  have h3 : Quietly w1.pop (w1.pop.change (.mark false key g)) := .change rfl rfl rfl
  refine ⟨hall, (h1.trans h2).trans h3, ?_⟩
  intro j
  show (w1.cache.mark false key g).find? j = _
  rw [hc]
  show ((w.cache.mark true key g).mark false key g).find? j = _
  rw [Cache.mark_mark hp]

theorem policy_of_dead {e : Entry ν η} {t : Instant} (h : e.timed.live t = false) :
    ∃ p, e.policy = some p := by
  cases hp : e.policy with
  | some p => exact ⟨p, rfl⟩
  | none =>
    unfold Entry.timed at h
    rw [hp] at h
    cases h

theorem commit_returns {g : Nat} {e : Entry ν η} (he : e.Plain)
    (hf : w.cache.find? key = some e) (hg : e.generation = g) (hd : e.timed.live w.now = false) :
    (commit host key g).Returns w fun r w' => r = some e ∧ Quietly w w' ∧ w'.now = w.now ∧
      ∀ j, w'.cache.find? j = if j = key then none else w.cache.find? j := by
  obtain ⟨policy, hp⟩ := policy_of_dead hd
  have hexpired : (expired host e).Returns w fun found v => found = true ∧ v = w := by
    refine (expired_returns he w).mono ?_
    rintro found v ⟨rfl, hv⟩
    exact ⟨by rw [hd]; rfl, hv⟩
  rw [← hg]
  refine (commit_of_expired hf hp hexpired).mono ?_
  rintro r w' ⟨rfl, v, rfl, rfl⟩
  refine ⟨rfl, ?_, rfl, fun j => Cache.find?_takeOut ..⟩
  exact Quietly.trans (.change rfl rfl rfl) (.note rfl)

/-- An expiry evicts what is expired, and does nothing to the map. -/
theorem expire_returns (ha : Answers invoke) (hs : Simulates w.cache w.now m) (key : Key) (g : Nat) :
    (expire host invoke key g).Returns w fun fate w' => Quietly w w' ∧
      Simulates w'.cache w'.now m ∧
      ∀ e, w.cache.find? key = some e → e.generation = g → e.timed.live w.now = false →
        fate = .evicted := by
  unfold expire
  refine .bind (candidate?_returns hs g) ?_
  rintro r w1 ⟨rfl, hsome, hnone⟩
  match r, hsome, hnone with
  | none, _, hnone =>
    refine .pure ⟨.refl _, hs, ?_⟩
    intro e he hg hd
    rw [hnone rfl e he hg] at hd
    cases hd
  | some (e, policy), hsome, _ =>
    obtain ⟨he, hg, hd⟩ := hsome e policy rfl
    have hplain := hs.plain key e he
    have hpend : ∀ f, w1.cache.find? key = some f → f.pending = false :=
      fun f hf => (hs.plain key f hf).pending
    refine .bind (deciding_returns ha g e.value policy hpend) ?_
    rintro answers w2 ⟨hall, hq2, hc2⟩
    refine .note ?_
    have hno : answers.contains .cancel = false := by
      refine Bool.eq_false_iff.mpr fun h => ?_
      have := hall .cancel (List.contains_iff_mem.mp h)
      cases this
    rw [hno]
    -- time went on while the handlers were asked, and an expired entry stays expired
    have hd2 : e.timed.live w2.now = false :=
      Bool.eq_false_iff.mpr fun h => by
        rw [Timed.live_of_le hq2.now h] at hd
        cases hd
    have hf2 : w2.cache.find? key = some e := by
      rw [hc2]
      exact he
    refine .bind (commit_returns (w := w2.note (.decided g key e.value answers)) hplain hf2 hg hd2) ?_
    rintro gone w3 ⟨rfl, hq3, hn3, hc3⟩
    refine .bind (disposeEvicted_quiet ha key e w3) ?_
    rintro _ w4 ⟨hq4, hc4⟩
    have hq : Quietly w1 w4 := (hq2.trans ((Quietly.note rfl).trans hq3)).trans hq4
    refine .pure ⟨hq, ?_, fun _ _ _ _ => rfl⟩
    refine (hs.evict (d := w4.cache) (fun k => ?_) (hs.look_dead he hd)).later hq.now
    rw [hc4, hc3]
    split
    · rfl
    · exact hc2 k

theorem readEnds_returns (access : Access) (key : Key) (found : Option ν)
    (hs : Simulates w.cache w.now m) : (readEnds access key found).Returns w fun r w' =>
      r = found ∧ Quietly w w' ∧ Simulates w'.cache w'.now m := by
  unfold readEnds
  split
  · refine .change (.note (.pure ⟨rfl, Quietly.trans (.change rfl rfl rfl) (.note rfl), ?_⟩))
    exact hs.congr fun _ => rfl
  · exact .pure ⟨rfl, .refl w, hs⟩

/-- The map after a read. -/
def readMap (access : Access) (now : Instant) (key : Key) (m : TimedMap ν) : TimedMap ν :=
  if access = .full then m.hit now key else m

theorem readMap_of_none {access : Access} {now : Instant} (h : m.look now key = none) :
    readMap access now key m = m := by
  unfold readMap TimedMap.hit
  rw [h]
  split <;> rfl

theorem lookup_returns (ha : Answers invoke) (hs : Simulates w.cache w.now m) (access : Access)
    (key : Key) (retries : Nat) :
    (lookup host invoke access key (retries + 1)).Returns w fun found w' =>
      found = m.get w.now key ∧ Quietly w w' ∧
      Simulates w'.cache w'.now (readMap access w.now key m) := by
  -- nothing is stored, or what was is dead and has just been evicted
  have absent : ∀ w1 : World ν η μ, m.look w.now key = none → Quietly w w1 →
      Simulates w1.cache w1.now m → (readEnds access key none).Returns w1 fun found w' =>
        found = m.get w.now key ∧ Quietly w w' ∧
        Simulates w'.cache w'.now (readMap access w.now key m) := by
    intro w1 hl hq hs1
    refine (readEnds_returns access key none hs1).mono ?_
    rintro r w2 ⟨rfl, hq2, hs2⟩
    rw [readMap_of_none hl]
    refine ⟨?_, hq.trans hq2, hs2⟩
    unfold TimedMap.get
    rw [hl]
    rfl
  unfold lookup
  refine .cache ?_
  cases hf : w.cache.find? key with
  | none => exact absent w (hs.look_none hf) (.refl w) hs
  | some e =>
    have hplain := hs.plain key e hf
    refine .bind (expired_returns hplain w) ?_
    rintro found w1 ⟨rfl, rfl⟩
    cases hl : e.timed.live w1.now with
    | true =>
      have hlook := hs.look_live hf hl
      have hget : m.get w1.now key = some e.value := by
        unfold TimedMap.get
        rw [hlook, Option.map_some, Entry.value_timed]
      rw [hget]
      cases access with
      | peek =>
        refine (readEnds_returns .peek key (some e.value) hs).mono ?_
        rintro r w2 ⟨rfl, hq2, hs2⟩
        exact ⟨rfl, hq2, hs2⟩
      | full =>
        have htouch : Simulates (w1.cache.touch w1.now key) w1.now (readMap .full w1.now key m) := by
          unfold readMap
          rw [if_pos rfl]
          exact hs.touch hf hl
        refine .now (.change ?_)
        refine (readEnds_returns .full key (some e.value) (w := w1.change (.touch w1.now key))
          htouch).mono ?_
        rintro r w2 ⟨rfl, hq2, hs2⟩
        exact ⟨rfl, Quietly.trans (.change rfl rfl rfl) hq2, hs2⟩
    | false =>
      simp only [hplain.pending]
      refine .bind (expire_returns ha hs key e.generation) ?_
      rintro fate w2 ⟨hq2, hs2, hfate⟩
      rw [hfate e hf rfl hl]
      exact absent w2 (hs.look_dead hf hl) hq2 hs2

end Act

/-! ## Insertions and what the host supplies for them -/

/-- Work that wrote `seg` and left the admission and the handle as they were. -/
structure Course (seg : List (Line ν η)) (w w' : World ν η μ) : Prop where
  now : w.now ≤ w'.now
  calls : w'.calls = w.calls
  settings : w'.cache.settings = w.cache.settings
  handle : w'.cache.handle = w.cache.handle
  admission : ∀ held, w.cache.admission.Held held → w'.cache.admission.Held held
  journal : w'.journal = seg ++ w.journal

theorem Course.trans {old new : List (Line ν η)} {w w' w'' : World ν η μ} (h : Course old w w')
    (k : Course new w' w'') : Course (new ++ old) w w'' where
  now := Int.le_trans h.now k.now
  calls := k.calls.trans h.calls
  settings := k.settings.trans h.settings
  handle := k.handle.trans h.handle
  admission held hh := k.admission held (h.admission held hh)
  journal := by rw [k.journal, h.journal, List.append_assoc]

theorem Quietly.course {w w' : World ν η μ} (h : Quietly w w') :
    ∃ seg, Course seg w w' ∧ ∀ l ∈ seg, l.silent = true := by
  obtain ⟨seg, hj, hs⟩ := h.journal
  refine ⟨seg, ⟨h.now, h.calls, h.settings, h.handle, ?_, hj⟩, hs⟩
  intro held hh
  rw [h.admission]
  exact hh

namespace Supply

variable {start : Instant} {old new : List (Line ν η)}

theorem of_append (h : ∀ l ∈ new, l.supplies = false) :
    Supply.of start (new ++ old) = Supply.of start old := by
  have hmade : new.findSome? (·.made?) = none := by
    refine List.findSome?_eq_none_iff.mpr fun l hl => ?_
    have := h l hl
    unfold Line.supplies at this
    simp only [Bool.or_eq_false_iff, Option.isSome_eq_false_iff, Option.isNone_iff_eq_none] at this
    exact this.1
  have hpolicy : new.findSome? (·.policy?) = none := by
    refine List.findSome?_eq_none_iff.mpr fun l hl => ?_
    have := h l hl
    unfold Line.supplies at this
    simp only [Bool.or_eq_false_iff, Option.isSome_eq_false_iff, Option.isNone_iff_eq_none] at this
    exact this.2
  have hfind : new.find? (·.supplies) = none := by
    refine List.find?_eq_none.mpr fun l hl => ?_
    rw [h l hl]
    decide
  unfold Supply.of
  rw [List.findSome?_append, List.findSome?_append, List.find?_append, hmade, hpolicy, hfind]
  rfl

end Supply

theorem silent_iff {l : Line ν η} : l.silent = true ↔ l.supplies = false ∧ l.stores = false := by
  unfold Line.silent
  cases l.supplies <;> cases l.stores <;> simp

theorem silent_append {new : List (Line ν η)} (old : List (Line ν η)) (start : Instant)
    (h : ∀ l ∈ new, l.silent = true) : Supply.of start (new ++ old) = Supply.of start old ∧
      (new ++ old).any (·.stores) = old.any (·.stores) := by
  refine ⟨Supply.of_append fun l hl => (silent_iff.mp (h l hl)).1, ?_⟩
  have hn : new.any (·.stores) = false := by
    refine List.any_eq_false.mpr fun l hl => ?_
    rw [(silent_iff.mp (h l hl)).2]
    decide
  rw [List.any_append, hn, Bool.false_or]

/-- What the caller of a fetch is told. -/
def fetchedAnswer : Fetched ν → Answer ν
  | .value value => .fetched value
  | .refused cause => .refused cause

/-- The work did to the map what `o` says, given its supply. -/
def Fulfils (o : Supply ν η → Outcome ν) (answer : Answer ν) (w w' : World ν η μ) : Prop :=
  ∃ seg, Course seg w w' ∧ Simulates w'.cache w'.now (o (.of w.now seg)).map ∧
    (o (.of w.now seg)).shown.Matches answer ∧ (o (.of w.now seg)).stored = seg.any (·.stores)

theorem Course.fulfils {seg : List (Line ν η)} {w w' : World ν η μ} (h : Course seg w w')
    {o : Supply ν η → Outcome ν} {out : Outcome ν} {answer : Answer ν}
    (ho : o (.of w.now seg) = out) (hs : Simulates w'.cache w'.now out.map)
    (ha : out.shown.Matches answer) (hst : out.stored = seg.any (·.stores)) :
    Fulfils o answer w w' := by
  subst ho
  exact ⟨seg, h, hs, ha, hst⟩

theorem Quietly.fulfils {w w' : World ν η μ} (h : Quietly w w') {m' : TimedMap ν}
    (hs : Simulates w'.cache w'.now m') (shown : Shown ν) (answer : Answer ν)
    (ha : shown.Matches answer) : Fulfils (fun _ => ⟨m', shown, false⟩) answer w w' := by
  obtain ⟨seg, hcourse, hsilent⟩ := h.course
  refine hcourse.fulfils rfl hs ha ?_
  have hstored := (silent_append [] w.now hsilent).2
  rw [List.append_nil] at hstored
  exact hstored.symm

namespace Act

variable {host : Host ν η μ} {invoke : Invoke ν η μ} {w : World ν η μ} {key : Key}
  {m : TimedMap ν} {start : Instant} {old : List (Line ν η)}

/-- The supply so far ended now, and no policy was given yet. -/
structure Awaiting (start : Instant) (old : List (Line ν η)) (w : World ν η μ) : Prop where
  time : (Supply.of start old).time = w.now
  policy : (Supply.of start old).policy = none

theorem policyFor_returns (ha : Answers invoke) (options : Options η)
    (ho : ∀ p, options.policy = some p → p.isTimed = true) (hw : Awaiting start old w) :
    (policyFor invoke key options.policy).Returns w fun policy w' => ∃ seg, Course seg w w' ∧
      w'.cache = w.cache ∧ seg.any (·.stores) = false ∧ (∀ p, policy = some p → p.isTimed = true) ∧
      TimedMap.policyOf options (Supply.of start (seg ++ old)) = policy ∧
      (Supply.of start (seg ++ old)).time = w'.now ∧
      (Supply.of start (seg ++ old)).made = (Supply.of start old).made := by
  have still : Course [] w w := ⟨Int.le_refl _, rfl, rfl, rfl, fun _ hh => hh, rfl⟩
  unfold policyFor TimedMap.policyOf
  cases hp : options.policy with
  | some policy =>
    refine .pure ⟨[], still, rfl, rfl, ?_, rfl, hw.time, rfl⟩
    intro q hq
    cases hq
    exact ho policy hp
  | none =>
    refine .cache ?_
    cases w.cache.settings.defaultPolicy with
    | none =>
      refine .pure ⟨[], still, rfl, rfl, ?_, ?_, hw.time, rfl⟩
      · intro p h
        cases h
      · simp only [List.nil_append, hw.policy]
        rfl
    | some handler =>
      refine (ha (.defaultPolicy handler key) w).mono ?_
      rintro policy w' ⟨hwelcome, hc, hcalls, hn, hj⟩
      refine ⟨_, ⟨hn, hcalls, by rw [hc], by rw [hc], ?_, hj⟩, hc, rfl, hwelcome, rfl, rfl, rfl⟩
      intro held hh
      rw [hc]
      exact hh

theorem occupied_returns (hs : Simulates w.cache w.now m) (key : Key) :
    (occupied host key).Returns w fun b w' => w' = w ∧ b = (m.look w.now key).isSome := by
  unfold occupied
  refine .cache ?_
  cases hf : w.cache.find? key with
  | none =>
    refine .pure ⟨rfl, ?_⟩
    rw [hs.look_none hf]
    rfl
  | some e =>
    have hplain := hs.plain key e hf
    simp only [hplain.pending]
    refine .bind (expired_returns hplain w) ?_
    rintro found w1 ⟨rfl, rfl⟩
    cases hl : e.timed.live w1.now with
    | true =>
      refine .pure ⟨rfl, ?_⟩
      rw [hs.look_live hf hl]
      rfl
    | false =>
      refine .pure ⟨rfl, ?_⟩
      rw [hs.look_dead hf hl]
      rfl

theorem placed_course (w : World ν η μ) (key : Key) (value : ν) (policy : Option (Policy η)) :
    Course (w.placedLines key value policy) w (w.placed key value policy) ∧
      (w.placedLines key value policy).any (·.stores) = true ∧
      ∀ l ∈ w.placedLines key value policy, l.supplies = false := by
  refine ⟨⟨?_, w.calls_placed .., ?_, ?_, ?_, w.journal_placed ..⟩, ?_⟩
  · rw [World.now_placed]
    exact Int.le_refl _
  · rw [World.cache_placed]
    rfl
  · rw [World.cache_placed]
    rfl
  · intro held hh
    rw [World.cache_placed]
    exact hh
  · unfold World.placedLines
    cases w.cache.find? key with
    | none =>
      refine ⟨rfl, ?_⟩
      intro l hl
      rw [List.mem_singleton.mp hl]
      rfl
    | some old =>
      refine ⟨rfl, ?_⟩
      intro l hl
      rcases List.mem_cons.mp hl with rfl | hl
      · rfl
      · rw [List.mem_singleton.mp hl]
        rfl

theorem releaseReplaced_quiet (ha : Answers invoke) (key : Key) (old : Option (Entry ν η))
    (w : World ν η μ) : (match old with
      | none => Pure.pure ()
      | some e => releaseIfSet invoke key e : Act ν η μ Unit).Returns w
      fun _ w' => Quietly w w' ∧ w'.cache = w.cache := by
  cases old with
  | none => exact .pure ⟨.refl w, rfl⟩
  | some e => exact releaseIfSet_quiet ha key e w

theorem ensureTimer_quiet (w : World ν η μ) : Quietly w (w.change .ensureTimer) ∧
    ∀ k, (w.change .ensureTimer).cache.find? k = w.cache.find? k := by
  have h : w.cache.ensureTimer = w.cache ∨ w.cache.ensureTimer = w.cache.setTimer (some .starting) := by
    unfold Cache.ensureTimer
    split
    · exact .inl rfl
    · exact .inr rfl
  unfold World.change
  rcases h with h | h
  · rw [h]
    exact ⟨.refl w, fun _ => rfl⟩
  · rw [h]
    exact ⟨.change rfl rfl rfl, fun _ => rfl⟩

theorem placed_then_quiet (hs : Simulates w.cache w.now m) (key : Key) (value : ν)
    {policy : Option (Policy η)} (hp : ∀ p, policy = some p → p.isTimed = true) {w' : World ν η μ}
    (hq : Quietly (w.placed key value policy) w')
    (hf : ∀ k, w'.cache.find? k = (w.placed key value policy).cache.find? k) :
    ∃ seg, Course seg w w' ∧ Simulates w'.cache w'.now (m.store w.now key value policy) ∧
      seg.any (·.stores) = true ∧ ∀ l ∈ seg, l.supplies = false := by
  have hset : Simulates (w.placed key value policy).cache w.now
      (m.store w.now key value policy) := by
    rw [World.cache_placed]
    exact hs.insert key value hp
  obtain ⟨hcourse, hstores, hsupplies⟩ := placed_course w key value policy
  obtain ⟨seg, hseg, hsilent⟩ := hq.course
  refine ⟨seg ++ w.placedLines key value policy, hcourse.trans hseg, ?_, ?_, ?_⟩
  · exact (hset.congr hf).later (hcourse.trans hseg).now
  · rw [(silent_append _ w.now hsilent).2]
    exact hstores
  · intro l hl
    rcases List.mem_append.mp hl with hl | hl
    · exact (silent_iff.mp (hsilent l hl)).1
    · exact hsupplies l hl

theorem store_returns (ha : Answers invoke) (hs : Simulates w.cache w.now m) (key : Key) (value : ν)
    {policy : Option (Policy η)} (hp : ∀ p, policy = some p → p.isTimed = true) :
    (store invoke key value policy).Returns w fun _ w' => ∃ seg, Course seg w w' ∧
      Simulates w'.cache w'.now (m.store w.now key value policy) ∧
      seg.any (·.stores) = true ∧ ∀ l ∈ seg, l.supplies = false := by
  unfold store
  refine .bind (P := fun _ w' => w' = w.placed key value policy) ⟨_, _, place_eq .., rfl⟩ ?_
  rintro old w1 rfl
  cases policy with
  | none =>
    refine (releaseReplaced_quiet ha key old _).mono ?_
    rintro _ w2 ⟨hq, hc⟩
    apply placed_then_quiet hs key value hp hq
    intro k
    rw [hc]
  | some policy =>
    refine .change ((releaseReplaced_quiet ha key old _).mono ?_)
    rintro _ w2 ⟨hq, hc⟩
    obtain ⟨htimer, hf⟩ := ensureTimer_quiet (w.placed key value (some policy))
    apply placed_then_quiet hs key value hp (htimer.trans hq)
    intro k
    rw [hc]
    exact hf k

/-- An insertion does to the map what it should, at the instant of its supply. -/
theorem insert_returns (ha : Answers invoke) (hs : Simulates w.cache w.now m) (key : Key) (value : ν)
    (options : Options η) (ho : ∀ p, options.policy = some p → p.isTimed = true)
    (hw : Awaiting start old w) :
    (insert host invoke key value options).Returns w fun _ w' => ∃ seg, Course seg w w' ∧
      (Supply.of start (seg ++ old)).made = (Supply.of start old).made ∧
      Simulates w'.cache w'.now (m.insert key value options (Supply.of start (seg ++ old))).map ∧
      (m.insert key value options (Supply.of start (seg ++ old))).stored = seg.any (·.stores) := by
  unfold insert
  refine .bind (policyFor_returns ha options ho hw) ?_
  rintro policy w1 ⟨seg1, hcourse1, hc1, hstores1, hp, hpolicy, htime, hmade⟩
  have hs1 : Simulates w1.cache w1.now m := by
    rw [hc1]
    exact hs.later hcourse1.now
  have stores : (options.overwrite = true ∨ (m.look w1.now key).isSome = false) →
      (store invoke key value policy).Returns w1 fun _ w' => ∃ seg, Course seg w w' ∧
        (Supply.of start (seg ++ old)).made = (Supply.of start old).made ∧
        Simulates w'.cache w'.now (m.insert key value options (Supply.of start (seg ++ old))).map ∧
        (m.insert key value options (Supply.of start (seg ++ old))).stored = seg.any (·.stores) := by
    intro hfree
    refine (store_returns ha hs1 key value hp).mono ?_
    rintro _ w2 ⟨seg2, hcourse2, hs2, hstores2, hsupplies2⟩
    refine ⟨seg2 ++ seg1, hcourse1.trans hcourse2, ?_⟩
    rw [List.append_assoc, Supply.of_append hsupplies2, List.any_append, hstores2, Bool.true_or]
    -- what follows the policy supplies nothing, so the clock's reading then is the supply's time
    have hno : (!options.overwrite && (m.look w1.now key).isSome) = false := by
      rcases hfree with h | h <;> simp [h]
    unfold TimedMap.insert
    rw [htime, hno, hpolicy]
    exact ⟨hmade, hs2, rfl⟩
  cases hov : options.overwrite with
  | true =>
    exact stores (.inl hov)
  | false =>
    refine .bind (occupied_returns hs1 key) ?_
    rintro taken w2 ⟨rfl, rfl⟩
    cases htaken : (m.look w2.now key).isSome with
    | false => exact stores (.inr htaken)
    | true =>
      refine .pure ⟨seg1, hcourse1, hmade, ?_⟩
      unfold TimedMap.insert
      rw [htime, hov, htaken]
      exact ⟨hs1, hstores1.symm⟩

theorem make_returns (ha : Answers invoke) {w1 : World ν η μ} (hq : Quietly w w1)
    (hs : Simulates w1.cache w1.now m) (factory : η) (options : Options η)
    (ho : ∀ p, options.policy = some p → p.isTimed = true)
    (hfree : (if options.overwrite = true then none else m.get w.now key) = none) :
    (make host invoke key factory options).Returns w1 fun r w' =>
      Fulfils (fun s => m.fetch w.now key options s) (fetchedAnswer r) w w' := by
  unfold make
  obtain ⟨seg1, hcourse1, hsilent1⟩ := hq.course
  refine .bind (ha (.factory factory key) w1) ?_
  rintro made w2 ⟨-, hc2, hcalls2, hn2, hj2⟩
  have hcourse2 : Course (callLines (.factory factory key) made w1 w2) w1 w2 := by
    refine ⟨hn2, hcalls2, by rw [hc2], by rw [hc2], ?_, hj2⟩
    intro held hh
    rw [hc2]
    exact hh
  have hcourse := hcourse1.trans hcourse2
  have hs2 : Simulates w2.cache w2.now m := by
    rw [hc2]
    exact hs.later hn2
  have hbase := silent_append [] w.now hsilent1
  rw [List.append_nil] at hbase
  have hstores : (callLines (.factory factory key) made w1 w2 ++ seg1).any (·.stores) = false :=
    hbase.2
  have hpolicy1 : seg1.findSome? (·.policy?) = none := congrArg Supply.policy hbase.1
  cases made with
  | error message =>
    have hfetch : m.fetch w.now key options (.of w.now (callLines (.factory factory key)
        (.error message) w1 w2 ++ seg1)) =
        ⟨m, .answer (.refused (.factoryFailed message)), false⟩ := by
      unfold TimedMap.fetch
      rw [hfree]
      rfl
    exact .pure (hcourse.fulfils hfetch hs2 rfl hstores.symm)
  | ok value =>
    have hw : Awaiting w.now (callLines (.factory factory key) (.ok value) w1 w2 ++ seg1) w2 :=
      ⟨rfl, hpolicy1⟩
    refine .bind (insert_returns ha hs2 key value { options with overwrite := true } ho hw) ?_
    rintro _ w3 ⟨seg3, hcourse3, hmade3, hs3, hstored3⟩
    have hmade : (Supply.of w.now (seg3 ++ (callLines (.factory factory key) (.ok value) w1 w2 ++
        seg1))).made = some (.ok value) := hmade3
    have hfetch : m.fetch w.now key options (.of w.now (seg3 ++ (callLines
        (.factory factory key) (.ok value) w1 w2 ++ seg1))) =
        { m.insert key value { options with overwrite := true } (.of w.now (seg3 ++ (callLines
          (.factory factory key) (.ok value) w1 w2 ++ seg1))) with
          shown := .answer (.fetched value) } := by
      unfold TimedMap.fetch
      rw [hfree, hmade]
      rfl
    refine .pure ((hcourse.trans hcourse3).fulfils hfetch hs3 rfl ?_)
    rw [List.any_append, hstores, Bool.or_false, ← hstored3]

theorem fetchInside_returns (ha : Answers invoke) (hs : Simulates w.cache w.now m) (factory : η)
    (options : Options η) (ho : ∀ p, options.policy = some p → p.isTimed = true) (retries : Nat) :
    (fetchInside host invoke key factory options (retries + 1)).Returns w fun r w' =>
      Fulfils (fun s => m.fetch w.now key options s) (fetchedAnswer r) w w' := by
  unfold fetchInside
  cases hov : options.overwrite with
  | true => exact make_returns ha (.refl w) hs factory options ho (by rw [hov]; rfl)
  | false =>
    refine .bind (lookup_returns ha hs .full key retries) ?_
    rintro found w1 ⟨rfl, hq, hs1⟩
    cases hget : m.get w.now key with
    | none =>
      have hlook : m.look w.now key = none := by
        unfold TimedMap.get at hget
        exact Option.map_eq_none_iff.mp hget
      rw [readMap_of_none hlook] at hs1
      exact make_returns ha hq hs1 factory options ho (by rw [hov]; exact hget)
    | some value =>
      have hfetch : (fun s => m.fetch w.now key options s) =
          fun _ => ⟨m.hit w.now key, .answer (.fetched value), false⟩ := by
        funext s
        unfold TimedMap.fetch
        rw [hov, if_neg (by decide), hget]
      refine .pure ?_
      rw [hfetch]
      exact hq.fulfils hs1 _ _ rfl

end Act

end ExpiringCache
