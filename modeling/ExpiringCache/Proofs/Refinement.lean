import ExpiringCache.Proofs.Paths
import ExpiringCache.Proofs.Reachability
import ExpiringCache.Proofs.Simulation

/-!
# A cache is a timed map

With a quiet host and policies that carry deadlines, whatever sequence of operations, waits and
turns of the timer is run on a new cache, every operation shows what the timed map shows.
-/

namespace ExpiringCache

variable {ν η μ α : Type}

namespace Course

variable {seg : List (Line ν η)} {w w' w'' : World ν η μ} {o : Supply ν η → Outcome ν}
  {answer : Answer ν}

theorem inside {a : Activity ν η} (h : Course seg (w.push a) w') : Course seg w w'.pop := by
  refine ⟨h.now, ?_, h.settings, h.handle, h.admission, h.journal⟩
  show w'.calls.tail = w.calls
  rw [h.calls]
  rfl

end Course

namespace Fulfils

variable {w w' w'' : World ν η μ} {o : Supply ν η → Outcome ν} {answer : Answer ν}

theorem inside {a : Activity ν η} (h : Fulfils o answer (w.push a) w') :
    Fulfils o answer w w'.pop := by
  obtain ⟨seg, hcourse, hrest⟩ := h
  exact ⟨seg, hcourse.inside, hrest⟩

theorem trans_quietly (h : Fulfils o answer w w') (hq : Quietly w' w'')
    (hf : ∀ k, w''.cache.find? k = w'.cache.find? k) : Fulfils o answer w w'' := by
  obtain ⟨seg, hcourse, hs, ha, hst⟩ := h
  obtain ⟨new, hnew, hsilent⟩ := hq.course
  obtain ⟨hsupply, hstores⟩ := silent_append seg w.now hsilent
  refine ⟨new ++ seg, hcourse.trans hnew, ?_, ?_, ?_⟩
  · rw [hsupply]
    exact (hs.congr hf).later hq.now
  · rw [hsupply]
    exact ha
  · rw [hsupply, hstores]
    exact hst

theorem calls (h : Fulfils o answer w w') : w'.calls = w.calls := by
  obtain ⟨seg, hcourse, -⟩ := h
  exact hcourse.calls

theorem handle (h : Fulfils o answer w w') : w'.cache.handle = w.cache.handle := by
  obtain ⟨seg, hcourse, -⟩ := h
  exact hcourse.handle

end Fulfils

namespace Act

variable {host : Host ν η μ} {invoke : Invoke ν η μ} {w : World ν η μ} {key : Key}
  {m : TimedMap ν}

theorem holding_returns {acquired : Admission} {slot : Nat} {work : Act ν η μ (Fetched ν)}
    {o : Supply ν η → Outcome ν} (ha : w.cache.admission.acquire? key = some (acquired, slot))
    (h : work.Returns ((w.change ({ · with admission := acquired })).push (.fetching key slot))
      fun r w' => Fulfils o (fetchedAnswer r)
        ((w.change ({ · with admission := acquired })).push (.fetching key slot)) w') :
    (holding key acquired slot work).Returns w fun r w' => Fulfils o (fetchedAnswer r) w w' := by
  unfold holding
  refine .bracket (h.mono ?_)
  rintro r w1 ⟨seg, hcourse, hs, hanswer, hstored⟩
  refine ⟨seg, ⟨hcourse.now, ?_, hcourse.settings, hcourse.handle, ?_, hcourse.journal⟩,
    hs.congr fun _ => rfl, hanswer, hstored⟩
  · show w1.calls.tail = w.calls
    rw [hcourse.calls]
    rfl
  · intro held hh
    exact (hcourse.admission _ (hh.acquire ha)).release

theorem fetch_returns (ha : Answers invoke) (hs : Simulates w.cache w.now m)
    (hadm : w.cache.admission.Held []) (factory : η) (options : Options η)
    (ho : ∀ p, options.policy = some p → p.isTimed = true) (retries : Nat) :
    (fetch host invoke key factory options (retries + 1)).Returns w fun r w' =>
      Fulfils (fun s => TimedMap.keyed host.accepts key m (m.fetch w.now key options s))
        (fetchedAnswer r) w w' := by
  -- nobody is inside, so the fetch is let in
  obtain ⟨⟨acquired, slot⟩, hacq⟩ := Option.isSome_iff_exists.mp (hadm.acquire?_isSome key)
  unfold fetch TimedMap.keyed
  refine .cache ?_
  rw [hacq]
  cases host.accepts key with
  | true =>
    let inside : World ν η μ :=
      (w.change ({ · with admission := acquired })).push (.fetching key slot)
    have hs : Simulates inside.cache inside.now m := hs.congr fun _ => rfl
    exact holding_returns hacq (fetchInside_returns (w := inside) ha hs factory options ho retries)
  | false => exact .pure ((Quietly.refl w).fulfils hs _ _ rfl)

theorem keyed_returns (hs : Simulates w.cache w.now m) {work : Act ν η μ (Answer ν)}
    {o : Supply ν η → Outcome ν}
    (h : work.Returns w fun answer w' => Fulfils o answer w w') :
    (keyed host key work).Returns w fun answer w' =>
      Fulfils (fun s => TimedMap.keyed host.accepts key m (o s)) answer w w' := by
  unfold keyed TimedMap.keyed
  cases host.accepts key with
  | true => exact h
  | false => exact .pure ((Quietly.refl w).fulfils hs _ _ rfl)

theorem remove_returns (ha : Answers invoke) (hs : Simulates w.cache w.now m) (key : Key) :
    (remove invoke key).Returns w fun _ w' =>
      Quietly w w' ∧ Simulates w'.cache w'.now (m.set key none) := by
  unfold remove
  refine .cache ?_
  cases hf : w.cache.find? key with
  | none =>
    refine .pure ⟨.refl w, hs.vacate ?_⟩
    intro k
    split
    · rename_i hk
      rw [hk]
      exact hf
    · rfl
  | some e =>
    refine .change (.note (.bind (releaseIfSet_quiet ha key e _) ?_))
    rintro _ w1 ⟨hq, hc⟩
    have hall : Quietly w w1 :=
      Quietly.trans (.change rfl rfl rfl) (Quietly.trans (.note rfl) hq)
    have hgone : Simulates w1.cache w.now (m.set key none) := by
      rw [hc]
      exact hs.vacate (Cache.find?_takeOut key _ w.cache)
    exact .pure ⟨hall, hgone.later hall.now⟩

theorem releaseAll_quiet (ha : Answers invoke) (rows : List (Key × Entry ν η)) :
    ∀ w : World ν η μ, (rows.forM fun r => releaseIfSet invoke r.1 r.2).Returns w
      fun _ w' => Quietly w w' ∧ w'.cache = w.cache := by
  induction rows with
  | nil =>
    intro w
    exact .pure ⟨.refl w, rfl⟩
  | cons r rows ih =>
    intro w
    refine .bind (releaseIfSet_quiet ha r.1 r.2 w) ?_
    rintro _ w1 ⟨hq1, hc1⟩
    refine (ih w1).mono ?_
    rintro _ w2 ⟨hq2, hc2⟩
    exact ⟨hq1.trans hq2, hc2.trans hc1⟩

theorem emptied_quiet (w : World ν η μ) : Quietly w w.emptied := by
  rw [World.emptied_eq]
  refine ⟨Int.le_refl _, rfl, rfl, rfl, rfl, _, rfl, ?_⟩
  intro l hl
  obtain ⟨r, -, rfl⟩ := List.mem_map.mp (List.mem_reverse.mp hl)
  rfl

theorem clear_returns (ha : Answers invoke) (w : World ν η μ) :
    (clear invoke).Returns w fun _ w' =>
      Quietly w w' ∧ Simulates w'.cache w'.now (.empty : TimedMap ν) := by
  unfold clear
  refine .bind (P := fun _ w' => w' = w.emptied) ⟨_, _, takeAll_eq w, rfl⟩ ?_
  rintro rows w1 rfl
  refine (releaseAll_quiet ha rows w.emptied).mono ?_
  rintro _ w2 ⟨hq, hc⟩
  refine ⟨(emptied_quiet w).trans hq, ?_⟩
  rw [hc, World.emptied_eq]
  refine ⟨?_, fun _ => rfl⟩
  intro key e he
  cases he

/-! ## Sweeps, keys and ticks -/

theorem filterM_eq {p : α → Act ν η μ Bool} {f : α → Bool} (xs : List α)
    (h : ∀ x ∈ xs, p x w = .ok (f x) w) : xs.filterM p w = .ok (xs.filter f) w := by
  have loop : ∀ acc, xs.filterAuxM p acc w = .ok ((xs.filter f).reverse ++ acc) w := by
    induction xs with
    | nil =>
      intro acc
      rfl
    | cons x xs ih =>
      intro acc
      show EStateM.bind (p x) _ w = _
      unfold EStateM.bind
      rw [h x (List.mem_cons_self ..)]
      show xs.filterAuxM p _ w = _
      rw [ih fun y hy => h y (List.mem_cons_of_mem _ hy)]
      cases hx : f x with
      | true => simp [hx]
      | false => simp [hx]
  show EStateM.bind (xs.filterAuxM p []) _ w = _
  unfold EStateM.bind
  rw [loop, List.append_nil]
  show EStateM.Result.ok _ w = _
  rw [List.reverse_reverse]

theorem plain_of_mem (hs : Simulates w.cache w.now m) {r : Key × Entry ν η}
    (hr : r ∈ w.cache.entries.rows) : r.2.Plain :=
  hs.plain r.1 r.2 (Table.get?_eq_some_iff.mpr hr)

theorem candidates_returns (hs : Simulates w.cache w.now m) :
    (candidates host).Returns w fun _ w' => w' = w := by
  unfold candidates
  have hrows := filterM_eq (p := fun r : Key × Entry ν η =>
    (if r.2.pending then return false else expired host r.2 : Act ν η μ Bool))
    (f := fun r => !r.2.timed.live w.now) w.cache.entries.rows (w := w) ?_
  · exact .cache (.bind (P := fun _ w' => w' = w) ⟨_, _, hrows, rfl⟩ fun _ _ h => .pure h)
  · intro r hr
    have hplain := plain_of_mem hs hr
    rw [hplain.pending]
    exact expired_eq hplain w

theorem sweep_returns (ha : Answers invoke) (hs : Simulates w.cache w.now m) :
    (sweep host invoke).Returns w fun _ w' => Quietly w w' ∧ Simulates w'.cache w'.now m := by
  unfold sweep
  refine .bind (candidates_returns hs) ?_
  rintro cs w1 rfl
  refine foldlM_returns (I := fun w => Simulates w.cache w.now m) cs ?_ 0 w1 hs
  intro n c w2 hs2
  refine .bind (expire_returns ha hs2 c.1 c.2) ?_
  rintro fate w3 ⟨hq3, hs3, -⟩
  split
  · exact .pure ⟨hq3, hs3⟩
  · exact .pure ⟨hq3, hs3⟩

theorem liveKeys_returns (hs : Simulates w.cache w.now m) :
    (liveKeys host).Returns w fun ks w' => w' = w ∧ ks.Nodup ∧
      ∀ k, k ∈ ks ↔ (m.get w.now k).isSome = true := by
  unfold liveKeys
  have hrows := filterM_eq (p := fun r : Key × Entry ν η => (do
    if r.2.pending then return true else return !(← expired host r.2) : Act ν η μ Bool))
    (f := fun r => r.2.timed.live w.now) w.cache.entries.rows (w := w) ?_
  · refine .cache (.bind (P := fun rows w' => w' = w ∧
      rows = w.cache.entries.rows.filter fun r => r.2.timed.live w.now)
      ⟨_, _, hrows, rfl, rfl⟩ ?_)
    rintro rows w1 ⟨rfl, rfl⟩
    refine .pure ⟨rfl, ?_, ?_⟩
    · exact List.Nodup.sublist (List.filter_sublist.map _) w1.cache.entries.distinct
    · intro k
      unfold TimedMap.get
      rw [Option.isSome_map, ← hs.agrees k]
      constructor
      · intro hk
        obtain ⟨⟨j, e⟩, hr, rfl⟩ := List.mem_map.mp hk
        obtain ⟨hr, hl⟩ := List.mem_filter.mp hr
        have hf : w1.cache.find? j = some e := Table.get?_eq_some_iff.mpr hr
        have hl : e.timed.live w1.now = true := hl
        rw [hf]
        simp [Option.filter, hl]
      · intro hk
        cases hf : w1.cache.find? k with
        | none =>
          rw [hf] at hk
          cases hk
        | some e =>
          rw [hf] at hk
          have hl : e.timed.live w1.now = true := by
            cases hl : e.timed.live w1.now with
            | true => rfl
            | false => simp [Option.filter, hl] at hk
          refine List.mem_map.mpr ⟨(k, e), List.mem_filter.mpr ⟨?_, hl⟩, rfl⟩
          exact Table.get?_eq_some_iff.mp hf
  · intro r hr
    have hplain := plain_of_mem hs hr
    rw [hplain.pending]
    show EStateM.bind (expired host r.2) _ w = _
    unfold EStateM.bind
    rw [expired_eq hplain]
    show EStateM.Result.ok (!!_) w = _
    rw [Bool.not_not]

theorem tick_returns (ha : Answers invoke) (hs : Simulates w.cache w.now m) :
    (tick host invoke).Returns w fun _ w' => Quietly w w' ∧ Simulates w'.cache w'.now m := by
  unfold tick
  refine .bind (sweep_returns ha hs) ?_
  rintro _ w1 ⟨hq, hs1⟩
  refine .cache ?_
  split
  · exact .change (.pure ⟨hq.trans (.change rfl rfl rfl), hs1.congr fun _ => rfl⟩)
  · exact .pure ⟨hq, hs1⟩

theorem guardedTick_returns (ha : Answers invoke) (hs : Simulates w.cache w.now m) :
    (guardedTick host invoke).Returns w fun _ w' => Quietly w w' ∧ Simulates w'.cache w'.now m := by
  unfold guardedTick
  refine .bind (.attempt (S := fun r w' => (∃ u, r = .ok u) ∧ Quietly w w' ∧
    Simulates w'.cache w'.now m) ((tick_returns ha hs).mono ?_)) ?_
  · intro u w' h
    exact ⟨⟨u, rfl⟩, h⟩
  · rintro r w' ⟨⟨u, rfl⟩, h⟩
    exact .pure h

/-- The ticks that are due do nothing to the map, even when they are cut short. -/
theorem settle_ends (hq : host.Quiet) (bound : Nat) (hs : Simulates w.cache w.now m) :
    (settle host bound).Ends w fun _ w' => Quietly w w' ∧ Simulates w'.cache w'.now m := by
  let keeps (w w' : World ν η μ) : Prop :=
    Simulates w.cache w.now m → Quietly w w' ∧ Simulates w'.cache w'.now m
  have still : ∀ w, keeps w w := fun w hs => ⟨.refl w, hs⟩
  have trans : ∀ {w w' w''}, keeps w w' → keeps w' w'' → keeps w w'' := by
    intro w w' w'' h k hs
    obtain ⟨hq, hs'⟩ := h hs
    obtain ⟨hq', hs''⟩ := k hs'
    exact ⟨hq.trans hq', hs''⟩
  have set : ∀ (timer : Option Timer) w, keeps w (w.change (.setTimer timer)) :=
    fun _ _ hs => ⟨.change rfl rfl rfl, hs.congr fun _ => rfl⟩
  have ticked : (guardedTick host (call host bound)).Follows keeps := by
    intro w
    by_cases hs : Simulates w.cache w.now m
    · refine (guardedTick_returns (callVia_answers hq (perform host bound)) hs).ends.mono ?_
      rintro _ w' ⟨_, _, h⟩ _
      exact h
    · exact (ends_self _ w).mono fun _ _ _ h => absurd h hs
  exact (settle_of_ticks still trans set ticked w).mono fun _ _ h => h hs

end Act

/-! ## Operations -/

/-- The operation gives no other policies than those that carry deadlines, and neither gives the
cache up nor lets several callers fetch at once. -/
def Operation.Timely : Operation ν η → Prop
  | .insert _ _ options => ∀ p, options.policy = some p → p.isTimed = true
  | .fetch _ _ options => ∀ p, options.policy = some p → p.isTimed = true
  | .race .. => False
  | .drop => False
  | _ => True

namespace Act

variable {host : Host ν η μ} {invoke : Invoke ν η μ} {w : World ν η μ} {m : TimedMap ν}

theorem carryOut_returns (ha : Answers invoke) (hs : Simulates w.cache w.now m)
    (hadm : w.cache.admission.Held []) {op : Operation ν η} (ht : op.Timely) (retries : Nat) :
    (carryOut host invoke (retries + 1) op).Returns w fun answer w' =>
      Fulfils (fun s => m.step host.accepts w.now s op) answer w w' := by
  have still : ∀ {answer : Answer ν} (shown : Shown ν), shown.Matches answer →
      Fulfils (fun _ => ⟨m, shown, false⟩) answer w w :=
    fun shown h => (Quietly.refl w).fulfils hs shown _ h
  cases op with
  | insert key value options =>
    have hw : Awaiting w.now [] w := ⟨rfl, rfl⟩
    refine keyed_returns hs (.bind (insert_returns ha hs key value options ht hw) ?_)
    rintro _ w1 ⟨seg, hcourse, -, hs1, hstored⟩
    rw [List.append_nil] at hs1 hstored
    refine .pure (hcourse.fulfils rfl hs1 ?_ hstored)
    unfold TimedMap.insert
    split <;> rfl
  | get key =>
    refine keyed_returns hs (.bind (lookup_returns ha hs .full key retries) ?_)
    rintro found w1 ⟨rfl, hq, hs1⟩
    exact .pure (hq.fulfils hs1 _ _ rfl)
  | contains key =>
    refine keyed_returns hs (.bind (lookup_returns ha hs .peek key retries) ?_)
    rintro found w1 ⟨rfl, hq, hs1⟩
    exact .pure (hq.fulfils hs1 _ _ rfl)
  | fetch key factory options =>
    refine .bind (fetch_returns ha hs hadm factory options ht retries) ?_
    intro r w1 h
    cases r with
    | value value => exact .pure h
    | refused cause => exact .pure h
  | race => exact ht.elim
  | remove key =>
    refine keyed_returns hs (.bind (remove_returns ha hs key) ?_)
    rintro found w1 ⟨hq, hs1⟩
    exact .pure (hq.fulfils hs1 .anything _ trivial)
  | clear =>
    refine .bind (clear_returns ha w) ?_
    rintro _ w1 ⟨hq, hs1⟩
    exact .pure (hq.fulfils hs1 .anything _ trivial)
  | sweep =>
    refine .bind (sweep_returns ha hs) ?_
    rintro n w1 ⟨hq, hs1⟩
    exact .pure (hq.fulfils hs1 .anything _ trivial)
  | length => exact .cache (.pure (still .anything trivial))
  | keys =>
    refine .bind (liveKeys_returns hs) ?_
    rintro ks w1 ⟨rfl, hks⟩
    exact .pure (still _ hks)
  | statistics => exact .cache (.pure (still .anything trivial))
  | timerRunning => exact .cache (.pure (still .anything trivial))
  | onExpiring handler =>
    exact .change (.pure ((Quietly.change rfl rfl rfl).fulfils (hs.congr fun _ => rfl) .anything _
      trivial))
  | onExpired handler =>
    exact .change (.pure ((Quietly.change rfl rfl rfl).fulfils (hs.congr fun _ => rfl) .anything _
      trivial))
  | drop => exact ht.elim

theorem operate_returns (ha : Answers invoke) (hs : Simulates w.cache w.now m)
    (hadm : w.cache.admission.Held []) (hh : w.cache.handle = .held) {op : Operation ν η}
    (ht : op.Timely) (retries : Nat) :
    (operate host invoke (retries + 1) op).Returns w fun answer w' =>
      Fulfils (fun s => m.step host.accepts w.now s op) answer w w' := by
  have carried : (carryOut host invoke (retries + 1) op).Returns (w.push (.operation op))
      fun answer w1 => Fulfils (fun s => m.step host.accepts w.now s op) answer
        (w.push (.operation op)) w1 ∧ w1.cache.handle = .held := by
    refine (carryOut_returns (w := w.push (.operation op)) ha hs hadm ht retries).mono ?_
    intro answer w1 h
    exact ⟨h, h.handle.trans hh⟩
  refine (operate_finishes carried).mono ?_
  rintro answer w' ⟨w1, h, rfl⟩
  exact h.inside.trans_quietly (.note rfl) fun _ => rfl

end Act

/-- The world shows the map, and nobody works on the cache. -/
structure Tracks (w : World ν η μ) (m : TimedMap ν) : Prop where
  shows : Simulates w.cache w.now m
  admission : w.cache.admission.Held []
  handle : w.cache.handle = .held

namespace Tracks

variable {host : Host ν η μ} {w w' : World ν η μ} {m : TimedMap ν}

theorem fresh (settings : Settings η) (hosting : Hosting) (t : Instant) (memory : μ) :
    Tracks (World.fresh settings hosting t memory : World ν η μ) .empty := by
  refine ⟨⟨?_, fun _ => rfl⟩, Admission.held_empty, rfl⟩
  intro key e he
  cases he

theorem quietly (h : Tracks w m) (hq : Quietly w w') (hs : Simulates w'.cache w'.now m) :
    Tracks w' m := by
  refine ⟨hs, ?_, hq.handle.trans h.handle⟩
  rw [hq.admission]
  exact h.admission

theorem fulfils {o : Supply ν η → Outcome ν} {seg : List (Line ν η)} (h : Tracks w m)
    (hc : Course seg w w') (hs : Simulates w'.cache w'.now (o (.of w.now seg)).map) :
    Tracks w' (o (.of w.now seg)).map :=
  ⟨hs, hc.admission [] h.admission, hc.handle.trans h.handle⟩

theorem settle (h : Tracks w m) (hq : host.Quiet) (bound : Nat) :
    Tracks ((Act.settle host bound).after w) m := by
  refine Act.Ends.after (P := fun w' => Tracks w' m) ?_
  refine (Act.settle_ends hq bound h.shows).mono ?_
  rintro _ w1 ⟨hquiet, hs⟩
  exact h.quietly hquiet hs

theorem perform (h : Tracks w m) (hq : host.Quiet) {op : Operation ν η} (ht : op.Timely)
    (bound : Nat) : (Act.perform host (bound + 2) op).Returns w fun answer w' =>
      Fulfils (fun s => m.step host.accepts w.now s op) answer w w' := by
  unfold Act.perform
  refine .cache ?_
  rw [if_pos h.handle]
  exact Act.operate_returns (Act.callVia_answers hq _) h.shows h.admission h.handle ht bound

end Tracks

/-! ## Sequences of steps -/

/-- What happens at the top level: an operation, the passing of time, and the timer's turn. -/
inductive Step (ν η : Type) where
  | perform (op : Operation ν η)
  | wait (span : Span)
  | settle

/-- Step by step the world shows what the map does, given what the host supplies. -/
def Refines (host : Host ν η μ) (bound : Nat) :
    List (Step ν η) → World ν η μ → TimedMap ν → Prop
  | [], _, _ => True
  | .perform op :: steps, w, m => ∃ answer w' seg,
      Act.perform host bound op w = .ok answer w' ∧ w'.journal = seg ++ w.journal ∧
      let o := m.step host.accepts w.now (.of w.now seg) op
      o.shown.Matches answer ∧ o.stored = seg.any (·.stores) ∧ Refines host bound steps w' o.map
  | .wait span :: steps, w, m => Refines host bound steps { w with now := w.now.advance span } m
  | .settle :: steps, w, m => Refines host bound steps ((Act.settle host bound).after w) m

theorem Tracks.refines {host : Host ν η μ} (hq : host.Quiet) (bound : Nat)
    (steps : List (Step ν η)) (ht : ∀ op, .perform op ∈ steps → op.Timely) :
    ∀ (w : World ν η μ) (m : TimedMap ν), Tracks w m → Refines host (bound + 2) steps w m := by
  induction steps with
  | nil =>
    intro w m _
    trivial
  | cons step steps ih =>
    intro w m h
    have ih := ih fun op hop => ht op (List.mem_cons_of_mem _ hop)
    cases step with
    | perform op =>
      obtain ⟨answer, w', hw', seg, hc, hs, hanswer, hstored⟩ :=
        h.perform hq (ht op (List.mem_cons_self ..)) bound
      have h' := h.fulfils (o := fun s => m.step host.accepts w.now s op) hc hs
      exact ⟨answer, w', seg, hw', hc.journal, hanswer, hstored, ih w' _ h'⟩
    | wait span =>
      exact ih _ m ⟨h.shows.later (w.now.le_advance span), h.admission, h.handle⟩
    | settle => exact ih _ m (h.settle hq (bound + 2))

/-- Whatever is done with a new cache, and whenever its timer ticks, shows the timed map; and where a
cache shows the map, it makes no difference whether what is not live is stored still or was taken
out. -/
theorem new_cache_refines_timed_map (host : Host ν η μ) (hq : host.Quiet) (settings : Settings η)
    (hosting : Hosting) (t : Instant) (memory : μ) (bound : Nat) (steps : List (Step ν η))
    (ht : ∀ op, .perform op ∈ steps → op.Timely) :
    Refines host (bound + 2) steps (World.fresh settings hosting t memory) .empty ∧
    ∀ (w : World ν η μ) (m : TimedMap ν) (key : Key) (f : Stats → Stats),
      Tracks w m → m.look w.now key = none →
        Refines host (bound + 2) steps w m ∧
        Refines host (bound + 2) steps (w.change (.takeOut key f)) m := by
  refine ⟨Tracks.refines hq bound steps ht _ _ (.fresh settings hosting t memory), ?_⟩
  intro w m key f h hgone
  have hevicted : Tracks (w.change (.takeOut key f)) m :=
    ⟨h.shows.evict (Cache.find?_takeOut key f w.cache) hgone, h.admission, h.handle⟩
  exact ⟨Tracks.refines hq bound steps ht w m h, Tracks.refines hq bound steps ht _ m hevicted⟩

/-- A sliding entry is read in time, expires, and is fetched again. -/
def revisit : List (Step Nat String) :=
  [.perform (.insert "k" 1 ⟨some (.sliding (.ofMillis 5) none), false⟩), .wait (.ofMillis 3),
    .perform (.get "k"), .wait (.ofMillis 3), .perform .keys, .wait (.ofMillis 2), .settle,
    .perform (.contains "k"), .perform (.fetch "k" "make" .default)]

theorem revisit_refines :
    Refines (.obliging 7) 2 revisit (.fresh .keeping .task .zero ()) .empty := by
  refine (new_cache_refines_timed_map (.obliging 7) (Host.obliging_quiet 7) .keeping .task .zero ()
    0 revisit ?_).1
  intro op hop
  simp only [revisit, List.mem_cons, List.not_mem_nil, Step.perform.injEq, reduceCtorEq, false_or,
    or_false] at hop
  rcases hop with rfl | rfl | rfl | rfl | rfl
  · intro p hp
    cases hp
    rfl
  · trivial
  · trivial
  · trivial
  · intro p hp
    cases hp

end ExpiringCache
