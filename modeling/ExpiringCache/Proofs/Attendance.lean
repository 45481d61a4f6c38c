import ExpiringCache.Proofs.Beats

/-!
# The timer runs while it is needed

The timer is needed while an entry is stored that can expire. It is started together with the first
such entry, and by nobody stopped before the last of them is gone, except that a tick that panics
takes the timer's task with it: then it stands still until the next such entry comes in. A tick that
returns leaves it running exactly if it is needed.
-/

namespace ExpiringCache

variable {ν η μ : Type}

theorem Cache.needsTimer_iff {c : Cache ν η} :
    c.needsTimer = true ↔ ∃ key e, c.find? key = some e ∧ e.canExpire = true := by
  unfold needsTimer find?
  rw [List.any_eq_true]
  constructor
  · rintro ⟨r, hr, hx⟩
    exact ⟨r.1, r.2, Table.get?_eq_some_iff.mpr hr, hx⟩
  · rintro ⟨key, e, he, hx⟩
    exact ⟨(key, e), Table.get?_eq_some_iff.mp he, hx⟩

namespace Line

/-- An entry came in that can expire. -/
def insertsExpirable (l : Line ν η) : Bool :=
  match l.record with
  | .inserted _ key _ => (l.cache.find? key).any (·.canExpire)
  | _ => false

end Line

/-- From `w` to `w'` no entry came in that can expire, and the timer runs as it ran. -/
structure Untended (w w' : World ν η μ) : Prop where
  needed : w'.cache.needsTimer = true → w.cache.needsTimer = true
  running : w'.cache.timerRunning = w.cache.timerRunning
  journal : ∃ new, w'.journal = new ++ w.journal ∧ ∀ l ∈ new, l.insertsExpirable = false

namespace Untended

variable {w w' w'' : World ν η μ}

theorem refl (w : World ν η μ) : Untended w w := by
  refine ⟨fun h => h, rfl, [], rfl, ?_⟩
  intro l hl
  cases hl

theorem trans (h : Untended w w') (k : Untended w' w'') : Untended w w'' :=
  ⟨fun hw => h.needed (k.needed hw), k.running.trans h.running, written_trans h.journal k.journal⟩

theorem of_stored (new : List (Line ν η)) (hj : w'.journal = new ++ w.journal)
    (hn : ∀ l ∈ new, l.insertsExpirable = false) (ht : w'.cache.timer = w.cache.timer)
    (hs : ∀ key e', w'.cache.find? key = some e' → e'.canExpire = true →
      ∃ e, w.cache.find? key = some e ∧ e.canExpire = true) : Untended w w' := by
  refine ⟨?_, ?_, new, hj, hn⟩
  · intro h
    obtain ⟨key, e', he', hx'⟩ := Cache.needsTimer_iff.mp h
    obtain ⟨e, he, hx⟩ := hs key e' he' hx'
    exact Cache.needsTimer_iff.mpr ⟨key, e, he, hx⟩
  · unfold Cache.timerRunning
    rw [ht]

end Untended

namespace Move

variable {w w' : World ν η μ}

theorem placed_attends (key : Key) (value : ν) (policy : Option (Policy η)) :
    ((w.placed key value policy).tended policy).cache.timerRunning = true ∨
      Untended w ((w.placed key value policy).tended policy) := by
  cases policy with
  | some policy =>
    refine Or.inl ?_
    show (Cache.ensureTimer _).timerRunning = true
    unfold Cache.ensureTimer
    split
    · rename_i h
      exact h
    · rfl
  | none =>
    refine Or.inr (.of_stored _ (w.journal_placed key value none) ?_ ?_ ?_)
    · intro l hl
      have hcame : ((w.change (.insert w.now key value none)).line
          (.inserted w.cache.nextGeneration key value)).insertsExpirable = false := by
        simp [World.line, Line.insertsExpirable, Cache.find?_insert, Entry.insertedAt, Entry.canExpire]
      unfold World.placedLines at hl
      split at hl
      · rw [List.mem_singleton.mp hl]
        exact hcame
      · rcases List.mem_cons.mp hl with rfl | hl
        · rfl
        · rw [List.mem_singleton.mp hl]
          exact hcame
    · show (w.placed key value none).cache.timer = w.cache.timer
      rw [World.cache_placed]
      rfl
    · intro j e' he' hx
      rw [World.find?_tended, World.cache_placed] at he'
      rcases Cache.find?_insert_eq_some.mp he' with ⟨-, rfl⟩ | ⟨-, he'⟩
      · cases hx
      · exact ⟨e', he', hx⟩

/-- Within a program or a tick the timer runs after each move, if it is needed then, or else nothing
has changed about it. -/
theorem attends (h : Move 1 w w') (hn : w'.cache.needsTimer = true) :
    w'.cache.timerRunning = true ∨ Untended w w' := by
  -- most moves write nothing, leave the timer alone and at most change a mark or a deadline
  have quiet : ∀ v : World ν η μ, v.journal = w.journal → v.cache.timer = w.cache.timer →
      (∀ key e', v.cache.find? key = some e' →
        ∃ e, w.cache.find? key = some e ∧ e.Continues w.now e') →
      v.cache.timerRunning = true ∨ Untended w v := by
    intro v hj ht hs
    refine Or.inr (.of_stored [] hj ?_ ht ?_)
    · intro l hl
      cases hl
    · intro key e' he' hx
      obtain ⟨e, he, hc⟩ := hs key e' he'
      exact ⟨e, he, hc.canExpire ▸ hx⟩
  have needless : ∀ v : World ν η μ, v.emptied.cache.needsTimer = true → False := by
    intro v hv
    rw [World.emptied_eq] at hv
    obtain ⟨key, e, he, -⟩ := Cache.needsTimer_iff.mp hv
    cases he
  cases h with
  | note r hr hl =>
    refine Or.inr (.of_stored [w.line r] rfl ?_ rfl fun key e' he hx => ⟨e', he, hx⟩)
    intro l hm
    rw [List.mem_singleton.mp hm]
    cases r with
    | inserted => cases hr
    | _ => rfl
  | tune f hb =>
    refine quiet _ rfl hb.timer ?_
    intro key e' he
    rw [World.cache_change, hb.find?] at he
    exact ⟨e', he, .refl w.now e'⟩
  | touch => exact quiet _ rfl rfl fun _ _ he => Cache.continues_touch w.now he
  | mark => exact quiet _ rfl rfl fun _ _ he => Cache.continues_mark w.now he
  | unmark => exact quiet _ rfl rfl fun _ _ he => Cache.continues_mark w.now he
  | place key value policy => exact placed_attends key value policy
  | takeOut key e exit f hf hl =>
    refine Or.inr (.of_stored [_] rfl ?_ rfl ?_)
    · intro l hm
      rw [List.mem_singleton.mp hm]
      rfl
    · intro j e' he hx
      exact ⟨e', (Cache.find?_takeOut_eq_some.mp he).2, hx⟩
  | empty => exact (needless _ hn).elim
  | close => exact (needless _ hn).elim
  | retire hneedless =>
    have hsame : w.cache.needsTimer = true := hn
    rw [hneedless] at hsame
    cases hsame
  | beat hl => cases hl
  | _ => exact quiet _ rfl rfl fun _ e' he => ⟨e', he, .refl w.now e'⟩

end Move

theorem Moves.attends {w w' : World ν η μ} (h : Moves 1 w w') (hn : w'.cache.needsTimer = true) :
    w'.cache.timerRunning = true ∨ Untended w w' := by
  induction h with
  | refl => exact Or.inr (.refl w)
  | @tail v v' _ hm ih =>
    rcases hm.attends hn with hr | hu
    · exact Or.inl hr
    · rcases ih (hu.needed hn) with hr | hv
      · exact Or.inl (hu.running.trans hr)
      · exact Or.inr (hv.trans hu)

theorem Timer.isRunning_begin {interval : Span} {moment : Instant}
    (h : (moment.plus? interval).isSome = true) : (begin interval moment).isRunning = true := by
  obtain ⟨due, hd⟩ := Option.isSome_iff_exists.mp h
  simp only [begin, hd, isRunning]

/-- A tick that keeps the schedule has a next one; a late one needs room for an interval. -/
theorem Timer.isRunning_next {interval : Span} {due moment : Instant}
    (h : due.nanos + tolerance < moment.nanos → (moment.plus? interval).isSome = true) :
    (next interval due moment).isRunning = true := by
  unfold next
  split
  · rename_i hlate
    exact isRunning_begin (h hlate)
  · split <;> rfl

/-- A tick that begins with the timer running and returns leaves it running if it is needed, and
stops it if it is not. -/
theorem Act.tick_attends {host : Host ν η μ} {bound : Nat} {w w' : World ν η μ}
    (hc : w.calls = []) (hw : w.cache.timerRunning = true)
    (hr : tick host (call host bound) w = .ok () w') :
    w'.cache.timerRunning = w'.cache.needsTimer := by
  have hsweep : (sweep host (call host bound)).Runs 1 w := by
    refine sweep_runs (call_invokes host bound) (Nat.le_add_left 1 _) host ?_
    intro key
    rw [hc]
    rfl
  have hends : (tick host (call host bound)).Ends w fun r w' =>
      r = .ok () → w'.cache.timerRunning = w'.cache.needsTimer := by
    unfold Runs Goes at hsweep
    unfold tick
    refine Ends.bind hsweep ?_ ?_
    · rintro n v ⟨seg, hrun, -⟩
      refine ends_cache.mpr ?_
      cases hn : v.cache.needsTimer with
      | false =>
        intro _
        exact hn.symm
      | true =>
        refine ends_pure.mpr ?_
        intro _
        rw [hn]
        rcases hrun.moves.attends hn with h | h
        · exact h
        · exact h.running.trans hw
    · intro e v _ h
      cases h
  exact hends.of_ok hr rfl

/-- The last beat was a tick that panicked, and no entry has come in since that can expire. -/
def Abandoned (beats : List (Beat × World ν η μ)) (w : World ν η μ) : Prop :=
  ∃ due moment v rest since, beats = (.unwound due moment, v) :: rest ∧
    w.journal = since ++ v.journal ∧ ∀ l ∈ since, l.insertsExpirable = false

theorem Abandoned.later {beats : List (Beat × World ν η μ)} {w w' : World ν η μ}
    (h : Abandoned beats w) (hu : Untended w w') : Abandoned beats w' := by
  obtain ⟨due, moment, v, rest, since, hb, hj, hs⟩ := h
  obtain ⟨new, hnew, hn⟩ := hu.journal
  refine ⟨due, moment, v, rest, new ++ since, hb, ?_, ?_⟩
  · rw [hnew, hj, List.append_assoc]
  · intro l hl
    rcases List.mem_append.mp hl with hl | hl
    · exact hn l hl
    · exact hs l hl

namespace History

variable {host : Host ν η μ} {settings : Settings η} {beats : List (Beat × World ν η μ)}
  {w : World ν η μ}

/-- Every schedule that is started has room for one interval. -/
def Roomy (settings : Settings η) (beats : List (Beat × World ν η μ)) : Prop :=
  ∀ b v, (b, v) ∈ beats → ∀ start, b.start? = some start →
    (start.plus? settings.interval).isSome = true

theorem tick_scheduled {due moment : Instant} (hw : w.cache.settings = settings)
    (h : ∀ start, (Beat.ticked due moment).start? = some start →
      (start.plus? settings.interval).isSome = true) :
    (w.scheduled due moment).cache.timerRunning = true := by
  refine Timer.isRunning_next ?_
  intro hlate
  rw [hw]
  exact h moment (if_pos hlate)

theorem attended (h : History host settings beats w) (hroom : Roomy settings beats)
    (hn : w.cache.needsTimer = true) : w.cache.timerRunning = true ∨ Abandoned beats w := by
  induction h with
  | fresh t memory => cases hn
  | @program beats w w' α bound p r _ hr ih =>
    obtain ⟨seg, hrun⟩ := Act.program_run hr
    rcases hrun.moves.attends hn with hr | hu
    · exact Or.inl hr
    · -- the program has not touched the timer, so it stands as the history before left it
      rcases ih hroom (hu.needed hn) with hr | ha
      · exact Or.inl (hu.running.trans hr)
      · exact Or.inr (ha.later hu)
  | @beat beats w w' bound b h hb ih =>
    have hlast := hroom b w' (List.mem_cons_self ..)
    cases hb with
    | begun moment hm ht =>
      refine Or.inl (Timer.isRunning_begin ?_)
      rw [h.settings_eq]
      exact hlast moment rfl
    | ticked due moment hm ht hd hr =>
      have hrunning := tick_scheduled h.settings_eq hlast
      have hcalls : (w.scheduled due moment).calls = [] := h.calls
      exact Or.inl ((Act.tick_attends hcalls hrunning hr).trans hn)
    | unwound due moment message hm ht hd hr =>
      refine Or.inr ⟨due, moment, _, beats, [], rfl, rfl, ?_⟩
      intro l hl
      cases hl

theorem ticked (h : History host settings beats w) (hroom : Roomy settings beats)
    {due moment : Instant} {v : World ν η μ} (hv : (.ticked due moment, v) ∈ beats) :
    v.cache.timerRunning = v.cache.needsTimer := by
  induction h with
  | fresh t memory => cases hv
  | program bound p r _ hr ih => exact ih hroom hv
  | @beat beats w w' bound b h hb ih =>
    rcases List.mem_cons.mp hv with hlast | hv
    · have hstart := hroom b w' (List.mem_cons_self ..)
      cases hlast
      cases hb with
      | ticked due moment hm ht hd hr =>
        have hcalls : (w.scheduled due moment).calls = [] := h.calls
        exact Act.tick_attends hcalls (tick_scheduled h.settings_eq hstart) hr
    · exact ih (fun b v hb => hroom b v (List.mem_cons_of_mem _ hb)) hv

end History

/-- Every session between turns has a history of its programs and of the beats of its timer. In every
world of such a history, if an entry is stored that has a policy then the timer runs, unless the last
beat was a tick that a panic unwound and nothing with a policy has been inserted since; and a tick
that returned left the timer running exactly if an entry with a policy was stored then. -/
theorem timer_runs_while_needed (host : Host ν η μ) (settings : Settings η) :
    (∀ w, Between host settings .task w → ∃ beats, History host settings beats w) ∧
    ∀ beats w, History host settings beats w →
      (∀ b v, (b, v) ∈ beats → ∀ start, b.start? = some start →
        (start.plus? settings.interval).isSome = true) →
      ((∃ key e policy, w.cache.find? key = some e ∧ e.policy = some policy) →
        w.cache.timerRunning = true ∨
        ∃ due moment v rest since, beats = (.unwound due moment, v) :: rest ∧
          w.journal = since ++ v.journal ∧ ∀ l ∈ since, ∀ g key value,
            l.record = .inserted g key value →
              ∀ e, l.cache.find? key = some e → e.policy = none) ∧
      ∀ due moment v, (.ticked due moment, v) ∈ beats →
        (v.cache.timerRunning = true ↔
          ∃ key e policy, v.cache.find? key = some e ∧ e.policy = some policy) := by
  have needs : ∀ c : Cache ν η, c.needsTimer = true ↔
      ∃ key e policy, c.find? key = some e ∧ e.policy = some policy := by
    intro c
    simp only [Cache.needsTimer_iff, Entry.canExpire, Option.isSome_iff_exists, exists_and_left]
  refine ⟨fun w hw => hw.history, ?_⟩
  intro beats w h hroom
  refine ⟨?_, ?_⟩
  · intro hp
    rcases h.attended hroom ((needs _).mpr hp) with hr | ⟨due, moment, v, rest, since, hb, hj, hs⟩
    · exact Or.inl hr
    · refine Or.inr ⟨due, moment, v, rest, since, hb, hj, ?_⟩
      intro l hl g key value hrec e he
      have hinserted := hs l hl
      simp only [Line.insertsExpirable, hrec, he, Option.any_some, Entry.canExpire] at hinserted
      exact Option.isNone_iff_eq_none.mp (Option.isSome_eq_false_iff.mp hinserted)
  · intro due moment v hv
    rw [h.ticked hroom hv]
    exact needs _

/-! ## A tick that finds nothing to evict -/

/-- An entry comes in that outlives one interval. -/
def Program.insertSliding : Program Nat String Unit Unit :=
  .perform (.insert "k" 1 ⟨some (.sliding (.ofMillis 90000) none), false⟩) fun _ => .done ()

def Instant.firstTick : Instant := .advance .zero (.ofMillis 60000)

namespace World

def slidingInserted : World Nat String Unit :=
  (Act.attempt (Program.insertSliding.run (Act.perform .reentrant 6))).after
    (.fresh .keeping .task .zero ())

def timerBegun : World Nat String Unit :=
  slidingInserted.change (.setTimer (some (.begin slidingInserted.cache.settings.interval .zero)))

/-- One interval passes. -/
def intervalPassed : World Nat String Unit :=
  (Act.attempt (Program.run (Act.perform Host.reentrant 6)
    (.wait (.ofMillis 60000) (.done () : Program Nat String Unit Unit)))).after timerBegun

def tickedOnce : World Nat String Unit :=
  (Act.tick .reentrant (Act.call .reentrant 6)).after (intervalPassed.scheduled .firstTick .firstTick)

end World

theorem tickedOnce_history : History .reentrant .keeping
    [(.ticked .firstTick .firstTick, World.tickedOnce), (.begun .zero, World.timerBegun)]
    World.tickedOnce := by
  have hinserted : History .reentrant .keeping [] World.slidingInserted :=
    .program 6 .insertSliding (.ok ()) (.fresh .zero ()) rfl
  have hbegun : History .reentrant .keeping [(.begun .zero, World.timerBegun)] World.timerBegun :=
    .beat 6 _ hinserted (.begun .zero (by decide +kernel) (by decide +kernel))
  have hpassed : History .reentrant .keeping [(.begun .zero, World.timerBegun)] World.intervalPassed :=
    .program 6 (.wait (.ofMillis 60000) (.done ())) (.ok ()) hbegun rfl
  exact .beat 6 _ hpassed (.ticked .firstTick .firstTick (by decide +kernel) (by decide +kernel)
    (by decide +kernel) rfl)

theorem tickedOnce_timer_runs :
    World.tickedOnce.cache.find? "k" ≠ none ∧ World.tickedOnce.cache.timerRunning = true := by
  obtain ⟨-, hattended⟩ := timer_runs_while_needed Host.reentrant Settings.keeping
  obtain ⟨-, hticked⟩ := hattended _ _ tickedOnce_history (by
    intro b v hb start hs
    simp only [List.mem_cons, List.not_mem_nil, or_false, Prod.mk.injEq] at hb
    rcases hb with ⟨rfl, -⟩ | ⟨rfl, -⟩
    · have hpunctual : (Beat.ticked .firstTick .firstTick).start? = none := by decide +kernel
      rw [hpunctual] at hs
      cases hs
    · cases hs
      decide +kernel)
  refine ⟨by decide +kernel, (hticked _ _ _ (List.mem_cons_self ..)).mpr ?_⟩
  have hstored : (World.tickedOnce.cache.find? "k").any (·.policy.isSome) = true := by
    decide +kernel
  obtain ⟨e, he, hp⟩ := (Option.any_eq_true _ _).mp hstored
  obtain ⟨policy, hpolicy⟩ := Option.isSome_iff_exists.mp hp
  exact ⟨"k", e, policy, he, hpolicy⟩

end ExpiringCache
