import ExpiringCache.Proofs.Attendance

/-!
# Intervals that the timer's task can live with

The task begins by adding the interval to the clock's reading. Where the sum is an instant the task
waits for it, and while an entry is stored that can expire only a tick that panics ends it. Where
there is no such instant the task ends as it begins, whatever is stored. The clock never goes back,
so once there is no room for an interval there never will be.
-/

namespace ExpiringCache

variable {ν η μ α : Type}

theorem Instant.isSome_plus?_iff {t : Instant} {s : Span} :
    (t.plus? s).isSome = true ↔ t.nanos + s.nanos ≤ last.nanos := by
  rw [Option.isSome_iff_ne_none, Ne, plus?_eq_none_iff, Int.not_lt]

theorem Instant.room_earlier {t u : Instant} {s : Span} (h : t ≤ u)
    (hu : (u.plus? s).isSome = true) : (t.plus? s).isSome = true := by
  rw [isSome_plus?_iff] at *
  rw [le_def] at h
  omega

theorem Instant.no_room_later {t u : Instant} {s : Span} (h : t ≤ u) (ht : t.plus? s = none) :
    u.plus? s = none := by
  rw [plus?_eq_none_iff] at *
  rw [le_def] at h
  omega

namespace History

variable {host : Host ν η μ} {settings : Settings η} {beats : List (Beat × World ν η μ)}
  {w : World ν η μ}

theorem start_le (h : History host settings beats w) {b : Beat} {v : World ν η μ}
    (hb : (b, v) ∈ beats) {start : Instant} (hs : b.start? = some start) : start ≤ w.now := by
  induction h with
  | fresh t memory => cases hb
  | program bound p r _ hr ih =>
    obtain ⟨seg, hrun⟩ := Act.program_run hr
    exact Int.le_trans (ih hb) hrun.moves.now_le
  | @beat beats w w' bound last h hl ih =>
    obtain ⟨seg, hrun⟩ := hl.run h.calls
    have hle : w.now ≤ w'.now := hrun.moves.now_le
    rcases List.mem_cons.mp hb with heq | hb
    · cases heq
      have hmoment : start ≤ w.now := by
        cases hl with
        | begun moment hm ht =>
          cases hs
          exact hm
        | ticked due moment hm ht hd hr =>
          simp only [Beat.start?, Option.ite_none_right_eq_some, Option.some.injEq] at hs
          exact hs.2 ▸ hm
        | unwound due moment message hm ht hd hr =>
          simp only [Beat.start?, Option.ite_none_right_eq_some, Option.some.injEq] at hs
          exact hs.2 ▸ hm
      exact Int.le_trans hmoment hle
    · exact Int.le_trans (ih hb) hle

theorem roomy (h : History host settings beats w)
    (hroom : (w.now.plus? settings.interval).isSome = true) : Roomy settings beats := by
  intro b v hb start hs
  exact Instant.room_earlier (h.start_le hb hs) hroom

/-- A task that has begun waits for the end of one interval, if there is such an instant. -/
theorem begun (h : History host settings beats w) {moment : Instant} {v : World ν η μ}
    (hv : (.begun moment, v) ∈ beats) :
    v.cache.timer = some (.begin settings.interval moment) := by
  induction h with
  | fresh t memory => cases hv
  | program bound p r _ hr ih => exact ih hv
  | @beat beats w w' bound b h hb ih =>
    rcases List.mem_cons.mp hv with hlast | hv
    · cases hlast
      cases hb with
      | begun moment hm ht =>
        rw [← h.settings_eq]
        rfl
    · exact ih hv

end History

/-- Nobody but the timer's own task schedules a tick. -/
theorem Move.waiting {w w' : World ν η μ} (h : Move 1 w w') {due : Instant}
    (hw : w'.cache.timer = some (.waiting due)) : w.cache.timer = some (.waiting due) := by
  have same : w'.cache.timer = w.cache.timer → w.cache.timer = some (.waiting due) :=
    fun ht => ht ▸ hw
  have none : w'.cache.timer = none → w.cache.timer = some (.waiting due) := by
    intro ht
    rw [ht] at hw
    cases hw
  cases h with
  | tune f hb => exact same hb.timer
  | place key value policy =>
    have hplaced : (w.placed key value policy).cache.timer = w.cache.timer := by
      rw [World.cache_placed]
      rfl
    cases policy with
    | none => exact same hplaced
    | some policy =>
      change (Cache.ensureTimer _).timer = _ at hw
      unfold Cache.ensureTimer at hw
      split at hw
      · exact hplaced ▸ hw
      · cases hw
  | empty =>
    rw [World.emptied_eq] at same
    exact same rfl
  | close =>
    rw [World.emptied_eq] at none
    exact none rfl
  | retire => exact none rfl
  | beat hl => cases hl
  | _ => exact same rfl

theorem Moves.waiting {w w' : World ν η μ} (h : Moves 1 w w') {due : Instant}
    (hw : w'.cache.timer = some (.waiting due)) : w.cache.timer = some (.waiting due) := by
  induction h with
  | refl => exact hw
  | tail _ hm ih => exact ih (hm.waiting hw)

/-- The timer has no tick to come. -/
def World.Tickless (w : World ν η μ) : Prop := ∀ due, w.cache.timer ≠ some (.waiting due)

theorem Moves.tickless {w w' : World ν η μ} (h : Moves 1 w w') (hw : w.Tickless) : w'.Tickless :=
  fun due hd => hw due (h.waiting hd)

/-- The session has come to a point from which no interval fits, and no tick is to come. -/
structure World.Cramped (settings : Settings η) (w : World ν η μ) : Prop where
  settings_eq : w.cache.settings = settings
  room : w.now.plus? settings.interval = none
  tickless : w.Tickless

namespace World.Cramped

variable {host : Host ν η μ} {bound : Nat} {settings : Settings η} {w v v' : World ν η μ} {b : Beat}

theorem run {a b : Account} {whole : Prop} {seg : List (Line ν η)} (h : v.Cramped settings)
    (hr : Run 1 a b whole seg v v') : v'.Cramped settings :=
  ⟨hr.moves.settings.trans h.settings_eq, Instant.no_room_later hr.moves.now_le h.room,
    hr.moves.tickless h.tickless⟩

/-- The only beat there can be is the task's beginning, and it is its end. -/
theorem beat (h : v.Cramped settings) (hroom : b.moment.plus? settings.interval = none)
    (hb : b.Leads host bound v v') : v'.Cramped settings := by
  cases hb with
  | begun moment hm ht =>
    refine ⟨h.settings_eq, h.room, ?_⟩
    intro due
    have hended : Timer.begin v.cache.settings.interval moment = .ended := by
      rw [h.settings_eq]
      simp only [Timer.begin, show moment.plus? settings.interval = none from hroom]
    simp [Cache.setTimer, hended]
  | ticked due moment hm ht hd hr => exact absurd ht (h.tickless due)
  | unwound due moment message hm ht hd hr => exact absurd ht (h.tickless due)

theorem timerRunning (h : v.Cramped settings) (hr : v.Rests v.now) :
    v.cache.timerRunning = false := by
  unfold Cache.timerRunning
  match ht : v.cache.timer with
  | none => rfl
  | some .starting => exact absurd ht hr.1
  | some (.waiting due) => exact absurd ht (h.tickless due)
  | some .ended => rfl

end World.Cramped

/-- Once no interval fits, a timer that stands still does so for ever. -/
theorem Act.turn_cramped {host : Host ν η μ} {bound : Nat} {settings : Settings η}
    {w w' : World ν η μ} {p : Program ν η μ α} {r : Except String α}
    (hw : Between host settings .task w) (hroom : w.now.plus? settings.interval = none)
    (hstill : w.cache.timerRunning = false) (hr : turn host bound p w = .ok r w') :
    w'.cache.timerRunning = false := by
  obtain ⟨beats, hhistory⟩ := hw.history
  have hcramped : w.Cramped settings := by
    refine ⟨hhistory.settings_eq, hroom, ?_⟩
    intro due hd
    rw [Cache.timerRunning, hd] at hstill
    cases hstill
  obtain ⟨v, hv, hs⟩ := turn_ok hr
  obtain ⟨seg, hrun⟩ := program_run hv
  have hkept := settle_keeps (I := World.Cramped settings) ?_ (hrun.calls.trans hhistory.calls)
    (hrun.moves.hosting.trans hhistory.hosting) (hcramped.run hrun) hs
  · obtain ⟨hend, -, -, hrest⟩ := hkept
    exact hend.timerRunning hrest
  · intro b u u' hb hmoment hu
    have hle : w.now ≤ b.moment := Int.le_trans hrun.moves.now_le hmoment
    exact hu.beat (Instant.no_room_later hle hroom) hb

/-- While the clock's reading and one interval make an instant, the timer runs whenever an entry is
stored that has a policy and no tick has panicked. A task that begins waits until one interval has
passed, or ends where there is no such instant; and from a reading with which there is none, a timer
that does not run is never seen to run again, whatever is stored. -/
theorem timer_works_while_its_interval_fits (host : Host ν η μ) (settings : Settings η) :
    (∀ beats w, History host settings beats w → (w.now.plus? settings.interval).isSome = true →
      (∀ due moment v, (.unwound due moment, v) ∉ beats) →
      (∃ key e policy, w.cache.find? key = some e ∧ e.policy = some policy) →
      w.cache.timerRunning = true) ∧
    (∀ beats w, History host settings beats w → ∀ moment v, (.begun moment, v) ∈ beats →
      (∀ due, moment.plus? settings.interval = some due → v.cache.timer = some (.waiting due)) ∧
      (moment.plus? settings.interval = none → v.cache.timer = some .ended)) ∧
    ∀ w, Between host settings .task w → w.now.plus? settings.interval = none →
      w.cache.timerRunning = false →
      ∀ (bound : Nat) (α : Type) (p : Program ν η μ α) r w', Act.turn host bound p w = .ok r w' →
        w'.cache.timerRunning = false := by
  refine ⟨?_, ?_, ?_⟩
  · rintro beats w h hroom hcalm ⟨key, e, policy, he, hp⟩
    have hneeded : w.cache.needsTimer = true :=
      Cache.needsTimer_iff.mpr ⟨key, e, he, by rw [Entry.canExpire, hp]; rfl⟩
    rcases h.attended (h.roomy hroom) hneeded with hr | ⟨due, moment, v, rest, since, hb, -⟩
    · exact hr
    · exact absurd (hb ▸ List.mem_cons_self ..) (hcalm due moment v)
  · intro beats w h moment v hv
    rw [h.begun hv]
    refine ⟨?_, ?_⟩
    · intro due hdue
      simp only [Timer.begin, hdue]
    · intro hnone
      simp only [Timer.begin, hnone]
  · intro w hw hroom hstill bound α p r w' hr
    exact Act.turn_cramped hw hroom hstill hr

/-! ## A span longer than what is left of the clock -/

/-- Two to the power of 63 seconds. -/
def Span.overlong : Span := ⟨9223372036854775808 * nanosPerSecond, by decide⟩

def Settings.overlong : Settings String := { Settings.keeping with interval := .overlong }

/-- An entry that can expire came in, and the timer's task has had its turn. -/
def World.timerEnded : World Nat String Unit :=
  (Act.turn .reentrant 6 .insertSliding).after (.fresh .overlong .task .zero ())

theorem timer_of_tickedOnce_works : World.tickedOnce.cache.timerRunning = true ∧
    World.timerBegun.cache.timer = some (.waiting .firstTick) ∧
    World.timerEnded.cache.timerRunning = false := by
  obtain ⟨hworks, hbegun, -⟩ :=
    timer_works_while_its_interval_fits Host.reentrant Settings.keeping
  obtain ⟨-, -, hstands⟩ :=
    timer_works_while_its_interval_fits Host.reentrant Settings.overlong
  have hstored : (World.tickedOnce.cache.find? "k").any (·.policy.isSome) = true := by
    decide +kernel
  obtain ⟨e, he, hp⟩ := (Option.any_eq_true _ _).mp hstored
  obtain ⟨policy, hpolicy⟩ := Option.isSome_iff_exists.mp hp
  refine ⟨hworks _ _ tickedOnce_history (by decide +kernel) ?_ ⟨"k", e, policy, he, hpolicy⟩, ?_, ?_⟩
  · intro due moment v hv
    simp at hv
  · have hv := List.mem_cons_of_mem (.ticked .firstTick .firstTick, World.tickedOnce)
      (List.mem_singleton_self (Beat.begun .zero, World.timerBegun))
    exact (hbegun _ _ tickedOnce_history .zero _ hv).1 .firstTick (by decide +kernel)
  · exact hstands (.fresh .overlong .task .zero ()) (.fresh .zero ()) (by decide +kernel) rfl
      6 Unit .insertSliding (.ok ()) World.timerEnded rfl

/-- The interval is accepted, and yet the task is at its end with the entry stored. -/
theorem accepted_interval_ends_the_timer :
    Settings.overlong.checked = .ok .overlong ∧
    Settings.overlong.interval.nanos % nanosPerMilli = 0 ∧
    Between .reentrant .overlong .task World.timerEnded ∧
    (World.timerEnded.journal.all fun l => !(l.record matches .unwound _)) = true ∧
    (World.timerEnded.cache.find? "k").any (·.policy.isSome) = true ∧
    World.timerEnded.cache.timerRunning = false :=
  ⟨rfl, by decide +kernel, .turn 6 .insertSliding (.ok ()) (.fresh .zero ()) rfl, by decide +kernel,
    by decide +kernel, by decide +kernel⟩

end ExpiringCache
