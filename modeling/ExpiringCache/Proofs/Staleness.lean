import ExpiringCache.Proofs.Attendance
import ExpiringCache.Proofs.Sweeping

/-!
# How long an expired entry can stay

The next tick comes less than an interval after now, as long as the timer is needed, and less than an
interval after each stored entry expired or came in. Moves at a standing clock keep this; and when a
tick comes, what is overdue is evicted, so that nothing expired before now is left to wait for the
tick after it. If time passes between the owner's turns only and each turn lets the timer catch up,
no expired entry is ever stored for a whole interval, though nobody reads it.
-/

namespace ExpiringCache

variable {ν η μ α : Type}

namespace Timer

/-- By when the next tick comes. A task that has not begun begins now; one that has no moment left to
tick at counts as ticking past the last instant. -/
def dueBy (interval : Span) (now : Instant) : Option Timer → Int
  | some (.waiting due) => due.nanos
  | some .starting => min (now.nanos + interval.nanos) (Instant.last.nanos + 1)
  | _ => Instant.last.nanos + 1

variable {interval : Span} {due moment now : Instant}

theorem dueBy_begin (hm : moment ≤ now) :
    dueBy interval now (some (.begin interval moment)) ≤ dueBy interval now (some .starting) := by
  have hle : moment.nanos ≤ now.nanos := hm
  unfold begin
  cases hd : moment.plus? interval with
  | some due =>
    have h1 := Instant.plus?_eq_some_iff.mp hd
    have h2 := due.lt_end
    simp only [dueBy, Instant.last]
    omega
  | none =>
    have h1 := Instant.plus?_eq_none_iff.mp hd
    simp only [dueBy]
    omega

theorem dueBy_starting_le : dueBy interval now (some .starting) ≤ now.nanos + interval.nanos :=
  Int.min_le_left _ _

/-- A timer that does not run ticks later than one that is started now. -/
theorem dueBy_starting_le_of_idle {timer : Option Timer} (h : timer.any (·.isRunning) = false) :
    dueBy interval now (some .starting) ≤ dueBy interval now timer := by
  cases timer with
  | none => exact Int.min_le_right _ _
  | some timer =>
    cases timer with
    | ended => exact Int.min_le_right _ _
    | _ => cases h

/-- Once a tick has come, the next one is less than an interval away. -/
theorem dueBy_next (hd : due ≤ moment) (hm : moment ≤ now) :
    dueBy interval now (some (.next interval due moment)) ≤ now.nanos + interval.nanos := by
  have h1 : due.nanos ≤ moment.nanos := hd
  have h2 : moment.nanos ≤ now.nanos := hm
  unfold next
  split
  · exact Int.le_trans (dueBy_begin hm) dueBy_starting_le
  · cases hl : due.plus? interval with
    | some later =>
      have h3 := Instant.plus?_eq_some_iff.mp hl
      simp only [dueBy]
      omega
    | none =>
      -- there is no tick to come before the end of time
      have h3 := Instant.plus?_eq_none_iff.mp hl
      have h4 := (moment.advance farAway).lt_end
      simp only [dueBy]
      simp only [Instant.last] at h3
      omega

end Timer

/-- By when the next tick comes, the clock being where it is. -/
def World.dueBy (w : World ν η μ) : Int :=
  Timer.dueBy w.cache.settings.interval w.now w.cache.timer

/-- While the timer is needed the next tick is less than an interval away. -/
def Soon (w : World ν η μ) : Prop :=
  w.cache.needsTimer = true ∨ w.cache.timerRunning = true →
    w.dueBy ≤ w.now.nanos + w.cache.settings.interval.nanos

/-- The next tick comes less than an interval after each entry expired or came in. -/
structure Watched (w : World ν η μ) : Prop where
  soon : Soon w
  entries : ∀ key e d, w.cache.find? key = some e → e.deadline? = some d →
    w.dueBy ≤ max d.nanos e.createdAt.nanos + w.cache.settings.interval.nanos

theorem Entry.canExpire_of_deadline? {e : Entry ν η} {d : Instant} (h : e.deadline? = some d) :
    e.canExpire = true := by
  unfold deadline? at h
  unfold canExpire
  cases hp : e.policy with
  | none =>
    rw [hp] at h
    cases h
  | some policy => rfl

namespace Move

variable {w w' : World ν η μ}

/-- What a program or a tick can do to the timer. -/
theorem timer (h : Move 1 w w') : w'.cache.timer = w.cache.timer ∨
    (w.cache.timerRunning = false ∧ w'.cache.timer = some .starting) ∨
    (w'.cache.timer = none ∧ w'.cache.needsTimer = false) := by
  have emptied : ∀ v : World ν η μ, v.emptied.cache.timer = v.cache.timer ∧
      v.emptied.cache.needsTimer = false := by
    intro v
    rw [World.emptied_eq]
    exact ⟨rfl, rfl⟩
  cases h with
  | tune f hb => exact Or.inl hb.timer
  | place key value policy =>
    have hplaced : (w.placed key value policy).cache.timer = w.cache.timer := by
      rw [World.cache_placed]
      rfl
    unfold World.tended
    split
    · rw [World.cache_change]
      unfold Cache.ensureTimer
      split
      · exact Or.inl hplaced
      · rename_i hstands
        refine Or.inr (Or.inl ⟨?_, rfl⟩)
        unfold Cache.timerRunning at hstands ⊢
        rw [hplaced] at hstands
        simpa using hstands
    · exact Or.inl hplaced
  | empty => exact Or.inl (emptied w).1
  | close => exact Or.inr (Or.inr (emptied _))
  | retire hneedless => exact Or.inr (Or.inr ⟨rfl, hneedless⟩)
  | beat hl => cases hl
  | _ => exact Or.inl rfl

theorem soon (h : Move 1 w w') (hn : w'.now = w.now) (hs : Soon w) : Soon w' := by
  intro hneeded
  unfold World.dueBy
  rw [hn, h.settings]
  rcases h.timer with ht | ⟨-, ht⟩ | ⟨ht, hneedless⟩
  · have hrunning : w'.cache.timerRunning = w.cache.timerRunning := by
      unfold Cache.timerRunning
      rw [ht]
    rw [ht]
    refine hs ?_
    rcases hneeded with hneeded | hr
    · rcases h.attends hneeded with hr | hu
      · exact Or.inr (hrunning ▸ hr)
      · exact Or.inl (hu.needed hneeded)
    · exact Or.inr (hrunning ▸ hr)
  · rw [ht]
    exact Timer.dueBy_starting_le
  · exfalso
    rcases hneeded with hneeded | hr
    · rw [hneedless] at hneeded
      cases hneeded
    · unfold Cache.timerRunning at hr
      rw [ht] at hr
      cases hr

/-- While the timer is needed no move puts its next tick off. -/
theorem dueBy_le (h : Move 1 w w') (hn : w'.now = w.now) (hneeded : w'.cache.needsTimer = true) :
    w'.dueBy ≤ w.dueBy := by
  unfold World.dueBy
  rw [hn, h.settings]
  rcases h.timer with ht | ⟨hidle, ht⟩ | ⟨-, hneedless⟩
  · exact Int.le_of_eq (by rw [ht])
  · rw [ht]
    exact Timer.dueBy_starting_le_of_idle hidle
  · rw [hneedless] at hneeded
    cases hneeded

theorem watched (h : Move 1 w w') (hn : w'.now = w.now) (hw : Watched w) : Watched w' := by
  have hsoon := h.soon hn hw.soon
  refine ⟨hsoon, ?_⟩
  intro key e' d he' hd
  have hneeded : w'.cache.needsTimer = true :=
    Cache.needsTimer_iff.mpr ⟨key, e', he', Entry.canExpire_of_deadline? hd⟩
  have hnext := hsoon (Or.inl hneeded)
  have hset : w'.cache.settings = w.cache.settings := h.settings
  rw [hn] at hnext
  rcases h.stored he' with ⟨value, policy, rfl⟩ | ⟨e, he, hc⟩
  · -- it has just come in
    simp only [Entry.insertedAt]
    omega
  · rcases hc.deadline? hd with hold | hle
    · have hbefore := hw.entries key e d he hold
      have hdue := h.dueBy_le hn hneeded
      rw [hset, hc.createdAt]
      omega
    · -- an access has moved its deadline
      have hlater : w.now.nanos ≤ d.nanos := hle
      omega

end Move

namespace Moves

variable {w w' : World ν η μ}

theorem soon (h : Moves 1 w w') (hn : w'.now = w.now) (hs : Soon w) : Soon w' := by
  induction h with
  | refl => exact hs
  | tail hv hm ih =>
    obtain ⟨h1, h2⟩ := Moves.still hv (.single hm) hn
    exact hm.soon h2 (ih h1)

theorem watched (h : Moves 1 w w') (hn : w'.now = w.now) (hw : Watched w) : Watched w' := by
  induction h with
  | refl => exact hw
  | tail hv hm ih =>
    obtain ⟨h1, h2⟩ := Moves.still hv (.single hm) hn
    exact hm.watched h2 (ih h1)

end Moves

namespace Watched

variable {host : Host ν η μ} {bound : Nat} {w w' : World ν η μ}

/-- Where nothing is overdue, the next tick is early enough for all if it is early enough for now. -/
theorem of_soon (hs : Soon w) (hclear : ∀ key g, ¬Overdue key g w) : Watched w := by
  refine ⟨hs, ?_⟩
  intro key e d he hd
  have hneeded : w.cache.needsTimer = true :=
    Cache.needsTimer_iff.mpr ⟨key, e, he, Entry.canExpire_of_deadline? hd⟩
  have hnext := hs (Or.inl hneeded)
  have hlate : ¬(d < w.now ∧ e.createdAt < w.now) := by
    rintro ⟨h1, h2⟩
    exact hclear key e.generation
      ⟨e, d, Cache.insertion?_eq_some.mpr ⟨he, rfl⟩, hd, h1, h2⟩
  rw [Instant.lt_def, Instant.lt_def] at hlate
  omega

/-- A journal of calm work: nobody vetoed, and nothing panicked. -/
def Calm (journal : List (Line ν η)) : Prop :=
  ∀ l ∈ journal, l.vetoes = false ∧ l.panics = false

theorem beat {b : Beat} (hb : b.Leads host bound w w') (hc : w.calls = []) (hrec : Recorded w)
    (hn : w'.now = w.now) (hcalm : Calm w'.journal) (hw : Watched w) : Watched w' := by
  cases hb with
  | begun moment hm ht =>
    have hsooner : (w.change (.setTimer (some (.begin w.cache.settings.interval moment)))).dueBy ≤
        w.dueBy := by
      unfold World.dueBy
      rw [ht]
      exact Timer.dueBy_begin hm
    have hrunning : w.cache.timerRunning = true := by
      unfold Cache.timerRunning
      rw [ht]
      rfl
    refine ⟨?_, ?_⟩
    · intro _
      exact Int.le_trans hsooner (hw.soon (Or.inr hrunning))
    · intro key e d he hd
      exact Int.le_trans hsooner (hw.entries key e d he hd)
  | ticked due moment hm ht hd hr =>
    have hscheduled : Recorded (w.scheduled due moment) := hrec.setTimer _
    have hcalls : (w.scheduled due moment).calls = [] := hc
    obtain ⟨seg, hrun, hclear⟩ :=
      (Act.tick_clears (Act.call_invokes host bound) hcalls hscheduled).of_ok hr
    -- what was due before is swept away, so only the next tick's schedule counts
    have hsoon : Soon (w.scheduled due moment) := fun _ => Timer.dueBy_next hd hm
    refine of_soon (hrun.moves.soon hn hsoon) (hclear ?_ hn)
    intro l hl
    refine (hcalm l ?_).1
    rw [hrun.journal]
    exact List.mem_append_left _ hl
  | @unwound _ v due moment message hm ht hd hr =>
    exfalso
    obtain ⟨l, hl, hp⟩ := (Act.tick_alarmed (Act.callVia_alarmed host _) host
      (w.scheduled due moment)).of_error hr message rfl
    have hno := (hcalm l hl).2
    rw [hp] at hno
    cases hno

theorem settle (hr : Act.settle host bound w = .ok () w') (hc : w.calls = [])
    (hh : w.cache.hosting = .task) (hrec : Recorded w) (hn : w'.now = w.now)
    (hcalm : Calm w'.journal) (hw : Watched w) : Watched w' ∧ w'.Rests w'.now := by
  -- the clock stands still in the end only, so that each beat has to keep a conditional
  have hkept := Act.settle_keeps (I := fun v => w.now ≤ v.now ∧ v.calls = [] ∧ Recorded v ∧
    (Calm v.journal → v.now = w.now → Watched v)) ?_ hc hh
    ⟨Int.le_refl _, hc, hrec, fun _ _ => hw⟩ hr
  · obtain ⟨⟨-, -, -, hwatched⟩, -, -, hrest⟩ := hkept
    exact ⟨hwatched hcalm hn, hrest⟩
  · rintro b v v' hb - ⟨hle, hcv, hrv, hwv⟩
    obtain ⟨seg, hrun⟩ := hb.run hcv
    have hle' := hrun.moves.now_le
    refine ⟨Int.le_trans hle hle', hrun.calls.trans hcv, hrv.moves hrun.moves, ?_⟩
    intro hcalm' hn'
    have h1 : w.now.nanos ≤ v.now.nanos := hle
    have h2 : v.now.nanos ≤ v'.now.nanos := hle'
    have h3 : v'.now.nanos = w.now.nanos := congrArg Instant.nanos hn'
    have hstill : v.now = w.now := Instant.ext_nanos (by omega)
    have hbefore : Calm v.journal := fun l hl => hcalm' l (hrun.moves.journal.subset hl)
    exact beat hb hcv hrv (hn'.trans hstill.symm) hcalm' (hwv hbefore hstill)

/-- The clock moves on while the timer waits. -/
theorem later (hw : Watched w) (hrest : w.cache.timer ≠ some .starting) {t : Instant}
    (ht : w.now ≤ t) : Watched ({ w with now := t } : World ν η μ) := by
  have hle : w.now.nanos ≤ t.nanos := ht
  have hdue : World.dueBy ({ w with now := t } : World ν η μ) = w.dueBy := by
    unfold World.dueBy Timer.dueBy
    cases h : w.cache.timer with
    | none => rfl
    | some timer =>
      cases timer with
      | starting => exact absurd h hrest
      | _ => rfl
  refine ⟨?_, ?_⟩
  · intro hneeded
    have hsoon := hw.soon hneeded
    rw [hdue]
    exact Int.le_trans hsoon (Int.add_le_add_right hle _)
  · intro key e d he hd
    rw [hdue]
    exact hw.entries key e d he hd

/-- Where the timer rests, nothing has been expired for an interval. -/
theorem fresh_enough (hw : Watched w) (hrest : w.Rests w.now) {key : Key} {e : Entry ν η}
    {d : Instant} (he : w.cache.find? key = some e) (hd : e.deadline? = some d) :
    w.now.nanos < max d.nanos e.createdAt.nanos + w.cache.settings.interval.nanos := by
  have hbound := hw.entries key e d he hd
  have hnow : w.now.nanos < w.dueBy := by
    have hlast : w.now.nanos < Instant.last.nanos + 1 := by
      have := w.now.lt_end
      simp only [Instant.last]
      omega
    unfold World.dueBy Timer.dueBy
    cases h : w.cache.timer with
    | none => exact hlast
    | some timer =>
      cases timer with
      | starting => exact absurd h hrest.1
      | waiting due => exact hrest.2 due h
      | ended => exact hlast
  omega

end Watched

/-- Sessions in which time passes between the owner's turns only, and in no callback: a turn lets a
span pass or runs a program at one instant, and then the timer catches up. -/
inductive Paced (host : Host ν η μ) (settings : Settings η) : World ν η μ → Prop
  | fresh (t : Instant) (memory : μ) : Paced host settings (World.fresh settings .task t memory)
  | elapse {w w' : World ν η μ} (bound : Nat) (span : Span) (r : Except String Unit)
      (h : Paced host settings w) (hr : Act.turn host bound (.wait span (.done ())) w = .ok r w')
      (hn : w'.now = w.now.advance span) : Paced host settings w'
  | act {w w' : World ν η μ} {α : Type} (bound : Nat) (p : Program ν η μ α) (r : Except String α)
      (h : Paced host settings w) (hr : Act.turn host bound p w = .ok r w') (hn : w'.now = w.now) :
      Paced host settings w'

namespace Paced

variable {host : Host ν η μ} {settings : Settings η} {w w' : World ν η μ}

theorem between (h : Paced host settings w) : Between host settings .task w := by
  induction h with
  | fresh t memory => exact .fresh t memory
  | elapse bound span r _ hr _ ih => exact .turn bound _ r ih hr
  | act bound p r _ hr _ ih => exact .turn bound p r ih hr

/-- What is left of a turn after its program. -/
theorem settled {bound : Nat} {v : World ν η μ} (h : Paced host settings w)
    (hrun : ∃ seg, Run 1 .clear .clear True seg w v) (hs : Act.settle host bound v = .ok () w')
    (hn : w'.now = v.now) (hcalm : Watched.Calm w'.journal) (hv : Watched v) :
    Watched w' ∧ w'.Rests w'.now := by
  obtain ⟨seg, hrun⟩ := hrun
  have hreach : Reachable host settings .task w := .between h.between
  obtain ⟨t, memory, hwhole⟩ := hreach.run
  have hcalls : v.calls = [] := hrun.calls.trans hreach.calls
  have hhosting : v.cache.hosting = .task := hrun.moves.hosting.trans hwhole.moves.hosting
  exact hv.settle hs hcalls hhosting (hreach.recorded.moves hrun.moves) hn hcalm

theorem watched (h : Paced host settings w) (hcalm : Watched.Calm w.journal) :
    Watched w ∧ w.Rests w.now := by
  induction h with
  | fresh t memory =>
    have hneedless : (World.fresh settings .task t memory : World ν η μ).cache.needsTimer = false :=
      rfl
    refine ⟨⟨?_, ?_⟩, ?_, ?_⟩
    · rintro (hneeded | hr)
      · rw [hneedless] at hneeded
        cases hneeded
      · cases hr
    · intro key e d he
      cases he
    · intro hs
      cases hs
    · intro due hd
      cases hd
  | @elapse w w' bound span r h hr hn ih =>
    obtain ⟨v, hv, hs⟩ := Act.turn_ok hr
    obtain ⟨seg, hrest⟩ := (Act.settle_runs host bound v
      ((Act.program_run hv).choose_spec.calls.trans (Reachable.between h.between).calls)).of_ok hs
    have hwaited : v = { w with now := w.now.advance span } := by
      have hrun : Act.attempt (Program.run (Act.perform host bound)
          (.wait span (.done ()) : Program ν η μ Unit)) w =
          .ok (.ok ()) { w with now := w.now.advance span } := rfl
      rw [hrun] at hv
      cases hv
      rfl
    subst hwaited
    have hbefore : Watched.Calm w.journal :=
      fun l hl => hcalm l (hrest.1.moves.journal.subset hl)
    obtain ⟨hw, hr⟩ := ih hbefore
    refine h.settled (Act.program_run hv) hs hn hcalm ?_
    exact hw.later hr.1 (w.now.le_advance span)
  | @act w w' α bound p r h hr hn ih =>
    obtain ⟨v, hv, hs⟩ := Act.turn_ok hr
    obtain ⟨seg, hrun⟩ := Act.program_run hv
    obtain ⟨new, hrest, -⟩ := (Act.settle_runs host bound v
      (hrun.calls.trans (Reachable.between h.between).calls)).of_ok hs
    obtain ⟨h1, h2⟩ := Moves.still (hrun.moves.lower (Nat.zero_le 1)) hrest.moves hn
    have hbefore : Watched.Calm w.journal := fun l hl =>
      hcalm l ((hrun.moves.journal.trans hrest.moves.journal).subset hl)
    exact h.settled ⟨seg, hrun⟩ hs h2 hcalm (hrun.moves.watched h1 (ih hbefore).1)

end Paced

/-- If time passes between turns only, no handler ever vetoed an eviction and nothing panicked, then
between turns every stored entry with a deadline is within one interval of it, or of its insertion if
it was expired already when it came in. -/
theorem expired_entries_go_within_an_interval {host : Host ν η μ} {settings : Settings η}
    {w : World ν η μ} (h : Paced host settings w)
    (hveto : ∀ l ∈ w.journal, ∀ g key value answers, l.record = .decided g key value answers →
      Decision.cancel ∉ answers)
    (hpanic : ∀ l ∈ w.journal, l.panics = false) :
    ∀ key e policy d, w.cache.find? key = some e → e.policy = some policy →
      policy.deadline? = some d →
      w.now.nanos < max d.nanos e.createdAt.nanos + settings.interval.nanos := by
  have hcalm : Watched.Calm w.journal := by
    intro l hl
    refine ⟨?_, hpanic l hl⟩
    unfold Line.vetoes
    split
    · rename_i g key value answers hr
      exact Bool.eq_false_iff.mpr fun hc => hveto l hl g key value answers hr
        (List.contains_iff_mem.mp hc)
    · rfl
  obtain ⟨hw, hrest⟩ := h.watched hcalm
  intro key e policy d he hp hd
  have hdeadline : e.deadline? = some d := by
    unfold Entry.deadline?
    rw [hp]
    exact hd
  have hbound := hw.fresh_enough hrest he hdeadline
  obtain ⟨beats, hhistory⟩ := h.between.history
  rwa [hhistory.settings_eq] at hbound

/-! ## An entry that has expired and is stored still -/

/-- An entry comes in that lives for five seconds. -/
def Program.brief : Program Nat String Unit Unit :=
  .perform (.insert "k" 1 ⟨some (.duration (.ofMillis 5000) none), false⟩) fun _ => .done ()

namespace World

def planted : World Nat String Unit :=
  (Act.turn .reentrant 6 .brief).after (.fresh .keeping .task .zero ())

/-- Half an interval later. -/
def lingering : World Nat String Unit :=
  (Act.turn .reentrant 6 (.wait (.ofMillis 30000) (.done ()))).after planted

theorem lingering_paced : Paced .reentrant .keeping lingering := by
  have hplanted : Paced .reentrant .keeping planted :=
    .act 6 .brief (.ok ()) (.fresh .zero ()) rfl (by decide +kernel)
  exact .elapse 6 (.ofMillis 30000) (.ok ()) hplanted rfl (by decide +kernel)

end World

theorem lingering_entry_goes_within_an_interval :
    (World.lingering.cache.find? "k").any (·.due World.lingering.now) = true ∧
      ∀ e policy d, World.lingering.cache.find? "k" = some e → e.policy = some policy →
        policy.deadline? = some d → World.lingering.now.nanos <
          max d.nanos e.createdAt.nanos + Settings.keeping.interval.nanos := by
  have hveto : World.lingering.journal.any (·.vetoes) = false := by decide +kernel
  have hpanic : World.lingering.journal.any (·.panics) = false := by decide +kernel
  refine ⟨by decide +kernel, ?_⟩
  intro e policy d
  refine expired_entries_go_within_an_interval World.lingering_paced ?_ ?_ "k" e policy d
  · intro l hl g key value answers hr hcancel
    have hno := List.any_eq_false.mp hveto l hl
    simp only [Line.vetoes, hr, List.contains_iff_mem.mpr hcancel] at hno
    exact hno trivial
  · intro l hl
    exact Bool.eq_false_iff.mpr (List.any_eq_false.mp hpanic l hl)

end ExpiringCache
