import ExpiringCache.Proofs.Closing
import ExpiringCache.Proofs.Intervals

/-!
# The schedule of the timer

Where the clock passes between the owner's programs only, and never past a tick that is due, every
tick comes on time: the n-th of one life of the timer lies n intervals after the life began. A life
goes on, from one place of its schedule to the next, until a tick finds nothing left that can expire,
or panics, or the owner gives up the cache. The next life has a schedule of its own.
-/

namespace ExpiringCache

variable {ν η μ α : Type}

/-! ## Work at a standing clock -/

/-- The program does not move the clock. -/
def Program.Still (p : Program ν η μ α) : Prop := ∀ span, p.Waits span → span = .zero

def Host.Still (host : Host ν η μ) : Prop := ∀ c, (host.respond c).Still

theorem Instant.advance_zero (t : Instant) : t.advance .zero = t := by
  have h : t.plus? .zero = some t := plus?_eq_some_iff.mpr (Int.add_zero _).symm
  rw [advance, h]
  rfl

/-- The clock stands still and a timer that waits goes on waiting, unless the owner gives up the
cache. -/
structure World.Undisturbed (w v : World ν η μ) : Prop where
  now : v.now = w.now
  held : v.cache.handle = .held → w.cache.handle = .held
  timer : v.cache.handle = .held → ∀ due, w.cache.timer = some (.waiting due) →
    v.cache.timer = some (.waiting due)

namespace World.Undisturbed

variable {w v u : World ν η μ}

theorem of_same (hn : v.now = w.now) (hh : v.cache.handle = w.cache.handle)
    (ht : v.cache.timer = w.cache.timer) : w.Undisturbed v :=
  ⟨hn, fun h => hh ▸ h, fun _ _ h => ht.trans h⟩

/-- Whoever gives up the cache may do so at any time. -/
theorem of_given_up (hn : v.now = w.now) (hh : v.cache.handle ≠ .held) : w.Undisturbed v :=
  ⟨hn, fun h => absurd h hh, fun h => absurd h hh⟩

theorem trans (h : w.Undisturbed v) (k : v.Undisturbed u) : w.Undisturbed u :=
  ⟨k.now.trans h.now, fun hu => h.held (k.held hu),
    fun hu due hd => k.timer hu due (h.timer (k.held hu) due hd)⟩

theorem paths : Paths (Undisturbed : World ν η μ → World ν η μ → Prop) (fun _ => True) where
  still _ := .of_same rfl rfl rfl
  trans := .trans
  memory _ := .of_same rfl rfl rfl
  note _ _ _ := .of_same rfl rfl rfl
  retune {w} f h := by
    refine ⟨rfl, fun hh => h.handle ▸ hh, fun _ due hd => (h.timer ?_).trans hd⟩
    rw [Cache.timerRunning, hd]
    rfl
  touch _ _ _ _ := .of_same rfl rfl rfl
  read _ _ := .of_same rfl rfl rfl
  vetoed _ _ _ _ _ := .of_same rfl rfl rfl
  concluded _ _ _ _ _ _ _ h := .of_same h.keeps.1 h.keeps.2.2.1 h.keeps.2.2.2
  close _ := by
    rw [World.emptied_eq]
    exact .of_given_up rfl fun h => by cases h
  during _ _ h := ⟨h.now, h.held, h.timer⟩
  deciding _ _ _ _ _ _ h := ⟨h.now, h.held, h.timer⟩
  holding _ _ _ _ h := ⟨h.now, h.held, h.timer⟩

theorem placed (key : Key) (value : ν) (policy : Option (Policy η)) (w : World ν η μ) :
    w.Undisturbed (w.placed key value policy) := by
  have hc := w.cache_placed key value policy
  exact .of_same (w.now_placed key value policy) (by rw [hc]; rfl) (by rw [hc]; rfl)

theorem emptied (w : World ν η μ) : w.Undisturbed w.emptied := by
  rw [World.emptied_eq]
  exact .of_same rfl rfl rfl

theorem admits (host : Host ν η μ) (op : Operation ν η) :
    Act.Admits host Undisturbed (fun _ => True) op :=
  paths.admits (fun key _ w value policy => placed key value policy w)
    (fun _ _ _ _ => .of_same rfl rfl rfl) emptied (fun _ => .of_given_up rfl nofun) op

theorem elapsed {p : Program ν η μ α} (hp : p.Still) (span : Span) (hs : p.Waits span)
    (w : World ν η μ) : w.Undisturbed { w with now := w.now.advance span } := by
  rw [hp span hs, Instant.advance_zero]
  exact .of_same rfl rfl rfl

end World.Undisturbed

namespace Act

open World

variable {host : Host ν η μ} (hstill : host.Still)

include hstill

theorem perform_undisturbed (depth : Nat) (op : Operation ν η) :
    (perform host depth op).Follows Undisturbed :=
  perform_follows Undisturbed.paths (fun span ⟨c, hs⟩ => .elapsed (hstill c) span hs) (fun _ h => h)
    (fun c => Program.only_of_all (Undisturbed.admits host) (host.respond c)) depth op
    (Undisturbed.admits host op)

theorem call_undisturbed (depth : Nat) (c : Callback ν η) :
    (call host depth c).Follows Undisturbed :=
  call_follows Undisturbed.paths (fun span ⟨c, hs⟩ => .elapsed (hstill c) span hs) (fun _ h => h)
    (fun c => Program.only_of_all (Undisturbed.admits host) (host.respond c)) depth c c.makesFor_all

theorem run_undisturbed (depth : Nat) {p : Program ν η μ α} (hp : p.Still) :
    (p.run (perform host depth)).Follows Undisturbed :=
  run_follows Undisturbed.paths (fun op _ => perform_undisturbed hstill depth op) p
    (Program.only_of_all (Undisturbed.admits host) p) (.elapsed hp)

/-- A tick is a sweep at one instant. If it returns, then it retires the timer exactly if nothing is
left that can expire. -/
theorem tick_undisturbed (depth : Nat) (w : World ν η μ) :
    (tick host (call host depth)).Ends w fun r v => ∃ u, w.Undisturbed u ∧ v.now = u.now ∧
      (r = .ok () → v = if u.cache.needsTimer then u else u.change (.setTimer none)) := by
  have hsweep := sweep_follows Undisturbed.paths (fun c _ => call_undisturbed hstill depth c) host w
  unfold tick
  refine hsweep.bind ?_ fun _ u hu => ⟨u, hu, rfl, nofun⟩
  intro _ u hu
  refine ends_cache.mpr ?_
  cases hneeds : u.cache.needsTimer with
  | true => exact ends_pure.mpr ⟨u, hu, rfl, fun _ => by rw [if_pos hneeds]⟩
  | false =>
    refine ⟨u, hu, rfl, fun _ => ?_⟩
    rw [if_neg (by rw [hneeds]; exact Bool.false_ne_true)]

theorem program_undisturbed {depth : Nat} {p : Program ν η μ α} (hp : p.Still)
    {r : Except String α} {w v : World ν η μ}
    (hr : attempt (p.run (perform host depth)) w = .ok r v) : w.Undisturbed v :=
  (Follows.attempt (run_undisturbed hstill depth hp) w).of_ok hr

end Act

/-! ## The life of a timer -/

namespace Timer

/-- A tick that comes when it is due schedules the next one, which is not earlier. -/
theorem next_on_time (interval : Span) (due : Instant) :
    ∃ later, next interval due due = .waiting later ∧ due ≤ later := by
  have hearly : ¬due.nanos + tolerance < due.nanos := by
    simp only [tolerance, nanosPerMilli]
    omega
  unfold next
  rw [if_neg hearly]
  cases h : due.plus? interval with
  | none => exact ⟨_, rfl, due.le_advance farAway⟩
  | some later =>
    have hnanos := Instant.plus?_eq_some_iff.mp h
    exact ⟨later, rfl, Instant.le_def.mpr (by omega)⟩

end Timer

/-- The newest beats are those of a life that began at `start`: it has had `n` ticks, each on time, and
waits for its next one to come at `due`. -/
inductive Life (interval : Span) (start : Instant) :
    Nat → Instant → List (Beat × World ν η μ) → Prop
  | begun {v : World ν η μ} {earlier : List (Beat × World ν η μ)} {due : Instant}
      (hd : start.plus? interval = some due) (hv : v.cache.timer = some (.waiting due)) :
      Life interval start 0 due ((.begun start, v) :: earlier)
  | ticked {n : Nat} {due later : Instant} {v : World ν η μ} {earlier : List (Beat × World ν η μ)}
      (h : Life interval start n due earlier) (hd : Timer.next interval due due = .waiting later)
      (hv : v.cache.timer = some (.waiting later)) :
      Life interval start (n + 1) later ((.ticked due due, v) :: earlier)

namespace Life

variable {interval : Span} {start due : Instant} {n : Nat} {beats : List (Beat × World ν η μ)}

theorem start_le (h : Life interval start n due beats) : start ≤ due := by
  induction h with
  | begun hd _ =>
    have := Instant.plus?_eq_some_iff.mp hd
    exact Instant.le_def.mpr (by omega)
  | @ticked n due later v earlier _ hd _ ih =>
    obtain ⟨later', hd', hle⟩ := Timer.next_on_time interval due
    rw [hd] at hd'
    cases hd'
    exact Int.le_trans ih hle

theorem timer (h : Life interval start n due beats) : ∃ b v earlier, beats = (b, v) :: earlier ∧
    v.cache.timer = some (.waiting due) := by
  cases h with
  | begun _ hv => exact ⟨_, _, _, rfl, hv⟩
  | ticked _ _ hv => exact ⟨_, _, _, rfl, hv⟩

end Life

/-! ## Punctual sessions -/

/-- A session that goes on from the world `first`, under a timer's task that is never late, with its
beats, newest first: the owner's programs and the beats take no time, and the clock passes between them,
once the task has begun, up to the next tick at most. -/
inductive Punctual (host : Host ν η μ) (first : World ν η μ) :
    List (Beat × World ν η μ) → World ν η μ → Prop
  | start : Punctual host first [] first
  | program {beats : List (Beat × World ν η μ)} {w w' : World ν η μ} {α : Type} (bound : Nat)
      (p : Program ν η μ α) (r : Except String α) (h : Punctual host first beats w)
      (hp : p.Still) (hr : Act.attempt (p.run (Act.perform host bound)) w = .ok r w') :
      Punctual host first beats w'
  | beat {beats : List (Beat × World ν η μ)} {w w' : World ν η μ} (bound : Nat) (b : Beat)
      (h : Punctual host first beats w) (hm : b.moment = w.now) (hb : b.Leads host bound w w') :
      Punctual host first ((b, w') :: beats) w'
  | pass {beats : List (Beat × World ν η μ)} {w : World ν η μ} (t : Instant)
      (h : Punctual host first beats w) (ht : w.now ≤ t) (hs : w.cache.timer ≠ some .starting)
      (hd : ∀ due, w.cache.timer = some (.waiting due) → t ≤ due) :
      Punctual host first beats { w with now := t }

/-- A beat on the schedule of its life, after the earlier beats. -/
inductive Beat.OnTime (interval : Span) (earlier : List (Beat × World ν η μ)) :
    Beat → World ν η μ → Prop
  | begun {v : World ν η μ} {start : Instant} (hn : v.now = start)
      (hl : ∀ due, start.plus? interval = some due →
        Life interval start 0 due ((.begun start, v) :: earlier)) :
      OnTime interval earlier (.begun start) v
  /-- The life goes on if an entry is left that can expire, and is at its end otherwise. -/
  | ticked {v : World ν η μ} {start due : Instant} {n : Nat} (hn : v.now = due)
      (hl : Life interval start n due earlier)
      (hneeded : v.cache.handle = .held → v.cache.needsTimer = true →
        ∃ later, Life interval start (n + 1) later ((.ticked due due, v) :: earlier))
      (hneedless : v.cache.needsTimer = false → v.cache.timer = none) :
      OnTime interval earlier (.ticked due due) v
  | unwound {v : World ν η μ} {start due : Instant} {n : Nat} (hn : v.now = due)
      (hl : Life interval start n due earlier) (he : v.cache.timerRunning = false) :
      OnTime interval earlier (.unwound due due) v

namespace Punctual

variable {host : Host ν η μ} {settings : Settings η} {t : Instant} {memory : μ}
  {beats newer : List (Beat × World ν η μ)} {first w v : World ν η μ}

/-- The session goes on from where it is. -/
theorem trans (h : Punctual host first beats w) (k : Punctual host w newer v) :
    Punctual host first (newer ++ beats) v := by
  induction k with
  | start => exact h
  | program bound p r _ hp hr ih => exact .program bound p r ih hp hr
  | beat bound b _ hm hb ih => exact .beat bound b ih hm hb
  | pass t _ ht hs hd ih => exact .pass t ih ht hs hd

theorem history (h : Punctual host (.fresh settings .task t memory) beats w) :
    History host settings beats w := by
  induction h with
  | start => exact .fresh t memory
  | program bound p r _ _ hr ih => exact .program bound p r ih hr
  | beat bound b _ _ hb ih => exact .beat bound b ih hb
  | @pass beats w t _ ht hs hd ih =>
    -- the clock's whole range is no longer than the longest span
    have hle : w.now.nanos ≤ t.nanos := ht
    have hfirst := w.now.first_le
    have hlast := t.lt_end
    let span : Span := ⟨(t.nanos - w.now.nanos).toNat, by
      simp only [reachSeconds, originSeconds, nanosPerSecond, UInt64.size] at *
      omega⟩
    have hspan : w.now.advance span = t := by
      have hplus : w.now.plus? span = some t := by
        refine Instant.plus?_eq_some_iff.mpr ?_
        show t.nanos = w.now.nanos + ((t.nanos - w.now.nanos).toNat : Int)
        omega
      rw [Instant.advance, hplus]
      rfl
    have hwait : Act.attempt (Program.run (Act.perform host 0)
        (.wait span (.done ()) : Program ν η μ Unit)) w =
        .ok (.ok ()) { w with now := w.now.advance span } := rfl
    rw [hspan] at hwait
    exact .program 0 _ _ ih hwait

end Punctual

namespace Beat.Leads

variable {host : Host ν η μ} {settings : Settings η} {bound : Nat} {b : Beat}
  {beats : List (Beat × World ν η μ)} {w w' : World ν η μ}

variable (hb : b.Leads host bound w w') (hm : b.moment = w.now) (hstill : host.Still)
  (hs : w.cache.settings = settings)
  (hw : ∀ due, w.cache.timer = some (.waiting due) →
    w.now ≤ due ∧ ∃ start n, Life settings.interval start n due beats)

include hb hm hstill hs hw

/-- Where the clock has not passed what the timer waits for, a beat is on time. -/
theorem on_time : b.OnTime settings.interval beats w' := by
  cases hb with
  | begun moment hle ht =>
    refine .begun hm.symm ?_
    intro due hd
    refine .begun hd ?_
    show some (Timer.begin w.cache.settings.interval moment) = _
    rw [hs, Timer.begin, hd]
  | ticked due moment hle ht hd hr =>
    obtain ⟨hahead, start, n, hlife⟩ := hw due ht
    obtain rfl : moment = due := Instant.ext_nanos (Int.le_antisymm (Int.le_trans hle hahead) hd)
    obtain ⟨u, hu, hnow, hleft⟩ := (Act.tick_undisturbed hstill bound _).of_ok hr
    have hleft := hleft rfl
    refine .ticked (hnow.trans (hu.now.trans hm.symm)) hlife ?_ ?_
    · intro hheld hneeded
      obtain ⟨later, hlater, -⟩ := Timer.next_on_time settings.interval moment
      refine ⟨later, .ticked hlife hlater ?_⟩
      cases hneeds : u.cache.needsTimer with
      | true =>
        rw [if_pos hneeds] at hleft
        subst hleft
        refine hu.timer hheld later ?_
        show some (Timer.next w.cache.settings.interval moment moment) = _
        rw [hs, hlater]
      | false =>
        rw [if_neg (by rw [hneeds]; exact Bool.false_ne_true)] at hleft
        subst hleft
        exact absurd (hneeds.symm.trans hneeded) Bool.false_ne_true
    · intro hneedless
      cases hneeds : u.cache.needsTimer with
      | true =>
        rw [if_pos hneeds] at hleft
        subst hleft
        exact absurd (hneedless.symm.trans hneeds) Bool.false_ne_true
      | false =>
        rw [if_neg (by rw [hneeds]; exact Bool.false_ne_true)] at hleft
        rw [hleft]
        rfl
  | @unwound _ v due moment message hle ht hd hr =>
    obtain ⟨hahead, start, n, hlife⟩ := hw due ht
    obtain rfl : moment = due := Instant.ext_nanos (Int.le_antisymm (Int.le_trans hle hahead) hd)
    obtain ⟨u, hu, hnow, -⟩ := (Act.tick_undisturbed hstill bound _).of_error hr
    refine .unwound (hnow.trans (hu.now.trans hm.symm)) hlife ?_
    show Option.any _ (v.cache.timer.map _) = false
    cases v.cache.timer <;> rfl

/-- After a beat the timer waits for the next place of a life, if it waits for anything. -/
theorem waits (hc : w.calls = []) {next : Instant} (hnext : w'.cache.timer = some (.waiting next)) :
    w'.now ≤ next ∧ ∃ start n, Life settings.interval start n next ((b, w') :: beats) := by
  have hon := on_time hb hm hstill hs hw
  cases hb with
  | begun moment hle ht =>
    have hbegin : some (Timer.begin w.cache.settings.interval moment) = some (.waiting next) := hnext
    rw [hs, Timer.begin] at hbegin
    cases hplus : moment.plus? settings.interval with
    | none =>
      rw [hplus] at hbegin
      cases hbegin
    | some due =>
      rw [hplus] at hbegin
      cases hbegin
      cases hon with
      | begun hn hl => exact ⟨hn ▸ (hl next hplus).start_le, moment, 0, hl next hplus⟩
  | ticked due moment hle ht hd hr =>
    -- nobody but the task itself schedules a tick
    obtain ⟨seg, hrun⟩ := tick_run hc hr
    have hscheduled := hrun.moves.waiting hnext
    cases hon with
    | @ticked _ start _ n hn hl hneeded hneedless =>
      obtain ⟨later, hlater, hle⟩ := Timer.next_on_time settings.interval due
      have hlast : some (Timer.next w.cache.settings.interval due due) = some (.waiting next) :=
        hscheduled
      rw [hs, hlater] at hlast
      cases hlast
      exact ⟨hn ▸ hle, start, n + 1, .ticked hl hlater hnext⟩
  | @unwound _ v due moment message hle ht hd hr =>
    have hended : v.cache.timer.map (fun _ => Timer.ended) = some (.waiting next) := hnext
    cases htimer : v.cache.timer with
    | none =>
      rw [htimer] at hended
      cases hended
    | some timer =>
      rw [htimer] at hended
      cases hended

end Beat.Leads

namespace Punctual

variable {host : Host ν η μ} {settings : Settings η} {t : Instant} {memory : μ}
  {beats : List (Beat × World ν η μ)} {w : World ν η μ}

/-- What the timer waits for is the next place of a life, and it has not passed. -/
theorem waits (h : Punctual host (.fresh settings .task t memory) beats w) (hstill : host.Still) :
    ∀ due, w.cache.timer = some (.waiting due) →
      w.now ≤ due ∧ ∃ start n, Life settings.interval start n due beats := by
  induction h with
  | start => exact fun _ hw => nomatch hw
  | program bound p r h hp hr ih =>
    intro due hw
    obtain ⟨seg, hrun⟩ := Act.program_run hr
    rw [(Act.program_undisturbed hstill hp hr).now]
    exact ih due (hrun.moves.waiting hw)
  | beat bound b h hm hb ih =>
    exact fun due hw => hb.waits hm hstill h.history.settings_eq ih h.history.calls hw
  | pass t h ht hs hd ih => exact fun due hw => ⟨hd due hw, (ih due hw).2⟩

theorem on_time (h : Punctual host (.fresh settings .task t memory) beats w) (hstill : host.Still) :
    ∀ newer b v earlier, beats = newer ++ (b, v) :: earlier →
      b.OnTime settings.interval earlier v := by
  induction h with
  | start => exact fun newer b v earlier h => absurd h (by simp)
  | program bound p r h hp hr ih => exact ih
  | beat bound b h hm hb ih =>
    intro newer b' v earlier heq
    cases newer with
    | nil =>
      cases heq
      exact hb.on_time hm hstill h.history.settings_eq (h.waits hstill)
    | cons x newer => exact ih newer b' v earlier (List.cons.inj heq).2
  | pass t h ht hs hd ih => exact ih

/-- While the owner uses the cache, a life goes on until its next tick. -/
theorem goes_on (h : Punctual host (.fresh settings .task t memory) beats w) (hstill : host.Still)
    (hheld : w.cache.handle = .held) {start due : Instant} {n : Nat}
    (hl : Life settings.interval start n due beats) : w.cache.timer = some (.waiting due) := by
  induction h with
  | start => cases hl
  | program bound p r h hp hr ih =>
    have hun := Act.program_undisturbed hstill hp hr
    exact hun.timer hheld due (ih (hun.held hheld) hl)
  | beat bound b h hm hb ih =>
    obtain ⟨b', v, earlier, heq, hv⟩ := hl.timer
    cases heq
    exact hv
  | pass t h ht hs hd ih => exact ih hheld hl

end Punctual

end ExpiringCache
