import ExpiringCache.Proofs.Reachability

/-!
# The beats of the timer's task

Where the timer lives in a task of its own, a session is made of the owner's programs and of the
beats of that task: it begins, and it ticks. What every beat keeps is kept while the timer catches
up, after which nothing is left to be done at the clock's reading. A history is a session together
with the beats there were in it, each with the world that it left.
-/

namespace ExpiringCache

variable {ν η μ α : Type}

inductive Beat where
  /-- The task begins. -/
  | begun (moment : Instant)
  /-- A tick that was due at `due` comes at `moment`, and returns. -/
  | ticked (due moment : Instant)
  /-- Such a tick panics, and the task ends. -/
  | unwound (due moment : Instant)
deriving DecidableEq

/-- The moment from which a beat starts to count the interval. A tick keeps the schedule it finds,
unless it is late. -/
def Beat.start? : Beat → Option Instant
  | begun moment => some moment
  | ticked due moment => if due.nanos + Timer.tolerance < moment.nanos then some moment else none
  | unwound due moment => if due.nanos + Timer.tolerance < moment.nanos then some moment else none

/-- When a beat comes. -/
def Beat.moment : Beat → Instant
  | begun moment => moment
  | ticked _ moment => moment
  | unwound _ moment => moment

namespace World

/-- A tick that was due at `due` comes at `moment`: before all else the next one is scheduled. -/
def scheduled (due moment : Instant) (w : World ν η μ) : World ν η μ :=
  w.change (.setTimer (some (.next w.cache.settings.interval due moment)))

/-- The timer has nothing to do at `moment`. -/
def Rests (moment : Instant) (w : World ν η μ) : Prop :=
  w.cache.timer ≠ some .starting ∧ ∀ due, w.cache.timer = some (.waiting due) → moment < due

end World

/-- What a beat does. -/
inductive Beat.Leads (host : Host ν η μ) (bound : Nat) : Beat → World ν η μ → World ν η μ → Prop
  | begun {w : World ν η μ} (moment : Instant) (hm : moment ≤ w.now)
      (ht : w.cache.timer = some .starting) :
      Leads host bound (.begun moment) w
        (w.change (.setTimer (some (.begin w.cache.settings.interval moment))))
  | ticked {w w' : World ν η μ} (due moment : Instant) (hm : moment ≤ w.now)
      (ht : w.cache.timer = some (.waiting due)) (hd : due ≤ moment)
      (hr : Act.tick host (Act.call host bound) (w.scheduled due moment) = .ok () w') :
      Leads host bound (.ticked due moment) w w'
  | unwound {w w' : World ν η μ} (due moment : Instant) (message : String) (hm : moment ≤ w.now)
      (ht : w.cache.timer = some (.waiting due)) (hd : due ≤ moment)
      (hr : Act.tick host (Act.call host bound) (w.scheduled due moment) =
        .error (.panic message) w') :
      Leads host bound (.unwound due moment) w
        (w'.change fun c => c.setTimer (c.timer.map fun _ => .ended))

namespace Beat.Leads

variable {host : Host ν η μ} {bound : Nat} {b : Beat} {w w' : World ν η μ} {due moment : Instant}

theorem tick_runs (hc : w.calls = []) :
    (Act.tick host (Act.call host bound)).Runs 1 (w.scheduled due moment) :=
  Act.tick_runs (Act.call_invokes host bound) (Nat.le_add_left 1 _) host hc

/-- The work of a tick is done at level one: there nobody but the cache itself sets the timer. -/
theorem tick_run (hc : w.calls = [])
    (hr : Act.tick host (Act.call host bound) (w.scheduled due moment) = .ok () w') :
    ∃ seg, Run 1 .clear .clear True seg (w.scheduled due moment) w' := by
  obtain ⟨seg, hrun, -⟩ := (tick_runs hc).of_ok hr
  exact ⟨seg, hrun⟩

theorem unwound_run {message : String} (hc : w.calls = [])
    (hr : Act.tick host (Act.call host bound) (w.scheduled due moment) =
      .error (.panic message) w') :
    ∃ seg, Run 1 .clear .clear True seg (w.scheduled due moment) w' := by
  obtain ⟨seg, hrun⟩ := Act.Goes.of_error (tick_runs hc) hr
  exact ⟨seg, hrun.moves, hrun.calls, hrun.journal, hrun.ledger.imp fun _ => by simp⟩

theorem run (h : b.Leads host bound w w') (hc : w.calls = []) :
    ∃ seg, Run 0 .clear .clear True seg w w' := by
  have set : ∀ (v : World ν η μ) timer,
      Run 0 .clear .clear True [] v (v.change (.setTimer timer)) :=
    fun v timer => .silent (.beat rfl timer) rfl rfl
  cases h with
  | begun moment hm ht => exact ⟨[], set w _⟩
  | ticked due moment hm ht hd hr =>
    obtain ⟨seg, hrun⟩ := tick_run hc hr
    exact ⟨seg ++ [], (set w _).trans (hrun.lower (Nat.zero_le 1))⟩
  | @unwound _ v due moment message hm ht hd hr =>
    obtain ⟨seg, hrun⟩ := unwound_run hc hr
    have hended := set v (v.cache.timer.map fun _ => .ended)
    exact ⟨[] ++ (seg ++ []), ((set w _).trans (hrun.lower (Nat.zero_le 1))).trans hended⟩

end Beat.Leads

namespace Act

variable {host : Host ν η μ} {bound : Nat} {I : World ν η μ → Prop} {start : Instant}

/-- A tick returns, or panics and ends the timer's task, or runs out of depth. -/
theorem guardedTick_ends {invoke : Invoke ν η μ} {w : World ν η μ}
    {Q : Except Halt Unit → World ν η μ → Prop}
    (hok : ∀ v, tick host invoke w = .ok () v → Q (.ok ()) v)
    (hpanic : ∀ message v, tick host invoke w = .error (.panic message) v →
      Q (.ok ()) (v.change fun c => c.setTimer (c.timer.map fun _ => .ended)))
    (hexhausted : ∀ v, Q (.error .exhausted) v) : (guardedTick host invoke).Ends w Q := by
  unfold guardedTick
  refine Ends.bind (P := fun (r : Except Halt (Except String Unit)) v => match r with
    | .ok (.ok _) => tick host invoke w = .ok () v
    | .ok (.error message) => tick host invoke w = .error (.panic message) v
    | .error e => e = .exhausted) ?_ ?_ ?_
  · refine ends_attempt ((ends_self (tick host invoke) w).mono ?_)
    rintro r v (⟨a, rfl, h⟩ | ⟨e, rfl, h⟩)
    · exact h
    · cases e with
      | panic message => exact h
      | exhausted => exact rfl
  · intro r v h
    cases r with
    | ok _ => exact hok v h
    | error message => exact hpanic message v h
  · rintro e v rfl
    exact hexhausted v

/-- Where the timer came to rest at `moment`, if it came to an end. -/
def Kept (I : World ν η μ → Prop) (moment : Instant) (w : World ν η μ) (r : Except Halt Unit)
    (w' : World ν η μ) : Prop :=
  r = .ok () → I w' ∧ w'.calls = [] ∧ w.now ≤ w'.now ∧ w'.Rests moment

/-- What every beat from `start` on keeps is kept while the ticks that are due run. -/
theorem runDue_keeps
    (hkeep : ∀ b v v', Beat.Leads host bound b v v' → start ≤ b.moment → I v → I v')
    (moment : Instant) (hstart : start ≤ moment) (n : Nat) :
    ∀ w : World ν η μ, w.calls = [] → moment ≤ w.now → I w →
      (runDue host (call host bound) moment n).Ends w (Kept I moment w) := by
  induction n with
  | zero =>
    intro w _ _ _ h
    cases h
  | succ n ih =>
    -- after a beat the loop goes on, from a world that is not earlier
    have onward : ∀ b (w v : World ν η μ), Beat.Leads host bound b w v → b.moment = moment →
        w.calls = [] → moment ≤ w.now → I w →
        (runDue host (call host bound) moment n).Ends v (Kept I moment w) := by
      intro b w v hb hbm hc hm hw
      obtain ⟨seg, hrun⟩ := hb.run hc
      have hle := hrun.moves.now_le
      refine (ih v (hrun.calls.trans hc) (Int.le_trans hm hle)
        (hkeep b w v hb (hbm.symm ▸ hstart) hw)).mono ?_
      intro r w' hkept hr
      obtain ⟨hi, hc', hn, hrest⟩ := hkept hr
      exact ⟨hi, hc', Int.le_trans hle hn, hrest⟩
    intro w hc hm hw
    have rest : w.Rests moment → (pure () : Act ν η μ Unit).Ends w (Kept I moment w) := by
      intro hrest
      refine ends_pure.mpr ?_
      intro _
      exact ⟨hw, hc, Int.le_refl _, hrest⟩
    unfold runDue
    refine ends_cache.mpr ?_
    cases ht : w.cache.timer with
    | none =>
      refine rest ⟨by simp [ht], ?_⟩
      intro due h
      rw [ht] at h
      cases h
    | some timer =>
      cases timer with
      | starting => exact ends_change.mpr (onward _ _ _ (.begun moment hm ht) rfl hc hm hw)
      | ended =>
        refine rest ⟨by simp [ht], ?_⟩
        intro due h
        rw [ht] at h
        cases h
      | waiting due =>
        show (if due ≤ moment then _ else _ : Act ν η μ Unit).Ends w _
        split
        · rename_i hd
          refine ends_change.mpr (Ends.bind (P := fun r v => r = .ok () →
            ∃ b, Beat.Leads host bound b w v ∧ b.moment = moment) (guardedTick_ends ?_ ?_ ?_) ?_ ?_)
          · intro v hr _
            exact ⟨_, .ticked due moment hm ht hd hr, rfl⟩
          · intro message v hr _
            exact ⟨_, .unwound due moment message hm ht hd hr, rfl⟩
          · intro v h
            cases h
          · intro _ v hbeat
            obtain ⟨b, hb, hbm⟩ := hbeat rfl
            exact onward b w v hb hbm hc hm hw
          · intro e v _ h
            cases h
        · rename_i hd
          refine rest ⟨by simp [ht], ?_⟩
          intro later h
          rw [ht] at h
          cases h
          exact Int.not_le.mp hd

theorem catchUp_keeps
    (hkeep : ∀ b v v', Beat.Leads host bound b v v' → start ≤ b.moment → I v → I v') (n : Nat) :
    ∀ w : World ν η μ, w.calls = [] → start ≤ w.now → I w →
      (catchUp host (call host bound) n).Ends w fun r w' =>
        r = .ok () → I w' ∧ w'.calls = [] ∧ w.now ≤ w'.now ∧ w'.Rests w'.now := by
  induction n with
  | zero =>
    intro w _ _ _ h
    cases h
  | succ n ih =>
    intro w hc hstart hw
    unfold catchUp
    refine ends_now.mpr ((runDue_keeps hkeep w.now hstart n w hc (Int.le_refl _) hw).bind ?_ ?_)
    · intro _ v hkept
      obtain ⟨hi, hcv, hn, hrest⟩ := hkept rfl
      refine ends_now.mpr ?_
      split
      · -- the ticks have let time pass, and so more of them may be due
        refine (ih v hcv (Int.le_trans hstart hn) hi).mono ?_
        intro r w' h hr
        obtain ⟨hi', hc', hn', hrest'⟩ := h hr
        exact ⟨hi', hc', Int.le_trans hn hn', hrest'⟩
      · rename_i hsame
        have hsame : v.now = w.now := Classical.not_not.mp hsame
        refine ends_pure.mpr ?_
        intro _
        rw [← hsame] at hrest
        exact ⟨hi, hcv, hn, hrest⟩
    · intro e v _ h
      cases h

theorem settle_keeps {w w' : World ν η μ}
    (hkeep : ∀ b v v', Beat.Leads host bound b v v' → w.now ≤ b.moment → I v → I v')
    (hc : w.calls = []) (hh : w.cache.hosting = .task) (hw : I w) (hr : settle host bound w = .ok () w') :
    I w' ∧ w'.calls = [] ∧ w.now ≤ w'.now ∧ w'.Rests w'.now := by
  have hends : (settle host bound).Ends w fun r w' =>
      r = .ok () → I w' ∧ w'.calls = [] ∧ w.now ≤ w'.now ∧ w'.Rests w'.now := by
    unfold settle
    refine ends_cache.mpr ?_
    rw [if_pos hh]
    exact catchUp_keeps hkeep bound w hc (Int.le_refl _) hw
  exact hends.of_ok hr rfl

theorem turn_ok {w w' : World ν η μ} {p : Program ν η μ α} {r : Except String α}
    (hr : turn host bound p w = .ok r w') :
    ∃ v, attempt (p.run (perform host bound)) w = .ok r v ∧ settle host bound v = .ok () w' := by
  have hends : (turn host bound p).Ends w fun r' w' => ∀ r, r' = .ok r →
      ∃ v, attempt (p.run (perform host bound)) w = .ok r v ∧ settle host bound v = .ok () w' := by
    unfold turn
    refine (ends_self (attempt (p.run (perform host bound))) w).bind ?_ ?_
    · intro a v ha
      refine (ends_self (settle host bound) v).bind ?_ ?_
      · intro _ v' hv'
        refine ends_pure.mpr ?_
        intro r hr
        cases hr
        refine ⟨v, ?_, ?_⟩
        · obtain ⟨b, hb, h⟩ | ⟨e, he, -⟩ := ha
          · cases hb
            exact h
          · cases he
        · obtain ⟨_, -, h⟩ | ⟨e, he, -⟩ := hv'
          · exact h
          · cases he
      · intro e v' _ r hr
        cases hr
    · intro e v _ r hr
      cases hr
  exact hends.of_ok hr r rfl

end Act

/-- A session whose timer lives in a task, with its beats, newest first. -/
inductive History (host : Host ν η μ) (settings : Settings η) :
    List (Beat × World ν η μ) → World ν η μ → Prop
  | fresh (t : Instant) (memory : μ) :
      History host settings [] (.fresh settings .task t memory)
  | program {beats : List (Beat × World ν η μ)} {w w' : World ν η μ} {α : Type} (bound : Nat)
      (p : Program ν η μ α) (r : Except String α) (h : History host settings beats w)
      (hr : Act.attempt (p.run (Act.perform host bound)) w = .ok r w') :
      History host settings beats w'
  | beat {beats : List (Beat × World ν η μ)} {w w' : World ν η μ} (bound : Nat) (b : Beat)
      (h : History host settings beats w) (hb : b.Leads host bound w w') :
      History host settings ((b, w') :: beats) w'

namespace Act

variable {host : Host ν η μ} {bound : Nat} {w w' : World ν η μ}

/-- The work of a program is done at level one, too. -/
theorem program_run {p : Program ν η μ α} {r : Except String α}
    (hr : attempt (p.run (perform host bound)) w = .ok r w') :
    ∃ seg, Run 1 .clear .clear True seg w w' := by
  have hruns := Runs.attempt (run_runs (perform_performs host bound) p w (Nat.le_add_left 1 _))
  obtain ⟨seg, hrun, -⟩ := hruns.of_ok hr
  exact ⟨seg, hrun⟩

end Act

namespace History

variable {host : Host ν η μ} {settings : Settings η} {beats : List (Beat × World ν η μ)}
  {w w' : World ν η μ}

theorem run (h : History host settings beats w) : ∃ t memory seg,
    Run 0 .clear .clear True seg (World.fresh settings .task t memory) w := by
  induction h with
  | fresh t memory => exact ⟨t, memory, [], .refl⟩
  | program bound p r _ hr ih =>
    obtain ⟨t, memory, old, hold⟩ := ih
    obtain ⟨new, hnew⟩ := Act.program_run hr
    exact ⟨t, memory, new ++ old, hold.trans (hnew.lower (Nat.zero_le 1))⟩
  | beat bound b _ hb ih =>
    obtain ⟨t, memory, old, hold⟩ := ih
    obtain ⟨new, hnew⟩ := hb.run hold.calls
    exact ⟨t, memory, new ++ old, hold.trans hnew⟩

theorem calls (h : History host settings beats w) : w.calls = [] := by
  obtain ⟨t, memory, seg, hrun⟩ := h.run
  exact hrun.calls

theorem hosting (h : History host settings beats w) : w.cache.hosting = .task := by
  obtain ⟨t, memory, seg, hrun⟩ := h.run
  exact hrun.moves.hosting

theorem settings_eq (h : History host settings beats w) : w.cache.settings = settings := by
  obtain ⟨t, memory, seg, hrun⟩ := h.run
  exact hrun.moves.settings

theorem turn {bound : Nat} {p : Program ν η μ α} {r : Except String α}
    (h : History host settings beats w) (hr : Act.turn host bound p w = .ok r w') :
    ∃ new, History host settings (new ++ beats) w' := by
  obtain ⟨v, hv, hs⟩ := Act.turn_ok hr
  have hprogram : History host settings beats v := .program bound p r h hv
  -- that the history goes on is itself what every beat keeps
  have hkept := Act.settle_keeps (I := fun v => ∃ new, History host settings (new ++ beats) v)
    ?_ hprogram.calls hprogram.hosting ⟨[], hprogram⟩ hs
  · exact hkept.1
  · rintro b v v' hb - ⟨new, hv⟩
    exact ⟨(b, v') :: new, .beat bound b hv hb⟩

end History

theorem Between.history {host : Host ν η μ} {settings : Settings η} {w : World ν η μ}
    (h : Between host settings .task w) : ∃ beats, History host settings beats w := by
  induction h with
  | fresh t memory => exact ⟨[], .fresh t memory⟩
  | turn bound p r _ hr ih =>
    obtain ⟨beats, hb⟩ := ih
    obtain ⟨new, hnew⟩ := hb.turn hr
    exact ⟨new ++ beats, hnew⟩

end ExpiringCache
