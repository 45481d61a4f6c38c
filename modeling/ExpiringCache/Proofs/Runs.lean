import ExpiringCache.Proofs.Execution
import ExpiringCache.Proofs.Ledger
import ExpiringCache.Proofs.Moves

/-!
# Runs of the engine's work

A run leads from one world to another by moves, puts its segment on top of the journal, and comes
back to the work in progress it began with. `Goes` says of a piece of work that it always runs like
this, also when it ends in a panic or is cut short; its rules follow the way work is put together.
-/

namespace ExpiringCache

variable {ν η μ α β : Type}

structure Run (level : Nat) (a b : Account) (whole : Prop) (seg : List (Line ν η))
    (w w' : World ν η μ) : Prop where
  moves : Moves level w w'
  calls : w'.calls = w.calls
  journal : w'.journal = seg ++ w.journal
  ledger : Ledger w.calls level w.cache.settings a b whole seg

namespace Run

variable {level : Nat} {a b c : Account} {whole : Prop} {seg old new : List (Line ν η)}
  {w w' w'' : World ν η μ}

theorem refl : Run level a a whole [] w w := ⟨.refl, rfl, rfl, .nil⟩

theorem trans (h : Run level a b True old w w') (k : Run level b c whole new w' w'') :
    Run level a c whole (new ++ old) w w'' := by
  have hl := k.ledger
  rw [h.calls, h.moves.settings] at hl
  refine ⟨h.moves.trans k.moves, k.calls.trans h.calls, ?_, h.ledger.append hl⟩
  rw [k.journal, h.journal, List.append_assoc]

theorem lower {low : Nat} (hl : low ≤ level) (h : Run level a b whole seg w w') :
    Run low a b whole seg w w' := ⟨h.moves.lower hl, h.calls, h.journal, h.ledger.lower hl⟩

theorem silent (h : Move level w w') (hc : w'.calls = w.calls) (hj : w'.journal = w.journal) :
    Run level a a whole [] w w' := ⟨.single h, hc, hj, .nil⟩

theorem line (r : Record ν η) (hr : r.isPassage = false) (h : (w.line r).Lawful w.journal)
    (hl : Ledger w.calls level w.cache.settings a b whole [w.line r]) :
    Run level a b whole [w.line r] w (w.note r) := ⟨.single (.note r hr h), rfl, rfl, hl⟩

end Run

namespace Act

/-- The work runs from `w`, with the accounts `a` before and `b` after it, and what it returns is
`Q`. -/
def Goes (level : Nat) (a : Account) (x : Act ν η μ α) (w : World ν η μ) (b : α → Account)
    (Q : α → World ν η μ → List (Line ν η) → Prop) : Prop :=
  x.Ends w fun r w' =>
    match r with
    | .ok v => ∃ seg, Run level a (b v) True seg w w' ∧ Q v w' seg
    | .error e => ∃ seg, Run level a .clear (e ≠ .exhausted) seg w w'

/-- The work runs and leaves nothing behind. -/
def Runs (level : Nat) (x : Act ν η μ α) (w : World ν η μ) : Prop :=
  x.Goes level .clear w (fun _ => .clear) fun _ _ _ => True

variable {level : Nat} {a c : Account} {x : Act ν η μ α} {f : α → Act ν η μ β} {w w' : World ν η μ}
  {b : α → Account} {d : β → Account} {P Q : α → World ν η μ → List (Line ν η) → Prop}
  {R : β → World ν η μ → List (Line ν η) → Prop} {seg : List (Line ν η)}

namespace Goes

theorem imp (h : x.Goes level a w b P)
    (hpq : ∀ v w' seg, Run level a (b v) True seg w w' → P v w' seg → Q v w' seg) :
    x.Goes level a w b Q := by
  refine Ends.mono h ?_
  intro r w' hr
  cases r with
  | ok v =>
    obtain ⟨seg, hrun, hp⟩ := hr
    exact ⟨seg, hrun, hpq v w' seg hrun hp⟩
  | error e => exact hr

theorem lower {low : Nat} (hl : low ≤ level) (h : x.Goes level a w b Q) :
    x.Goes low a w b Q := by
  refine Ends.mono h ?_
  intro r w' hr
  cases r with
  | ok v =>
    obtain ⟨seg, hrun, hq⟩ := hr
    exact ⟨seg, hrun.lower hl, hq⟩
  | error e =>
    obtain ⟨seg, hrun⟩ := hr
    exact ⟨seg, hrun.lower hl⟩

/-- What is known of a result in another way holds along with it. -/
theorem and (h : x.Goes level a w b P) {S : Except Halt α → World ν η μ → Prop} (k : x.Ends w S) :
    x.Goes level a w b fun v w' seg => P v w' seg ∧ S (.ok v) w' := by
  unfold Goes Ends at *
  cases hx : x w with
  | ok v w' =>
    rw [hx] at h k
    obtain ⟨seg, hrun, hp⟩ := h
    exact ⟨seg, hrun, hp, k⟩
  | error e w' =>
    rw [hx] at h
    exact h

theorem runs (h : x.Goes level .clear w (fun _ => .clear) P) : x.Runs level w :=
  h.imp fun _ _ _ _ _ => trivial

theorem of_ok {v : α} (h : x.Goes level a w b Q) (hx : x w = .ok v w') :
    ∃ seg, Run level a (b v) True seg w w' ∧ Q v w' seg := Ends.of_ok h hx

theorem of_error {e : Halt} (h : x.Goes level a w b Q) (hx : x w = .error e w') :
    ∃ seg, Run level a .clear (e ≠ .exhausted) seg w w' := Ends.of_error h hx

theorem ending (h : x.Goes level a w (fun _ => .clear) Q) :
    ∃ seg, Run level a .clear False seg w (x.after w) := by
  refine Ends.after (P := fun v => ∃ seg, Run level a .clear False seg w v) (Ends.mono h ?_)
  intro r w' hr
  cases r with
  | ok v =>
    obtain ⟨seg, hrun, -⟩ := hr
    exact ⟨seg, hrun.moves, hrun.calls, hrun.journal, hrun.ledger.imp fun hf => hf.elim⟩
  | error e =>
    obtain ⟨seg, hrun⟩ := hr
    exact ⟨seg, hrun.moves, hrun.calls, hrun.journal, hrun.ledger.imp fun hf => hf.elim⟩

theorem pure {v : α} (hb : b v = a) (h : Q v w []) : (Pure.pure v : Act ν η μ α).Goes level a w b Q := by
  refine ends_pure.mpr ⟨[], ?_, h⟩
  rw [hb]
  exact .refl

theorem exhausted : (throw .exhausted : Act ν η μ α).Goes level a w b Q := by
  refine ends_throw.mpr ⟨[], .refl, rfl, rfl, ?_⟩
  exact Ledger.forget (fun h => absurd rfl h) .nil

theorem panic (message : String) :
    (throw (.panic message) : Act ν η μ α).Goes level .clear w b Q :=
  ends_throw.mpr ⟨[], .refl⟩

/-- The work goes on from `w'`, which a run has reached. -/
theorem after (hr : Run level a c True seg w w')
    (h : x.Goes level c w' b fun v w'' new => Q v w'' (new ++ seg)) :
    x.Ends w' fun r w'' =>
      match r with
      | .ok v => ∃ seg, Run level a (b v) True seg w w'' ∧ Q v w'' seg
      | .error e => ∃ seg, Run level a .clear (e ≠ .exhausted) seg w w'' := by
  refine Ends.mono h ?_
  intro r w'' hw
  cases r with
  | ok v =>
    obtain ⟨new, hnew, hq⟩ := hw
    exact ⟨new ++ seg, hr.trans hnew, hq⟩
  | error e =>
    obtain ⟨new, hnew⟩ := hw
    exact ⟨new ++ seg, hr.trans hnew⟩

theorem bind (h : x.Goes level a w b P)
    (hf : ∀ v w' seg, Run level a (b v) True seg w w' → P v w' seg →
      (f v).Goes level (b v) w' d fun u w'' new => R u w'' (new ++ seg)) :
    (x >>= f).Goes level a w d R := by
  refine Ends.bind h ?_ ?_
  · rintro v w' ⟨seg, hr, hp⟩
    exact after hr (hf v w' seg hr hp)
  · intro e w' hr
    exact hr

theorem cache {g : Cache ν η → Act ν η μ β} (h : (g w.cache).Goes level a w d R) :
    (Act.cache >>= g).Goes level a w d R := ends_cache.mpr h

theorem now {g : Instant → Act ν η μ β} (h : (g w.now).Goes level a w d R) :
    (Act.now >>= g).Goes level a w d R := ends_now.mpr h

theorem get {g : World ν η μ → Act ν η μ β} (h : (g w).Goes level a w d R) :
    (MonadState.get >>= g : Act ν η μ β).Goes level a w d R := ends_get.mpr h

theorem modify {t : World ν η μ → World ν η μ} {g : Unit → Act ν η μ β} (hm : Move level w (t w))
    (hc : (t w).calls = w.calls) (hj : (t w).journal = w.journal)
    (h : (g ()).Goes level a (t w) d R) :
    ((MonadState.modifyGet fun w => ((), t w)) >>= g : Act ν η μ β).Goes level a w d R := by
  refine ends_modify.mpr (after (Run.silent hm hc hj) ?_)
  exact h.imp fun _ _ seg _ hq => by rwa [List.append_nil]

theorem change {t : Cache ν η → Cache ν η} {g : Unit → Act ν η μ β}
    (hm : Move level w (w.change t)) (h : (g ()).Goes level a (w.change t) d R) :
    (Act.change t >>= g).Goes level a w d R := modify hm rfl rfl h

theorem note {r : Record ν η} {g : Unit → Act ν η μ β} (hp : r.isPassage = false)
    (hl : (w.line r).Lawful w.journal)
    (hb : Ledger w.calls level w.cache.settings a c True [w.line r])
    (h : (g ()).Goes level c (w.note r) d fun u w' new => R u w' (new ++ [w.line r])) :
    (Act.note r >>= g).Goes level a w d R :=
  ends_note.mpr (after (Run.line r hp hl hb) h)

/-- A caught panic leaves alone what others left behind. -/
theorem attempt (h : x.Goes level .clear w (fun _ => .clear) Q) :
    (Act.attempt x).Goes level a w (fun _ => a) fun r w' seg => ∀ v, r = .ok v → Q v w' seg := by
  refine ends_attempt (Ends.mono h ?_)
  intro r w' hr
  match r, hr with
  | .ok v, ⟨seg, hrun, hq⟩ =>
    refine ⟨seg, ⟨hrun.moves, hrun.calls, hrun.journal, hrun.ledger.frame a⟩, ?_⟩
    intro u hu
    cases hu
    exact hq
  | .error (.panic message), ⟨seg, hrun⟩ =>
    have hl : Ledger _ _ _ _ _ True seg := hrun.ledger.imp fun _ => by simp
    refine ⟨seg, ⟨hrun.moves, hrun.calls, hrun.journal, hl.frame a⟩, ?_⟩
    intro u hu
    cases hu
  | .error .exhausted, ⟨seg, hrun⟩ =>
    have hl := (hrun.ledger.frame a).forget fun h => absurd rfl h
    exact ⟨seg, hrun.moves, hrun.calls, hrun.journal, hl⟩

theorem bracket {enter leave : World ν η μ → World ν η μ} (act : Activity ν η)
    (hin : Move level w (enter w)) (hcalls : (enter w).calls = act :: w.calls)
    (hjournal : (enter w).journal = w.journal)
    (hout : ∀ v : World ν η μ, v.calls = act :: w.calls →
      Move level v (leave v) ∧ (leave v).calls = w.calls ∧ (leave v).journal = v.journal)
    (h : x.Goes level a (enter w) b Q) :
    (Act.bracket enter leave x).Goes level a w b fun v w' seg =>
      ∃ w1, w' = leave w1 ∧ w'.journal = w1.journal ∧ Q v w1 seg := by
  have close : ∀ {b : Account} {whole : Prop} {seg : List (Line ν η)} {w1 : World ν η μ},
      Run level a b whole seg (enter w) w1 → Run level a b whole seg w (leave w1) ∧
        (leave w1).journal = w1.journal := by
    intro b whole seg w1 hr
    obtain ⟨hm, hc, hj⟩ := hout w1 (hr.calls.trans hcalls)
    have hl := hr.ledger
    rw [hcalls, hin.settings] at hl
    refine ⟨⟨((Relation.ReflTransGen.single hin).trans hr.moves).tail hm, hc, ?_,
      hl.outer (List.suffix_cons _ _)⟩, hj⟩
    rw [hj, hr.journal, hjournal]
  refine ends_bracket (Ends.mono h ?_)
  intro r w1 hr
  cases r with
  | ok v =>
    obtain ⟨seg, hrun, hq⟩ := hr
    obtain ⟨hrun', hj⟩ := close hrun
    exact ⟨seg, hrun', w1, rfl, hj, hq⟩
  | error e =>
    obtain ⟨seg, hrun⟩ := hr
    exact ⟨seg, (close hrun).1⟩

theorem during {act : Activity ν η} (ha : act.isPlain = true)
    (h : x.Goes level a (w.push act) b Q) :
    (Act.during act x).Goes level a w b fun v w' seg =>
      ∃ w1, w' = w1.pop ∧ w'.journal = w1.journal ∧ Q v w1 seg := by
  refine bracket act (.enter act ha) rfl rfl ?_ h
  intro v hv
  refine ⟨.leave act ha w.calls hv, ?_, rfl⟩
  rw [World.calls_pop, hv]
  rfl

end Goes

end Act

end ExpiringCache
