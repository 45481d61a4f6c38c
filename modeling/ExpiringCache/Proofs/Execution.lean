import ExpiringCache.World

/-!
# How work ends

`x.Ends w Q` says that work which begins in the world `w` ends with a result and a world of which
`Q` holds, be the result an answer or a halt. The rules below open the steps of the engine one at
a time; a read of the world, a note and a change end in a world that is known in closed form.
-/

namespace ExpiringCache

namespace Act

variable {ν η μ α β : Type}

def Ends (x : Act ν η μ α) (w : World ν η μ) (Q : Except Halt α → World ν η μ → Prop) : Prop :=
  match x w with
  | .ok a w' => Q (.ok a) w'
  | .error h w' => Q (.error h) w'

/-- The world that is left behind. -/
def after (x : Act ν η μ α) (w : World ν η μ) : World ν η μ :=
  match x w with
  | .ok _ w' => w'
  | .error _ w' => w'

variable {x : Act ν η μ α} {f : α → Act ν η μ β} {w w' : World ν η μ}

theorem Ends.mono {P Q : Except Halt α → World ν η μ → Prop} (h : x.Ends w P)
    (hpq : ∀ r w', P r w' → Q r w') : x.Ends w Q := by
  unfold Ends at *
  cases hx : x w with
  | ok a w' =>
    rw [hx] at h
    exact hpq _ _ h
  | error e w' =>
    rw [hx] at h
    exact hpq _ _ h

/-- Only what the work does in `w` counts. -/
theorem Ends.congr {y : Act ν η μ α} {Q : Except Halt α → World ν η μ → Prop} (h : x.Ends w Q)
    (heq : y w = x w) : y.Ends w Q := by
  unfold Ends
  rw [heq]
  exact h

theorem Ends.and {P Q : Except Halt α → World ν η μ → Prop} (h : x.Ends w P) (k : x.Ends w Q) :
    x.Ends w fun r w' => P r w' ∧ Q r w' := by
  unfold Ends at *
  cases hx : x w with
  | ok a w' =>
    rw [hx] at h k
    exact ⟨h, k⟩
  | error e w' =>
    rw [hx] at h k
    exact ⟨h, k⟩

theorem Ends.after {P : World ν η μ → Prop} (h : x.Ends w fun _ w' => P w') : P (x.after w) := by
  unfold Ends at h
  unfold Act.after
  cases hx : x w with
  | ok a w' =>
    rw [hx] at h
    exact h
  | error e w' =>
    rw [hx] at h
    exact h

theorem ends_of_after {P : World ν η μ → Prop} (h : P (x.after w)) : x.Ends w fun _ w' => P w' := by
  unfold Act.after at h
  unfold Ends
  cases hx : x w with
  | ok a w' =>
    rw [hx] at h
    exact h
  | error e w' =>
    rw [hx] at h
    exact h

/-- Work has one result, and one world is left behind. -/
theorem Ends.outcome {Q : Except Halt α → World ν η μ → Prop} (h : x.Ends w Q) :
    ∃ r, Q r (x.after w) ∧ x.Ends w fun r' w' => r' = r ∧ w' = x.after w := by
  unfold Ends Act.after at *
  cases hx : x w with
  | ok a w' =>
    rw [hx] at h
    exact ⟨.ok a, h, rfl, rfl⟩
  | error e w' =>
    rw [hx] at h
    exact ⟨.error e, h, rfl, rfl⟩

/-- The answer, if there is one. -/
def answer? (x : Act ν η μ α) (w : World ν η μ) : Option α :=
  match x w with
  | .ok a _ => some a
  | .error _ _ => none

theorem eq_ok_of_answer? {a : α} (h : x.answer? w = some a) : x w = .ok a (x.after w) := by
  unfold answer? at h
  unfold Act.after
  cases hx : x w with
  | ok b w' =>
    rw [hx] at h
    cases h
    rfl
  | error e w' =>
    rw [hx] at h
    cases h

theorem Ends.of_ok {Q : Except Halt α → World ν η μ → Prop} {a : α} (h : x.Ends w Q)
    (hx : x w = .ok a w') : Q (.ok a) w' := by
  unfold Ends at h
  rw [hx] at h
  exact h

theorem Ends.of_error {Q : Except Halt α → World ν η μ → Prop} {e : Halt} (h : x.Ends w Q)
    (hx : x w = .error e w') : Q (.error e) w' := by
  unfold Ends at h
  rw [hx] at h
  exact h

theorem ends_self (x : Act ν η μ α) (w : World ν η μ) :
    x.Ends w fun r w' => (∃ a, r = .ok a ∧ x w = .ok a w') ∨ (∃ h, r = .error h ∧ x w = .error h w') := by
  unfold Ends
  cases hx : x w with
  | ok a w' => exact Or.inl ⟨a, rfl, rfl⟩
  | error e w' => exact Or.inr ⟨e, rfl, rfl⟩

theorem Ends.bind {P : Except Halt α → World ν η μ → Prop} {Q : Except Halt β → World ν η μ → Prop}
    (h : x.Ends w P) (hok : ∀ a w', P (.ok a) w' → (f a).Ends w' Q)
    (herr : ∀ e w', P (.error e) w' → Q (.error e) w') : (x >>= f).Ends w Q := by
  unfold Ends at h ⊢
  show match EStateM.bind x f w with
    | .ok b w' => Q (.ok b) w'
    | .error e w' => Q (.error e) w'
  unfold EStateM.bind
  cases hx : x w with
  | ok a w' =>
    rw [hx] at h
    exact hok a w' h
  | error e w' =>
    rw [hx] at h
    exact herr e w' h

variable {Q : Except Halt α → World ν η μ → Prop} {R : Except Halt β → World ν η μ → Prop}

theorem ends_pure {a : α} : (pure a : Act ν η μ α).Ends w Q ↔ Q (.ok a) w := Iff.rfl

theorem ends_throw {e : Halt} : (throw e : Act ν η μ α).Ends w Q ↔ Q (.error e) w := Iff.rfl

theorem ends_cache {g : Cache ν η → Act ν η μ β} :
    (Act.cache >>= g).Ends w R ↔ (g w.cache).Ends w R := Iff.rfl

theorem ends_now {g : Instant → Act ν η μ β} :
    (Act.now >>= g).Ends w R ↔ (g w.now).Ends w R := Iff.rfl

theorem ends_get {g : World ν η μ → Act ν η μ β} :
    ((get : Act ν η μ (World ν η μ)) >>= g).Ends w R ↔ (g w).Ends w R := Iff.rfl

theorem ends_modify {t : World ν η μ → World ν η μ} {g : Unit → Act ν η μ β} :
    ((modify t : Act ν η μ Unit) >>= g).Ends w R ↔ (g ()).Ends (t w) R := Iff.rfl

theorem ends_change {t : Cache ν η → Cache ν η} {g : Unit → Act ν η μ β} :
    (Act.change t >>= g).Ends w R ↔ (g ()).Ends (w.change t) R := Iff.rfl

theorem ends_note {r : Record ν η} {g : Unit → Act ν η μ β} :
    (Act.note r >>= g).Ends w R ↔ (g ()).Ends (w.note r) R := Iff.rfl

/-- A predicate answers or panics, and a line tells of it. -/
theorem ends_consult {host : Host ν η μ} {predicate : η} {t : Instant}
    {Q : Except Halt Bool → World ν η μ → Prop}
    (hanswers : ∀ b m, Q (.ok b)
      (({ w with memory := m } : World ν η μ).note (.consulted predicate (some b))))
    (hpanics : ∀ message m, Q (.error (.panic message))
      (({ w with memory := m } : World ν η μ).note (.consulted predicate none))) :
    (consult host predicate t).Ends w Q := by
  unfold Ends consult
  rcases host.consult predicate t w.memory with ⟨message | b, m⟩
  · exact hpanics message m
  · exact hanswers b m

theorem ends_bracket {enter leave : World ν η μ → World ν η μ} (h : x.Ends (enter w) fun r w' =>
    Q r (leave w')) : (bracket enter leave x).Ends w Q := by
  unfold Ends bracket at *
  cases hx : x (enter w) with
  | ok a w' =>
    rw [hx] at h
    exact h
  | error e w' =>
    rw [hx] at h
    exact h

/-- What is left of a result once its panic is caught; the bound cannot be caught. -/
def caught : Except Halt α → Except Halt (Except String α)
  | .ok a => .ok (.ok a)
  | .error (.panic message) => .ok (.error message)
  | .error .exhausted => .error .exhausted

theorem ends_attempt {S : Except Halt (Except String α) → World ν η μ → Prop}
    (h : x.Ends w fun r w' => S (caught r) w') : (attempt x).Ends w S := by
  unfold Ends attempt at *
  cases hx : x w with
  | ok a w' =>
    rw [hx] at h
    exact h
  | error e w' =>
    rw [hx] at h
    cases e with
    | panic message => exact h
    | exhausted => exact h

/-- The work always returns, and what it returns and the world it leaves are `Q`. -/
def Returns (x : Act ν η μ α) (w : World ν η μ) (Q : α → World ν η μ → Prop) : Prop :=
  ∃ a w', x w = .ok a w' ∧ Q a w'

namespace Returns

variable {P Q : α → World ν η μ → Prop} {R : β → World ν η μ → Prop}

theorem mono (h : x.Returns w P) (hpq : ∀ a w', P a w' → Q a w') : x.Returns w Q := by
  obtain ⟨a, w', hx, hp⟩ := h
  exact ⟨a, w', hx, hpq a w' hp⟩

theorem ends (h : x.Returns w P) : x.Ends w fun r w' => ∃ a, r = .ok a ∧ P a w' := by
  obtain ⟨a, w', hx, hp⟩ := h
  unfold Ends
  rw [hx]
  exact ⟨a, rfl, hp⟩

/-- Work that returns is followed by work that ends. -/
theorem bind_ends {S : Except Halt β → World ν η μ → Prop} (h : x.Returns w P)
    (hf : ∀ a w', P a w' → (f a).Ends w' S) : (x >>= f).Ends w S := by
  refine h.ends.bind ?_ ?_
  · rintro a w' ⟨_, hr, hp⟩
    cases hr
    exact hf a w' hp
  · rintro e w' ⟨_, hr, -⟩
    cases hr

theorem pure {a : α} (h : Q a w) : (Pure.pure a : Act ν η μ α).Returns w Q := ⟨a, w, rfl, h⟩

theorem bind (h : x.Returns w P) (hf : ∀ a w', P a w' → (f a).Returns w' R) :
    (x >>= f).Returns w R := by
  obtain ⟨a, w', hx, hp⟩ := h
  obtain ⟨b, w'', hy, hr⟩ := hf a w' hp
  refine ⟨b, w'', ?_, hr⟩
  show EStateM.bind x f w = _
  unfold EStateM.bind
  rw [hx]
  exact hy

theorem cache {g : Cache ν η → Act ν η μ β} (h : (g w.cache).Returns w R) :
    (Act.cache >>= g).Returns w R := h

theorem now {g : Instant → Act ν η μ β} (h : (g w.now).Returns w R) :
    (Act.now >>= g).Returns w R := h

theorem get {g : World ν η μ → Act ν η μ β} (h : (g w).Returns w R) :
    (MonadState.get >>= g : Act ν η μ β).Returns w R := h

theorem modify {t : World ν η μ → World ν η μ} {g : Unit → Act ν η μ β}
    (h : (g ()).Returns (t w) R) :
    ((MonadState.modifyGet fun w => ((), t w)) >>= g : Act ν η μ β).Returns w R := h

theorem change {t : Cache ν η → Cache ν η} {g : Unit → Act ν η μ β}
    (h : (g ()).Returns (w.change t) R) : (Act.change t >>= g).Returns w R := h

theorem note {r : Record ν η} {g : Unit → Act ν η μ β} (h : (g ()).Returns (w.note r) R) :
    (Act.note r >>= g).Returns w R := h

theorem bracket {enter leave : World ν η μ → World ν η μ}
    (h : x.Returns (enter w) fun a w' => Q a (leave w')) :
    (Act.bracket enter leave x).Returns w Q := by
  obtain ⟨a, w', hx, hq⟩ := h
  refine ⟨a, leave w', ?_, hq⟩
  unfold Act.bracket
  rw [hx]

theorem attempt {S : Except String α → World ν η μ → Prop}
    (h : x.Returns w fun a w' => S (.ok a) w') : (Act.attempt x).Returns w S := by
  obtain ⟨a, w', hx, hq⟩ := h
  refine ⟨.ok a, w', ?_, hq⟩
  unfold Act.attempt
  rw [hx]

end Returns

end Act

/-- What holds of every line written first and of every line written then holds of all of them. -/
theorem written_trans {ν η : Type} {P : Line ν η → Prop} {first second third : List (Line ν η)}
    (h : ∃ seg, second = seg ++ first ∧ ∀ l ∈ seg, P l)
    (k : ∃ seg, third = seg ++ second ∧ ∀ l ∈ seg, P l) :
    ∃ seg, third = seg ++ first ∧ ∀ l ∈ seg, P l := by
  obtain ⟨old, rfl, ho⟩ := h
  obtain ⟨new, rfl, hn⟩ := k
  exact ⟨new ++ old, (List.append_assoc ..).symm,
    fun l hl => (List.mem_append.mp hl).elim (hn l) (ho l)⟩

end ExpiringCache
