import ExpiringCache.Entry
import ExpiringCache.Proofs.WallClock

/-!
# Deadlines of entries

An entry is made at one instant and touched at others. Its policy is rebased when it is made and each
time it is touched, and what comes of that depends on two of these instants only: the first, and the
one of the last touch. The touches need not be in order.
-/

namespace ExpiringCache

variable {η ν : Type}

namespace Policy

/-- An entry under the policy, made at `created` and last touched at `latest`, is expired at `t`. -/
def LapsesBy (created latest t : Instant) : Policy η → Prop
  | .absolute deadline => ∃ u, deadline = some u ∧ u ≤ t
  | .sliding window _ => ∃ u : Instant, u.nanos = latest.nanos + window.nanos ∧ u ≤ t
  | .duration life _ => ∃ u : Instant, u.nanos = created.nanos + life.nanos ∧ u ≤ t
  | .custom _ => False

theorem reached_plus?_iff {start t : Instant} {s : Span} :
    reached (start.plus? s) t = true ↔ ∃ u : Instant, u.nanos = start.nanos + s.nanos ∧ u ≤ t := by
  rw [reached_iff]
  simp only [Instant.plus?_eq_some_iff]

/-- No instant is past the last one, so none of them reaches such a sum. -/
theorem overflow_unreached {start t : Instant} {s : Span}
    (h : Instant.last.nanos < start.nanos + s.nanos) :
    ¬ ∃ u : Instant, u.nanos = start.nanos + s.nanos ∧ u ≤ t := by
  rintro ⟨u, hu, -⟩
  have hlast : u.nanos ≤ Instant.last.nanos := Int.le_sub_one_of_lt u.lt_end
  omega

theorem reached_startingAt {p : Policy η} (h : p.isTimed = true) (created t : Instant) :
    reached (p.startingAt created).deadline? t = true ↔ p.LapsesBy created created t := by
  cases p with
  | absolute deadline => exact reached_iff
  | sliding window _ => exact reached_plus?_iff
  | duration life _ => exact reached_plus?_iff
  | custom _ => cases h

theorem reached_accessed {p : Policy η} (h : p.isTimed = true) (created latest t : Instant) :
    reached ((p.startingAt created).accessed latest).deadline? t = true ↔
      p.LapsesBy created latest t := by
  cases p with
  | absolute deadline => exact reached_iff
  | sliding window _ => exact reached_plus?_iff
  | duration life _ => exact reached_plus?_iff
  | custom _ => cases h

end Policy

namespace Entry

theorem touch_touch (e : Entry ν η) (s t : Instant) : (e.touch s).touch t = e.touch t := by
  simp only [touch, Option.map_map]
  congr 2
  exact funext fun p => p.accessed_accessed s t

/-- Of all touches the last one counts. -/
theorem foldl_touch (e : Entry ν η) (touches : List Instant) :
    touches.foldl touch e = match touches.getLast? with
      | none => e
      | some t => e.touch t := by
  induction touches generalizing e with
  | nil => rfl
  | cons s touches ih =>
    rw [List.foldl_cons, ih, List.getLast?_cons]
    cases touches.getLast? with
    | none => rfl
    | some t => exact e.touch_touch s t

variable {value : ν} {policy : Option (Policy η)} {g : Nat} {created t : Instant}
  {touches : List Instant}

/-- An entry made under `policy` and touched. -/
def made (created : Instant) (touches : List Instant) (value : ν) (policy : Option (Policy η))
    (g : Nat) : Entry ν η :=
  touches.foldl touch (insertedAt created value policy g)

theorem made_cases (created : Instant) (touches : List Instant) (value : ν)
    (policy : Option (Policy η)) (g : Nat) : made created touches value policy g =
        insertedAt created value policy g ∧ touches.getLast?.getD created = created ∨
    ∃ latest, made created touches value policy g = (insertedAt created value policy g).touch latest ∧
      touches.getLast?.getD created = latest := by
  unfold made
  rw [foldl_touch]
  cases touches.getLast? with
  | none => exact .inl ⟨rfl, rfl⟩
  | some latest => exact .inr ⟨latest, rfl, rfl⟩

theorem lastAccessedAt_made :
    (made created touches value policy g).lastAccessedAt = touches.getLast?.getD created := by
  obtain ⟨h, hl⟩ | ⟨latest, h, hl⟩ :=
    made_cases created touches value policy g <;> rw [h, hl] <;> rfl

theorem made_snoc (touches : List Instant) (t : Instant) :
    made created (touches ++ [t]) value policy g =
      (made created touches value policy g).touch t := by
  simp only [made, List.foldl_append, List.foldl_cons, List.foldl_nil]

theorem policy_made (created : Instant) (touches : List Instant) (value : ν) (g : Nat)
    (p : Policy η) : (made created touches value (some p) g).policy = some (p.startingAt created) ∧
        touches.getLast?.getD created = created ∨
      (made created touches value (some p) g).policy =
        some ((p.startingAt created).accessed (touches.getLast?.getD created)) := by
  obtain ⟨h, hl⟩ | ⟨latest, h, hl⟩ := made_cases created touches value (some p) g
  · rw [h]
    exact .inl ⟨rfl, hl⟩
  · rw [h, hl]
    exact .inr rfl

/-- A sliding entry has its deadline one window after its last access. -/
theorem sliding_made {window : Span} {deadline : Option Instant} {e : Entry ν η}
    (h : e = made created touches value (some (.sliding window deadline)) g) :
    e.policy = some (.sliding window (e.lastAccessedAt.plus? window)) := by
  rw [h, lastAccessedAt_made]
  obtain ⟨hp, hl⟩ | hp :=
    policy_made created touches value g (.sliding window deadline)
  · rw [hp, hl]
    rfl
  · exact hp

/-- An entry does not show which deadline its policy was built with, if it is rebased. -/
theorem made_rebased {p q : Policy η} (h : p.startingAt created = q.startingAt created) :
    made created touches value (some p) g = made created touches value (some q) g := by
  simp only [made, insertedAt, Option.map_some, h]

section

variable {m : Type → Type} [Monad m] (ask : η → Instant → m Bool)

theorem expired_made_none : (made created touches value none g).expired ask t = pure false := by
  obtain ⟨h, -⟩ | ⟨latest, h, -⟩ :=
    made_cases (η := η) created touches value none g <;> rw [h] <;> rfl

theorem expired_made {p : Policy η} (h : p.isTimed = true) :
    ∃ b, (made created touches value (some p) g).expired ask t = pure b ∧
      (b = true ↔ p.LapsesBy created (touches.getLast?.getD created) t) := by
  have answer : ∀ q : Policy η, (made created touches value (some p) g).policy = some q →
      q.isTimed = true → (made created touches value (some p) g).expired ask t =
        pure (Policy.reached q.deadline? t) := by
    intro q hq ht
    unfold expired
    rw [hq]
    exact Policy.expired_timed ask t ht
  obtain ⟨hp, hl⟩ | hp := policy_made created touches value g p
  · rw [hl]
    exact ⟨_, answer _ hp (by simpa using h), Policy.reached_startingAt h created t⟩
  · exact ⟨_, answer _ hp (by simpa using h), Policy.reached_accessed h created _ t⟩

end

/-- What comes of an entry that is made at `created` and touched at these instants, one after the
other, for every policy that is no predicate of the host's. -/
structure KeepsTime (ν η : Type) (created : Instant) (touches : List Instant) (value : ν)
    (g : Nat) : Prop where
  timed : ∀ {m : Type → Type} [Monad m] (ask : η → Instant → m Bool) (t : Instant) (p : Policy η),
    p.isTimed = true → ∃ b, (made created touches value (some p) g).expired ask t = pure b ∧
      (b = true ↔ p.LapsesBy created (touches.getLast?.getD created) t)
  timeless : ∀ {m : Type → Type} [Monad m] (ask : η → Instant → m Bool) (t : Instant),
    (made created touches value none g).expired ask t = pure false
  /-- The deadline that a relative policy was built with makes no difference. -/
  rebased : ∀ (span : Span) (d d' : Option Instant),
    made created touches value (some (.sliding span d : Policy η)) g =
      made created touches value (some (.sliding span d')) g ∧
    made created touches value (some (.duration span d : Policy η)) g =
      made created touches value (some (.duration span d')) g
  /-- A sum past the last instant is never reached, and summing field by field finds it out. -/
  overflowing : ∀ {m : Type → Type} [Monad m] (ask : η → Instant → m Bool) (t : Instant)
    (span : Span) (d : Option Instant),
    (Instant.last.nanos < created.nanos + span.nanos →
      Instant.fieldSum? created.clockSeconds created.clockNanos span = none ∧
      (made created touches value (some (.duration span d)) g).expired ask t = pure false) ∧
    (Instant.last.nanos < (touches.getLast?.getD created).nanos + span.nanos →
      Instant.fieldSum? (touches.getLast?.getD created).clockSeconds
        (touches.getLast?.getD created).clockNanos span = none ∧
      (made created touches value (some (.sliding span d)) g).expired ask t = pure false)
  sliding : ∀ (window : Span) (d : Option Instant) (e : Entry ν η),
    e = made created touches value (some (.sliding window d)) g →
      e.lastAccessedAt = touches.getLast?.getD created ∧
      e.policy = some (.sliding window (e.lastAccessedAt.plus? window))

theorem keepsTime (created : Instant) (touches : List Instant) (value : ν) (g : Nat) :
    KeepsTime ν η created touches value g where
  timed ask _ _ h := expired_made ask h
  timeless ask _ := expired_made_none ask
  rebased _ _ _ := ⟨made_rebased rfl, made_rebased rfl⟩
  overflowing ask t span d := by
    have unsummed : ∀ {start : Instant}, Instant.last.nanos < start.nanos + span.nanos →
        Instant.fieldSum? start.clockSeconds start.clockNanos span = none := by
      intro start h
      rw [Instant.fieldSum?_eq, Instant.plus?_eq_none_iff.mpr h, Option.map_none]
    have unexpired : ∀ {p : Policy η}, p.isTimed = true →
        ¬ p.LapsesBy created (touches.getLast?.getD created) t →
        (made created touches value (some p) g).expired ask t = pure false := by
      intro p ht hno
      obtain ⟨b, hb, hiff⟩ := expired_made ask ht
      rw [hb, Bool.eq_false_iff.mpr (mt hiff.mp hno)]
    exact ⟨fun h => ⟨unsummed h, unexpired rfl (Policy.overflow_unreached h)⟩,
      fun h => ⟨unsummed h, unexpired rfl (Policy.overflow_unreached h)⟩⟩
  sliding _ _ _ h := ⟨by rw [h, lastAccessedAt_made], sliding_made h⟩

end Entry

end ExpiringCache
