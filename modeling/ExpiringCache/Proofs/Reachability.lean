import ExpiringCache.Proofs.Operations

/-!
# Reachable worlds

A session begins with a new cache, at any instant and with any memory of the host, and goes on turn
by turn. What holds at the beginning and is kept by every move holds between turns, and also where
a turn is cut short because callbacks are nested too deep for its bound.
-/

namespace ExpiringCache

variable {ν η μ : Type}

def World.fresh (settings : Settings η) (hosting : Hosting) (t : Instant) (memory : μ) :
    World ν η μ := ⟨t, .create settings hosting, memory, [], []⟩

/-- The worlds between turns. -/
inductive Between (host : Host ν η μ) (settings : Settings η) (hosting : Hosting) :
    World ν η μ → Prop
  | fresh (t : Instant) (memory : μ) :
      Between host settings hosting (World.fresh settings hosting t memory)
  | turn {w w' : World ν η μ} {α : Type} (bound : Nat) (p : Program ν η μ α) (r : Except String α)
      (h : Between host settings hosting w) (hr : Act.turn host bound p w = .ok r w') :
      Between host settings hosting w'

/-- The worlds in which a turn ends, be it cut short. -/
inductive Reachable (host : Host ν η μ) (settings : Settings η) (hosting : Hosting) :
    World ν η μ → Prop
  | between {w : World ν η μ} (h : Between host settings hosting w) :
      Reachable host settings hosting w
  | after {w : World ν η μ} {α : Type} (bound : Nat) (p : Program ν η μ α)
      (h : Between host settings hosting w) :
      Reachable host settings hosting ((Act.turn host bound p).after w)

variable {host : Host ν η μ} {settings : Settings η} {hosting : Hosting} {w : World ν η μ}

theorem Between.run (h : Between host settings hosting w) :
    ∃ t memory, Run 0 .clear .clear True w.journal (World.fresh settings hosting t memory) w := by
  induction h with
  | fresh t memory => exact ⟨t, memory, .refl⟩
  | @turn w w' α bound p r _ hr ih =>
    obtain ⟨t, memory, hrun⟩ := ih
    obtain ⟨seg, hseg, -⟩ := (Act.turn_runs host bound p w hrun.calls).of_ok hr
    refine ⟨t, memory, ?_⟩
    have h := hrun.trans hseg
    rwa [← hseg.journal] at h

theorem Reachable.run (h : Reachable host settings hosting w) :
    ∃ t memory, Run 0 .clear .clear False w.journal (World.fresh settings hosting t memory) w := by
  cases h with
  | between h =>
    obtain ⟨t, memory, hrun⟩ := h.run
    exact ⟨t, memory, hrun.moves, hrun.calls, hrun.journal, hrun.ledger.imp fun hf => hf.elim⟩
  | @after w α bound p h =>
    obtain ⟨t, memory, hrun⟩ := h.run
    refine ⟨t, memory, ?_⟩
    obtain ⟨seg, hseg⟩ := (Act.turn_runs host bound p w hrun.calls).ending
    have h := hrun.trans hseg
    rwa [← hseg.journal] at h

theorem Reachable.calls (h : Reachable host settings hosting w) : w.calls = [] := by
  obtain ⟨t, memory, hrun⟩ := h.run
  exact hrun.calls

/-- What holds of a new cache and is kept by every move holds of every reachable world. -/
theorem Reachable.invariant {I : World ν η μ → Prop} (h : Reachable host settings hosting w)
    (hfresh : ∀ t memory, I (World.fresh settings hosting t memory))
    (hmove : ∀ {v v' : World ν η μ}, Move 0 v v' → I v → I v') : I w := by
  obtain ⟨t, memory, hrun⟩ := h.run
  have kept : ∀ v, Moves 0 (World.fresh settings hosting t memory) v → I v := by
    intro v hv
    induction hv with
    | refl => exact hfresh t memory
    | tail _ hm ih => exact hmove hm ih
  exact kept w hrun.moves

section

variable {R : World ν η μ → World ν η μ → Prop} (still : ∀ w, R w w)
  (trans : ∀ {w v u}, R w v → R v u → R w u)
  (hturn : ∀ {α : Type} (bound : Nat) (p : Program ν η μ α) (v : World ν η μ),
    (Act.turn host bound p).Ends v fun _ v' => R v v')

include still trans hturn

/-- A path that every turn follows leads here from a new cache. -/
theorem Between.path (h : Between host settings hosting w) :
    ∃ t memory, R (World.fresh settings hosting t memory) w := by
  induction h with
  | fresh t memory => exact ⟨t, memory, still _⟩
  | turn bound p r _ hr ih =>
    obtain ⟨t, memory, hs⟩ := ih
    exact ⟨t, memory, trans hs ((hturn bound p _).of_ok hr)⟩

theorem Reachable.path (h : Reachable host settings hosting w) :
    ∃ t memory, R (World.fresh settings hosting t memory) w := by
  cases h with
  | between h => exact h.path still trans hturn
  | after bound p h =>
    obtain ⟨t, memory, hs⟩ := h.path still trans hturn
    exact ⟨t, memory, trans hs (hturn bound p _).after⟩

end

/-! ## Reading an expired entry -/

/-- Its functions use the cache while they are called. -/
def Host.reentrant : Host Nat String Unit where
  accepts _ := true
  consult _ _ memory := (.ok true, memory)
  respond
    | .expiring _ key _ _ => .perform (.get key) fun _ => .done .proceed
    | .expired _ key _ _ => .perform (.add key 2) fun _ => .done .dispose
    | .release _ key _ => .perform (.remove key) fun _ => .done ()
    | .factory .. => .done (.ok 3)
    | .defaultPolicy .. => .done none

/-- An entry expires and is read. -/
def Program.readExpired : Program Nat String Unit Unit :=
  .perform (.onExpiring "ask") fun _ =>
  .perform (.onExpired "tell") fun _ =>
  .perform (.insert "k" 1 ⟨some (.duration (.ofMillis 5) none), false⟩) fun _ =>
  .wait (.ofMillis 5) (.perform (.get "k") fun _ => .done ())

def Settings.keeping : Settings String := ⟨.ofMillis 60000, false, none, some "take"⟩

/-- The world after that read. -/
def World.expiredRead : World Nat String Unit :=
  (Act.turn .reentrant 6 .readExpired).after (.fresh .keeping .task .zero ())

theorem expiredRead_between : Between .reentrant .keeping .task World.expiredRead :=
  .turn 6 .readExpired (.ok ()) (.fresh .zero ()) rfl

end ExpiringCache
