import ExpiringCache.Proofs.Beats
import ExpiringCache.Proofs.Inheritance
import ExpiringCache.Proofs.Paths

/-!
# The closing of a cache

A cache that its owner has given up is closed as soon as no operation runs on it, and then it has no
timer. Nor does it get another: an operation begins on a cache that is held, and while one runs nobody
closes the cache. So after every program of the owner and after every tick a cache that is not held is
a cache without a timer.
-/

namespace ExpiringCache

variable {ν η μ α : Type}

/-! ## While an operation runs -/

/-- What is in progress is so still, a cache that was given up is not held again, and nobody has closed
one under an operation. -/
structure World.StaysOpen (w v : World ν η μ) : Prop where
  calls : v.calls = w.calls
  held : v.cache.handle = .held → w.cache.handle = .held
  opened : w.busy = true → w.cache.handle ≠ .closed → v.cache.handle ≠ .closed

namespace World.StaysOpen

variable {w w' v v' u : World ν η μ}

theorem of_same (hc : v.calls = w.calls) (hh : v.cache.handle = w.cache.handle) : w.StaysOpen v :=
  ⟨hc, fun h => hh ▸ h, fun _ h => hh ▸ h⟩

theorem trans (h : w.StaysOpen v) (k : v.StaysOpen u) : w.StaysOpen u := by
  have hbusy : v.busy = w.busy := by rw [busy, h.calls, busy]
  exact ⟨k.calls.trans h.calls, fun hu => h.held (k.held hu),
    fun hb hw => k.opened (hbusy.trans hb) (h.opened hb hw)⟩

theorem around {a : Activity ν η} (h : w'.StaysOpen v) (hc : w'.calls = a :: w.calls)
    (hh : w'.cache.handle = w.cache.handle) (hc' : v'.calls = v.calls.tail)
    (hh' : v'.cache.handle = v.cache.handle) : w.StaysOpen v' := by
  refine ⟨by rw [hc', h.calls, hc]; rfl, fun hv => hh ▸ h.held (hh' ▸ hv), fun hb hw => ?_⟩
  rw [hh']
  refine h.opened ?_ (hh ▸ hw)
  rw [busy, hc, List.any_cons]
  exact Bool.or_eq_true_iff.mpr (Or.inr hb)

theorem emptied (w : World ν η μ) : w.StaysOpen w.emptied := by
  rw [World.emptied_eq]
  exact .of_same rfl rfl

theorem paths : Paths (StaysOpen : World ν η μ → World ν η μ → Prop) (fun _ => True) where
  still _ := .of_same rfl rfl
  trans := .trans
  memory _ := .of_same rfl rfl
  note _ _ _ := .of_same rfl rfl
  retune _ h := .of_same rfl h.handle
  touch _ _ _ _ := .of_same rfl rfl
  read _ _ := .of_same rfl rfl
  vetoed _ _ _ _ _ := .of_same rfl rfl
  concluded _ _ _ _ _ _ _ h := .of_same h.keeps.2.1 h.keeps.2.2.1
  close {w} h := by
    have hclosed := emptied (w.change fun c => { c.setTimer none with handle := .closed })
    refine ⟨hclosed.calls, fun hv => absurd (hclosed.held hv) nofun, fun hb => ?_⟩
    rw [h.2] at hb
    cases hb
  during _ _ h := h.around rfl rfl rfl rfl
  deciding _ _ _ _ _ _ h := h.around rfl rfl rfl rfl
  holding _ _ _ _ h := h.around rfl rfl rfl rfl

theorem placed (key : Key) (value : ν) (policy : Option (Policy η)) (w : World ν η μ) :
    w.StaysOpen (w.placed key value policy) := by
  refine .of_same (w.calls_placed key value policy) ?_
  rw [w.cache_placed key value policy]
  rfl

theorem governs (host : Host ν η μ) : Act.Governs host (StaysOpen : World ν η μ → _ → Prop) where
  paths := paths
  elapsed _ _ := .of_same rfl rfl
  scheduled _ _ := .of_same rfl rfl
  admits := paths.admits (fun key _ w value policy => placed key value policy w)
    (fun _ _ _ _ => .of_same rfl rfl) emptied fun _ => ⟨rfl, nofun, fun _ _ => nofun⟩

end World.StaysOpen

/-! ## At the end of work -/

/-- A cache that was given up has an operation to close it, and a closed one has no timer. -/
structure World.ClosesInTime (w : World ν η μ) : Prop where
  givenUp : w.cache.handle = .givenUp → w.busy = true
  closed : w.cache.handle = .closed → w.cache.timer = none

namespace World.ClosesInTime

variable {w v : World ν η μ}

theorem of_held (h : w.cache.handle = .held) : w.ClosesInTime :=
  ⟨fun hg => absurd (h.symm.trans hg) nofun, fun hg => absurd (h.symm.trans hg) nofun⟩

theorem of_same (h : w.ClosesInTime) (hc : v.calls = w.calls)
    (hh : v.cache.handle = w.cache.handle) (ht : v.cache.timer = w.cache.timer) : v.ClosesInTime := by
  refine ⟨fun hg => ?_, fun hg => ht.trans (h.closed (hh ▸ hg))⟩
  rw [busy, hc]
  exact h.givenUp (hh ▸ hg)

end World.ClosesInTime

namespace Act

/-- The work leaves behind a cache that closes in time, unless it is cut short. -/
def ClosesInTime (x : Act ν η μ α) : Prop :=
  ∀ w : World ν η μ, w.ClosesInTime → x.Ends w fun r v =>
    v.calls = w.calls ∧ (r ≠ .error .exhausted → v.ClosesInTime)

namespace ClosesInTime

theorem modify {t : World ν η μ → World ν η μ} (hc : ∀ w, (t w).calls = w.calls)
    (hh : ∀ w, (t w).cache.handle = w.cache.handle) (ht : ∀ w, (t w).cache.timer = w.cache.timer) :
    (modify t : Act ν η μ Unit).ClosesInTime :=
  fun w hw => ⟨hc w, fun _ => hw.of_same (hc w) (hh w) (ht w)⟩

theorem throw (halt : Halt) : (throw halt : Act ν η μ α).ClosesInTime := fun _ hw => ⟨rfl, fun _ => hw⟩

theorem attempt {x : Act ν η μ α} (h : x.ClosesInTime) : (attempt x).ClosesInTime := by
  intro w hw
  refine ends_attempt ((h w hw).mono ?_)
  rintro r v ⟨hc, hv⟩
  refine ⟨hc, fun hne => hv ?_⟩
  rintro rfl
  exact hne rfl

theorem bracket {x : Act ν η μ α} {a : Activity ν η} {f g : Cache ν η → Cache ν η}
    (ha : a.isOperation = false) (hf : ∀ c, (f c).handle = c.handle ∧ (f c).timer = c.timer)
    (hg : ∀ c, (g c).handle = c.handle ∧ (g c).timer = c.timer) (h : x.ClosesInTime) :
    (bracket (fun w => (w.change f).push a) (fun w => (w.change g).pop) x).ClosesInTime := by
  intro w hw
  have hbusy : (((w.change f).push a).busy) = w.busy := by
    rw [World.busy, World.calls_push, List.any_cons, ha, Bool.false_or]
    rfl
  have hin : ((w.change f).push a).ClosesInTime :=
    ⟨fun hg => hbusy.trans (hw.givenUp ((hf w.cache).1 ▸ hg)),
      fun hg => (hf w.cache).2.trans (hw.closed ((hf w.cache).1 ▸ hg))⟩
  refine ends_bracket ((h _ hin).mono ?_)
  rintro r v ⟨hc, hv⟩
  have hout : ((v.change g).pop).calls = w.calls := by
    show v.calls.tail = w.calls
    rw [hc]
    rfl
  refine ⟨hout, fun hne => ⟨fun hgone => ?_, fun hgone => ?_⟩⟩
  · rw [World.busy, hout, ← World.busy, ← hbusy, World.busy, ← hc]
    exact (hv hne).givenUp ((hg v.cache).1 ▸ hgone)
  · exact (hg v.cache).2.trans ((hv hne).closed ((hg v.cache).1 ▸ hgone))

theorem woven (host : Host ν η μ) : Woven host ClosesInTime where
  pure _ _ hw := ⟨rfl, fun _ => hw⟩
  bind hx hf w hw := by
    refine (hx w hw).bind ?_ ?_
    · rintro a v ⟨hc, hv⟩
      refine (hf a v (hv nofun)).mono ?_
      rintro r u ⟨hcu, hu⟩
      exact ⟨hcu.trans hc, hu⟩
    · rintro e v ⟨hc, hv⟩
      refine ⟨hc, fun hne => hv ?_⟩
      rintro ⟨⟩
      exact hne rfl
  get _ hg w hw := hg w w hw
  consult _ _ _ hw := ends_consult (fun _ _ => ⟨rfl, fun _ => hw.of_same rfl rfl rfl⟩)
    fun _ _ => ⟨rfl, fun _ => hw.of_same rfl rfl rfl⟩
  change _ hk := modify (fun _ => rfl) (fun w => (hk w.cache).1) fun w => (hk w.cache).2
  note _ _ := modify (fun _ => rfl) (fun _ => rfl) fun _ => rfl
  during _ _ ha hx := hx.bracket ha (fun _ => ⟨rfl, rfl⟩) fun _ => ⟨rfl, rfl⟩
  deciding _ _ hx := hx.bracket rfl (fun _ => ⟨rfl, rfl⟩) fun _ => ⟨rfl, rfl⟩

end ClosesInTime

variable {host : Host ν η μ} {invoke : Invoke ν η μ} {w v : World ν η μ}

end Act

/-! ## Sessions -/

end ExpiringCache
