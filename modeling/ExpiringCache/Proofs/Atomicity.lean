import ExpiringCache.Proofs.Deeds
import ExpiringCache.Proofs.Lockstep

/-!
# Panics are atomic

A panic of one of the host's functions or predicates unwinds the operation that led to it. By then the
operation has done whole deeds, each with its counters, and which ones depends only on what panicked;
nothing that was not done is left half done, and nothing that was done is taken back. No mark and no slot
stays behind, so what is done later goes as it would in any other cache that holds the same entries.
-/

namespace ExpiringCache

variable {ν η μ α : Type}

/-! ## What deeds leave -/

structure Cache.Coincides (c d : Cache ν η) : Prop where
  entries : d.entries = c.entries
  stats : d.stats = c.stats
  nextGeneration : d.nextGeneration = c.nextGeneration

namespace Cache.Coincides

variable {b c d : Cache ν η}

theorem refl (c : Cache ν η) : c.Coincides c := ⟨rfl, rfl, rfl⟩

theorem trans (h : b.Coincides c) (k : c.Coincides d) : b.Coincides d :=
  ⟨k.entries.trans h.entries, k.stats.trans h.stats, k.nextGeneration.trans h.nextGeneration⟩

theorem deed (h : c.Coincides d) (deed : Deed ν η) : (deed.on c).Coincides (deed.on d) := by
  obtain ⟨he, hs, hn⟩ := h
  cases deed <;>
    constructor <;>
    simp [Deed.on, Cache.insert, Cache.takeOut, Cache.count, Cache.drain, Cache.touch, he, hs, hn]

theorem mark (h : c.Coincides d) (b : Bool) (key : Key) (g : Nat) :
    (c.mark b key g).Coincides (d.mark b key g) := by
  obtain ⟨he, hs, hn⟩ := h
  constructor <;> simp [Cache.mark, he, hs, hn]

theorem deeds (ds : List (Deed ν η)) (h : c.Coincides d) :
    (ds.foldl (fun c deed => deed.on c) c).Coincides (ds.foldl (fun c deed => deed.on c) d) := by
  induction ds generalizing c d with
  | nil => exact h
  | cons deed ds ih => exact ih (h.deed deed)

end Cache.Coincides

def Deed.Spares (key : Key) (d : Deed ν η) : Prop := ∃ j, d.key? = some j ∧ j ≠ key

theorem Deed.Spares.find?_on {key : Key} {d : Deed ν η} (h : d.Spares key) (c : Cache ν η) :
    (d.on c).find? key = c.find? key := by
  obtain ⟨j, hj, hne⟩ := h
  have hkey : key ≠ j := hne.symm
  cases d <;> simp only [Deed.key?] at hj <;> try cases hj
  case stored => exact (Cache.find?_insert ..).trans (if_neg hkey)
  case evicted => exact (Cache.find?_takeOut ..).trans (if_neg hkey)
  case removed => exact (Cache.find?_takeOut ..).trans (if_neg hkey)
  case accessed => exact (Cache.find?_touch ..).trans (if_neg hkey)
  case vetoed => rfl
  case read => rfl

namespace Unfolds

variable {host : Host ν η μ} {invoke : Invoke ν η μ} {stop : Option (Culprit ν η)}
  {ds : List (Deed ν η)} {w v : World ν η μ}

theorem cache_of_answered {e : Entry ν η} {b : Bool} (h : Act.expired host e w = .ok b v) :
    v.cache = w.cache := ((Act.expired_inquiry host e w).of_ok h).cache

theorem cache_of_unanswered {predicate : η} {message : String}
    (h : Act.consult host predicate w.now w = .error (.panic message) v) : v.cache = w.cache :=
  ((Act.consult_idles predicate w).of_error h).1

theorem after_of_ok {x : Act ν η μ α} {a : α} (h : x w = .ok a v) : x.after w = v := by
  unfold Act.after
  rw [h]

theorem after_of_error {x : Act ν η μ α} {halt : Halt} (h : x w = .error halt v) : x.after w = v := by
  unfold Act.after
  rw [h]

theorem unmarked {key : Key} {g : Nat} {e : Entry ν η} (he : w.cache.insertion? key g = some e)
    (hp : e.pending = false) : ∀ e', w.cache.find? key = some e' → e'.pending = false := by
  intro e' he'
  rw [(Cache.insertion?_eq_some.mp he).1] at he'
  cases he'
  exact hp

/-- If the functions of the host leave the cache alone, then the deeds are all that is done to it. -/
theorem coincides (h : Unfolds host invoke stop ds w v)
    (hq : ∀ c u, ((invoke c).after u).cache = u.cache) :
    (ds.foldl (fun c deed => deed.on c) w.cache).Coincides v.cache := by
  induction h with
  | still => exact .refl _
  | trans h k ih ih' =>
    rw [List.foldl_append]
    exact (ih.deeds _).trans ih'
  | did d h => exact .refl _
  | @returned w v c a h =>
    have hv := hq c w
    rw [after_of_ok h] at hv
    rw [hv]
    exact .refl _
  | @unwound w v c message h =>
    have hv := hq c w
    rw [after_of_error h] at hv
    rw [hv]
    exact .refl _
  | answered e b h =>
    rw [cache_of_answered h]
    exact .refl _
  | unanswered predicate message h =>
    rw [cache_of_unanswered h]
    exact .refl _
  | note r => exact .refl _
  | aside f h => exact ⟨h.entries, h.stats, h.nextGeneration⟩
  | during a ha h ih => exact ih
  -- the mark was not there before, so clearing it gives back what was marked
  | @deciding stop w v key g e he hp h ih =>
    have hback := Cache.Coincides.mark ih false key g
    rwa [List.foldl_nil, World.cache_push, World.cache_change, Cache.mark_mark (unmarked he hp)] at hback
  | holding key acquired slot ha h ih =>
    refine (Cache.Coincides.deeds _ ?_).trans (ih.trans ?_)
    · exact ⟨rfl, rfl, rfl⟩
    · exact ⟨rfl, rfl, rfl⟩

/-- What no deed is about, and no function of the host does anything to, is exactly what it was. -/
theorem find?_eq (h : Unfolds host invoke stop ds w v) {key : Key} (hd : ∀ d ∈ ds, d.Spares key)
    (hq : ∀ c u, ((invoke c).after u).cache.find? key = u.cache.find? key) :
    v.cache.find? key = w.cache.find? key := by
  induction h with
  | still => rfl
  | trans h k ih ih' =>
    rw [ih' fun d hm => hd d (List.mem_append_right _ hm), ih fun d hm => hd d (List.mem_append_left _ hm)]
  | did d h => exact (hd d (List.mem_singleton_self d)).find?_on _
  | @returned w v c a h =>
    have hv := hq c w
    rwa [after_of_ok h] at hv
  | @unwound w v c message h =>
    have hv := hq c w
    rwa [after_of_error h] at hv
  | answered e b h => rw [cache_of_answered h]
  | unanswered predicate message h => rw [cache_of_unanswered h]
  | note r => rfl
  | aside f h =>
    show (Cache.find? _ key) = _
    unfold Cache.find?
    rw [World.cache_change, h.entries]
  | during a ha h ih => exact ih hd
  | @deciding stop w v j g e he hp h ih =>
    have hinner : v.cache.find? key = (w.cache.mark true j g).find? key := ih hd
    have hback : ((w.cache.mark true j g).mark false j g).find? key = w.cache.find? key := by
      rw [Cache.mark_mark (unmarked he hp)]
    show (v.cache.mark false j g).find? key = w.cache.find? key
    rw [← hback, Cache.find?_mark, Cache.find?_mark _ _ _ (w.cache.mark true j g)]
    by_cases hj : key = j
    · subst hj
      rw [hinner]
    · rw [if_neg hj, if_neg hj, hinner]
  | holding j acquired slot ha h ih => exact ih hd

end Unfolds

/-- Nothing that `x` has is taken back in `v`: at most marks were cleared, slots given up and work in progress
ended. -/
structure World.Lasts (x v : World ν η μ) : Prop where
  now : v.now = x.now
  memory : v.memory = x.memory
  stats : v.cache.stats = x.cache.stats
  nextGeneration : v.cache.nextGeneration = x.cache.nextGeneration
  expiring : v.cache.expiring = x.cache.expiring
  expired : v.cache.expired = x.cache.expired
  timer : v.cache.timer = x.cache.timer
  handle : v.cache.handle = x.cache.handle
  entries : ∀ key, v.cache.find? key = x.cache.find? key ∨
    ∃ e, x.cache.find? key = some e ∧ v.cache.find? key = some { e with pending := false }

namespace World.Lasts

variable {x v : World ν η μ}

theorem refl (x : World ν η μ) : x.Lasts x :=
  ⟨rfl, rfl, rfl, rfl, rfl, rfl, rfl, rfl, fun _ => Or.inl rfl⟩

theorem pop (h : x.Lasts v) : x.Lasts v.pop := { h with }

theorem unmark (h : x.Lasts v) (key : Key) (g : Nat) : x.Lasts (v.change (.mark false key g)) := by
  refine { h with entries := fun j => ?_ }
  rw [World.cache_change, Cache.find?_mark]
  by_cases hj : j = key
  · subst hj
    rw [if_pos rfl]
    rcases h.entries j with hx | ⟨e, he, hv⟩
    · rw [hx]
      cases he : x.cache.find? j with
      | none => exact Or.inl rfl
      | some e =>
        rw [Option.map_some]
        by_cases hg : e.generation = g
        · rw [if_pos hg]
          exact Or.inr ⟨e, rfl, rfl⟩
        · rw [if_neg hg]
          exact Or.inl rfl
    · refine Or.inr ⟨e, he, ?_⟩
      rw [hv, Option.map_some]
      by_cases hg : e.generation = g <;> simp [hg]
  · rw [if_neg hj]
    exact h.entries j

theorem dismiss (h : x.Lasts v) (key : Key) (slot : Nat) :
    x.Lasts (v.change fun c => { c with admission := c.admission.release key slot }) := { h with }

end World.Lasts

theorem Unfolds.lasts {host : Host ν η μ} {invoke : Invoke ν η μ} {c : Callback ν η}
    {ds : List (Deed ν η)} {w v : World ν η μ}
    (h : Unfolds host invoke (some (.callback c)) ds w v) :
    ∃ u x message, invoke c u = .error (.panic message) x ∧ x.Lasts v := by
  generalize hstop : some (Culprit.callback c) = stop at h
  -- only the call that unwound can begin it, and each bracket around it clears what it had set
  induction h with
  | trans h k ih ih' => exact ih' hstop
  | @unwound w v c' message h =>
    cases hstop
    exact ⟨w, v, message, h, .refl v⟩
  | during a ha h ih =>
    obtain ⟨u, x, message, hx, hv⟩ := ih hstop
    exact ⟨u, x, message, hx, hv.pop⟩
  | deciding key g e he hp h ih =>
    obtain ⟨u, x, message, hx, hv⟩ := ih hstop
    exact ⟨u, x, message, hx, (hv.unmark key g).pop⟩
  | holding key acquired slot ha h ih =>
    obtain ⟨u, x, message, hx, hv⟩ := ih hstop
    exact ⟨u, x, message, hx, (hv.dismiss key slot).pop⟩
  | _ => cases hstop

/-! ## The result -/

/-- What panics leave of a cache, with functions of the host nested at most `depth` deep. -/
structure Host.Atomic (host : Host ν η μ) (depth : Nat) : Prop where
  -- an operation does whole deeds: if it panics, those that go with what panicked, and if it returns,
  -- nothing has panicked
  operation : ∀ (op : Operation ν η) (w : World ν η μ), (Act.perform host (depth + 1) op).Ends w
    fun r v => if w.cache.handle = .held then op.Concludes host (Act.call host depth) w r v
      else r = .ok (Act.afterDrop op) ∧ v = w
  -- so does a tick of the timer
  tick : ∀ w : World ν η μ, (Act.tick host (Act.call host depth)).Ends w
    (Fares host (Act.call host depth) w (fun _ _ => True) SweepStops)
  -- an entry that no deed is about is exactly what it was, if the functions of the host do nothing to it
  entry : ∀ (stop : Option (Culprit ν η)) (ds : List (Deed ν η)) (w v : World ν η μ) (key : Key),
    Unfolds host (Act.call host depth) stop ds w v → (∀ d ∈ ds, d.Spares key) →
      (∀ c u, ((Act.call host depth c).after u).cache.find? key = u.cache.find? key) →
        v.cache.find? key = w.cache.find? key
  -- the deeds are all that becomes of the entries and the counters, if the functions of the host do
  -- nothing to the cache
  deeds : ∀ (stop : Option (Culprit ν η)) (ds : List (Deed ν η)) (w v : World ν η μ),
    Unfolds host (Act.call host depth) stop ds w v →
      (∀ c u, ((Act.call host depth c).after u).cache = u.cache) →
        (ds.foldl (fun c d => d.on c) w.cache).Coincides v.cache
  -- what a function of the host did before it panicked stays
  callback : ∀ (c : Callback ν η) (ds : List (Deed ν η)) (w v : World ν η μ),
    Unfolds host (Act.call host depth) (some (.callback c)) ds w v →
      ∃ u x message, Act.call host depth c u = .error (.panic message) x ∧ x.Lasts v
  -- however an operation ends, the marks are those of the decisions in progress and the slots those of
  -- the fetches in progress, as they were before
  clean : ∀ (op : Operation ν η) (w : World ν η μ), Sound w.calls w.cache →
    ((Act.perform host depth op).after w).calls = w.calls ∧
      Sound w.calls ((Act.perform host depth op).after w).cache
  -- what is done later goes the same in worlds that hold the same, however they came to it
  later : ∀ (w w' : World ν η μ), Sound w.calls w.cache → Sound w'.calls w'.cache → w.Matches w' →
    host.Only (Operation.Discreet w.cache.stats w'.cache.stats) →
      ∀ {α : Type} (p : Program ν η μ α), p.Only (Operation.Discreet w.cache.stats w'.cache.stats) →
        (p.run (Act.perform host depth)).Ends w fun r v =>
          (p.run (Act.perform host depth)).Ends w' fun r' v' => r' = r ∧ v.Matches v' ∧
            Stats.Abreast w.cache.stats w'.cache.stats v.cache.stats v'.cache.stats

/-- Two runs that go in step end with the same result, and in worlds that hold the same. -/
theorem Act.Agree.matches {ρ : Pairing} {s s' : Stats} {x : Act ν η μ α} {w w' : World ν η μ}
    (h : Act.Agree ρ s s' x x w w') : x.Ends w fun r v => x.Ends w' fun r' v' => r' = r ∧ v.Matches v' ∧
      Stats.Abreast s s' v.cache.stats v'.cache.stats := by
  refine Ends.mono h fun r v hx => hx.mono fun r' v' ht => ?_
  match r, r', ht with
  | .ok a, .ok _, ⟨σ, _, hv, _, _, rfl⟩ => exact ⟨rfl, hv.matches, hv.cache.counters⟩
  | .error halt, .error _, ⟨rfl, σ, _, hv, _, _⟩ => exact ⟨rfl, hv.matches, hv.cache.counters⟩

theorem panics_are_atomic (host : Host ν η μ) (depth : Nat) : host.Atomic depth where
  operation := Act.perform_concludes host depth
  tick := Act.tick_fares
  entry stop ds w v key h := h.find?_eq
  deeds stop ds w v h := h.coincides
  callback c ds w v h := h.lasts
  clean op w h := by
    obtain ⟨seg, hrun⟩ := (Act.perform_performs host depth op w 0 (Nat.zero_le _)).ending
    have hsound := hrun.moves.sound h
    rw [hrun.calls] at hsound
    exact ⟨hrun.calls, hsound⟩
  later w w' hw hw' hm hhost α p hp := by
    obtain ⟨ρ, hρ⟩ := hm.alike hw hw'
    exact (Act.run_agree (Act.perform_agree hhost depth) p hp hρ).matches

/-! ## A guard that panics -/

/-- Its guards, its predicates and its factories panic. -/
def Host.panicking : Host Nat String Unit where
  accepts _ := true
  consult _ _ memory := (.error "broken", memory)
  respond
    | .expiring .. => .panic "guard"
    | .expired .. => .done .dispose
    | .release .. => .done ()
    | .factory .. => .panic "none"
    | .defaultPolicy .. => .done none

theorem panicking_is_discreet (s s' : Stats) : Host.panicking.Only (Operation.Discreet s s') := by
  intro c
  cases c <;> trivial

/-- An entry outlives its time because the guard panics. -/
def Program.panickedRead : Program Nat String Unit Unit :=
  .perform (.onExpiring "guard") fun _ =>
  .perform (.insert "k" 1 ⟨some (.duration (.ofMillis 5) none), false⟩) fun _ =>
  .wait (.ofMillis 5) (.perform (.get "k") fun _ => .done ())

/-- The same entry, which came to be there in another way. -/
def Program.overwritten : Program Nat String Unit Unit :=
  .perform (.onExpiring "guard") fun _ =>
  .perform (.insert "k" 0 ⟨none, false⟩) fun _ =>
  .perform (.insert "k" 1 ⟨some (.duration (.ofMillis 5) none), true⟩) fun _ =>
  .wait (.ofMillis 5) (.done ())

def World.panickedRead : World Nat String Unit :=
  (Act.turn .panicking 6 .panickedRead).after (.fresh .keeping .task .zero ())

def World.overwritten : World Nat String Unit :=
  (Act.turn .panicking 6 .overwritten).after (.fresh .keeping .task .zero ())

theorem panickedRead_between : Between .panicking .keeping .task World.panickedRead :=
  .turn 6 .panickedRead (.ok ()) (.fresh .zero ()) rfl

theorem overwritten_between : Between .panicking .keeping .task World.overwritten :=
  .turn 6 .overwritten (.ok ()) (.fresh .zero ()) rfl

theorem panickedRead_matches_overwritten : World.panickedRead.Matches World.overwritten where
  now := by decide +kernel
  memory := rfl
  calls := by decide +kernel
  settings := by decide +kernel
  expiring := by decide +kernel
  expired := by decide +kernel
  handle := by decide +kernel
  rows := by decide +kernel

/-- Once more the guard panics. The entry stays as it is and nothing is counted, and the same would have
happened if it had not panicked before. -/
theorem panicked_read_panics_again :
    ((Act.perform .panicking 6 (.get "k")).Ends World.panickedRead fun r v => r = .error (.panic "guard") ∧
      (.get "k" : Operation Nat String).Unwinds .panicking (Act.call .panicking 5) World.panickedRead v) ∧
    ((Act.perform .panicking 6 (.get "k")).after World.panickedRead).calls = [] ∧
    ((Program.attempt (.get "k")).run (Act.perform .panicking 6)).Ends World.panickedRead fun r v =>
      ((Program.attempt (.get "k")).run (Act.perform .panicking 6)).Ends World.overwritten fun r' v' =>
        r' = r ∧ v.Matches v' ∧ Stats.Abreast World.panickedRead.cache.stats World.overwritten.cache.stats
          v.cache.stats v'.cache.stats := by
  have hsound := (Reachable.between panickedRead_between).sound.1
  have hsound' := (Reachable.between overwritten_between).sound.1
  have hatomic := panics_are_atomic Host.panicking 6
  refine ⟨?_, ?_, ?_⟩
  · have hpanic : (Act.perform .panicking 6 (.get "k")).Ends World.panickedRead fun r _ =>
        r = .error (.panic "guard") := rfl
    have hends := (panics_are_atomic Host.panicking 5).operation (.get "k") World.panickedRead
    apply (hpanic.and hends).mono
    rintro r v ⟨rfl, hv⟩
    rw [if_pos (by decide +kernel)] at hv
    exact ⟨rfl, hv⟩
  · rw [(hatomic.clean (.get "k") World.panickedRead hsound).1]
    exact (Reachable.between panickedRead_between).calls
  · exact hatomic.later World.panickedRead World.overwritten hsound hsound'
      panickedRead_matches_overwritten
      (panicking_is_discreet _ _) (Program.attempt (.get "k")) ⟨trivial, fun _ => trivial⟩

/-- Neither of the two panics was counted. -/
example : ((Act.perform .panicking 6 (.get "k")).after World.panickedRead).cache.stats =
    Stats.empty.withTotal 1 := by decide +kernel

end ExpiringCache
