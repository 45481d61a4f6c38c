import ExpiringCache.Proofs.Paths
import ExpiringCache.Proofs.Reachability

/-!
# Stretches of work

A stretch leads from the beginning of some work to its end, however it ends. It says what the
counters do: what is counted is counted together with the change or the line it belongs to, and a
round of handlers that was answered is followed at once by what it comes to. Work in progress stands
around the stretch it encloses. Everything the engine does is a stretch, without any assumption on
the world it begins in.
-/

namespace ExpiringCache

variable {ν η μ α β : Type}

inductive Stretch : World ν η μ → World ν η μ → Prop
  | still {w : World ν η μ} : Stretch w w
  | trans {w v u : World ν η μ} (h : Stretch w v) (k : Stretch v u) : Stretch w u
  | clock {w : World ν η μ} (t : Instant) (h : w.now ≤ t) : Stretch w { w with now := t }
  | memory {w : World ν η μ} (m : μ) : Stretch w { w with memory := m }
  | note {w : World ν η μ} (r : Record ν η) (hr : r.isRemark = true) : Stretch w (w.note r)
  | aside {w : World ν η μ} (f : Cache ν η → Cache ν η) (h : w.cache.Aside (f w.cache)) :
      Stretch w (w.change f)
  | touch {w : World ν η μ} (key : Key) : Stretch w (w.change (.touch w.now key))
  | read {w : World ν η μ} (key : Key) (found : Bool) : Stretch w
      ((w.change (.count fun s => if found then s.hit else s.miss)).note (.read key found))
  | place {w : World ν η μ} (key : Key) (value : ν) (policy : Option (Policy η)) :
      Stretch w (w.placed key value policy)
  | remove {w : World ν η μ} (key : Key) (e : Entry ν η) (h : w.cache.find? key = some e) :
      Stretch w ((w.change (.takeOut key (.removed 1))).note
        (.left e.generation key e.value .removed))
  | empty {w : World ν η μ} : Stretch w w.emptied
  | vetoed {w : World ν η μ} (g : Nat) (key : Key) (value : ν) (answers : List Decision)
      (h : Decision.cancel ∈ answers) :
      Stretch w ((w.note (.decided g key value answers)).change (.count .cancellation))
  | concluded {w v : World ν η μ} (g : Nat) (key : Key) (value : ν) (answers : List Decision)
      (u : Upshot) (h : Decision.cancel ∉ answers)
      (hv : (w.note (.decided g key value answers)).Commits key g u v) : Stretch w v
  | during {w v : World ν η μ} (a : Activity ν η) (ha : a.isPlain = true)
      (h : Stretch (w.push a) v) : Stretch w v.pop
  | deciding {w v : World ν η μ} (key : Key) (g : Nat) (e : Entry ν η)
      (he : w.cache.insertion? key g = some e) (hp : e.pending = false)
      (h : Stretch ((w.change (.mark true key g)).push (.deciding key g)) v) :
      Stretch w ((v.change (.mark false key g)).pop)
  | holding {w v : World ν η μ} (key : Key) (acquired : Admission) (slot : Nat)
      (ha : w.cache.admission.acquire? key = some (acquired, slot))
      (h : Stretch ((w.change ({ · with admission := acquired })).push (.fetching key slot)) v) :
      Stretch w ((v.change fun c => { c with admission := c.admission.release key slot }).pop)

namespace Stretch

variable {w v : World ν η μ}

theorem asks {policy : Policy η} {answer : Option Bool} (h : w.Asks policy answer v) :
    Stretch w v := by
  cases h with
  | timed => exact .still
  | custom predicate answer m => exact (Stretch.memory m).trans (.note _ rfl)

/-- A stretch comes back to the work in progress it began with. -/
theorem calls (h : Stretch w v) : v.calls = w.calls := by
  induction h with
  | trans _ _ ih ih' => exact ih'.trans ih
  | place key value policy => exact World.calls_placed ..
  | empty => rw [World.emptied_eq]; rfl
  | concluded g key value answers u h hv =>
    cases hv with
    | stale hx => exact hx.calls
    | unwound hx => exact hx.calls
    | evicted e he hx => exact hx.calls
  | during a ha h ih => rw [World.calls_pop, ih]; rfl
  | deciding key g e he hp h ih => rw [World.calls_pop, World.calls_change, ih]; rfl
  | holding key acquired slot ha h ih => rw [World.calls_pop, World.calls_change, ih]; rfl
  | _ => rfl

theorem settings (h : Stretch w v) : v.cache.settings = w.cache.settings := by
  induction h with
  | trans _ _ ih ih' => exact ih'.trans ih
  | aside f hf => exact hf.settings
  | place key value policy => rw [World.cache_placed]; rfl
  | empty => rw [World.emptied_eq]; rfl
  | concluded g key value answers u h hv =>
    cases hv with
    | stale hx => rw [hx.cache]; rfl
    | unwound hx => rw [hx.cache]; rfl
    | evicted e he hx =>
      have hsame := congrArg Cache.settings hx.cache
      exact hsame
  | during a ha h ih => exact ih
  | deciding key g e he hp h ih => exact ih
  | holding key acquired slot ha h ih => exact ih
  | _ => rfl

/-- What a stretch writes, it writes inside the work it began in. -/
theorem segment (h : Stretch w v) :
    ∃ seg, v.journal = seg ++ w.journal ∧ ∀ l ∈ seg, w.calls <:+ l.calls := by
  have here : ∀ {w : World ν η μ} {seg : List (Line ν η)}, (∀ l ∈ seg, l.calls = w.calls) →
      ∀ l ∈ seg, w.calls <:+ l.calls := by
    intro w seg hseg l hl
    exact ⟨[], (hseg l hl).symm⟩
  have outside : ∀ {a : Activity ν η} {calls : List (Activity ν η)} {seg : List (Line ν η)},
      (∀ l ∈ seg, a :: calls <:+ l.calls) → ∀ l ∈ seg, calls <:+ l.calls :=
    fun hseg l hl => (List.suffix_cons _ _).trans (hseg l hl)
  induction h with
  | trans h _ ih ih' =>
    obtain ⟨old, hold, ho⟩ := ih
    obtain ⟨new, hnew, hn⟩ := ih'
    refine ⟨new ++ old, ?_, ?_⟩
    · rw [hnew, hold, List.append_assoc]
    · rw [h.calls] at hn
      exact fun l hl => (List.mem_append.mp hl).elim (hn l) (ho l)
  | note r => exact ⟨[_], rfl, here (by simp)⟩
  | read key found => exact ⟨[_], rfl, here (by simp)⟩
  | place key value policy =>
    refine ⟨_, World.journal_placed .., here ?_⟩
    exact World.calls_of_mem_placedLines
  | remove => exact ⟨[_], rfl, here (by simp)⟩
  | @empty w =>
    refine ⟨(w.change .drain).clearedLines w.cache.entries.rows, ?_, here ?_⟩
    · rw [World.emptied_eq]
    · intro l hl
      obtain ⟨r, -, rfl⟩ := List.mem_map.mp (List.mem_reverse.mp hl)
      rfl
  | vetoed => exact ⟨[_], rfl, here (by simp)⟩
  | @concluded w v g key value answers u h hv =>
    obtain ⟨new, hnew, hn⟩ := hv.lines
    refine ⟨new ++ [w.line (.decided g key value answers)], ?_, here ?_⟩
    · rw [hnew, List.append_assoc]
      rfl
    · intro l hl
      rcases List.mem_append.mp hl with hl | hl
      · exact hn l hl
      · rw [List.mem_singleton.mp hl]
        rfl
  | during a ha h ih =>
    obtain ⟨seg, hj, hseg⟩ := ih
    exact ⟨seg, hj, outside hseg⟩
  | deciding key g e he hp h ih =>
    obtain ⟨seg, hj, hseg⟩ := ih
    exact ⟨seg, hj, outside hseg⟩
  | holding key acquired slot ha h ih =>
    obtain ⟨seg, hj, hseg⟩ := ih
    exact ⟨seg, hj, outside hseg⟩
  | _ => exact ⟨[], rfl, here (by simp)⟩

theorem suffix (h : Stretch w v) : w.journal <:+ v.journal := by
  obtain ⟨seg, hj, -⟩ := h.segment
  exact ⟨seg, hj.symm⟩

/-- Stretches are the paths on which anything may be stored or taken out. -/
theorem paths : Paths (Stretch : World ν η μ → World ν η μ → Prop) (fun _ => True) where
  still _ := .still
  trans := .trans
  memory := .memory
  note r hr _ := .note r hr
  retune f h := .aside f h.toAside
  touch key _ _ _ := .touch key
  read := .read
  vetoed := .vetoed
  concluded g key value answers u h _ hv := .concluded g key value answers u h hv
  close _ := (Stretch.aside (fun c => { c.setTimer none with handle := .closed })
    ⟨rfl, rfl, rfl, rfl, rfl⟩).trans .empty
  during := .during
  deciding key g e he hp _ h := .deciding key g e he hp h
  holding := .holding

theorem elapsed (span : Span) (w : World ν η μ) :
    Stretch w { w with now := w.now.advance span } := .clock _ (w.now.le_advance span)

theorem scheduled (timer : Option Timer) (w : World ν η μ) :
    Stretch w (w.change (.setTimer timer)) := .aside _ ⟨rfl, rfl, rfl, rfl, rfl⟩

theorem permits (host : Host ν η μ) (op : Operation ν η) :
    Permits host Stretch (fun _ => True) op :=
  Paths.permits (fun key _ _ value policy => .place key value policy)
    (fun key _ e he => .remove key e he) (fun _ => .empty)
    (fun _ => .aside _ ⟨rfl, rfl, rfl, rfl, rfl⟩) op

theorem governs (host : Host ν η μ) : Act.Governs host Stretch :=
  ⟨paths, elapsed, scheduled, fun op => Act.Permits.admits paths (permits host op)⟩

end Stretch

namespace Act

def Stretches (x : Act ν η μ α) : Prop := ∀ w, x.Ends w fun _ w' => Stretch w w'

variable {host : Host ν η μ} {invoke : Invoke ν η μ}

theorem askExpiring_stretches (hi : ∀ c, (invoke c).Stretches) (g : Nat) (key : Key) (value : ν)
    (policy : Policy η) : (askExpiring invoke g key value policy).Stretches :=
  askExpiring_follows Stretch.paths (fun c _ => hi c) g key value policy

theorem tellExpired_stretches (hi : ∀ c, (invoke c).Stretches) (g : Nat) (key : Key) (value : ν)
    (initial : Disposal) : (tellExpired invoke g key value initial).Stretches :=
  tellExpired_follows Stretch.paths (fun c _ => hi c) g key value initial

theorem run_stretches (host : Host ν η μ) (depth : Nat) (p : Program ν η μ α) :
    (p.run (perform host depth)).Stretches := (Stretch.governs host).run depth p

theorem call_stretches (host : Host ν η μ) (depth : Nat) (c : Callback ν η) :
    (call host depth c).Stretches := (Stretch.governs host).call depth c

theorem settle_stretches (host : Host ν η μ) (bound : Nat) : (settle host bound).Stretches :=
  (Stretch.governs host).settle bound

end Act

variable {host : Host ν η μ} {settings : Settings η} {hosting : Hosting} {w : World ν η μ}

theorem Reachable.stretch (h : Reachable host settings hosting w) :
    ∃ t memory, Stretch (World.fresh settings hosting t memory) w :=
  h.path (fun _ => .still) .trans fun bound p => (Stretch.governs host).turn bound p

theorem Between.stretch (h : Between host settings hosting w) :
    ∃ t memory, Stretch (World.fresh settings hosting t memory) w := (Reachable.between h).stretch

end ExpiringCache
