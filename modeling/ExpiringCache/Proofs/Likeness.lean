import ExpiringCache.Proofs.Representation
import Mathlib.Data.List.Forall2
import Mathlib.Data.List.Nodup

/-!
# Likeness

Two caches can hold the same without being equal: insertions are numbered by when they came, slots by when
they were made, and the counters and the timer tell of what is long over. Here two worlds are alike if they
agree on everything else. A list of pairs says which insertion of one world is which of the other; it
pairs one with one only, and grows when both store something new.
-/

namespace ExpiringCache

variable {ν η μ : Type}

/-- Each counter has grown as much from `s` to `t` as from `s'` to `t'`. -/
structure Stats.Abreast (s s' t t' : Stats) : Prop where
  hits : t.hits + s'.hits = t'.hits + s.hits
  misses : t.misses + s'.misses = t'.misses + s.misses
  expirations : t.expirations + s'.expirations = t'.expirations + s.expirations
  cancelled : t.cancelled + s'.cancelled = t'.cancelled + s.cancelled
  removals : t.removals + s'.removals = t'.removals + s.removals

namespace Stats.Abreast

variable {s s' t t' : Stats}

theorem refl (s s' : Stats) : Abreast s s' s s' :=
  ⟨Nat.add_comm .., Nat.add_comm .., Nat.add_comm .., Nat.add_comm .., Nat.add_comm ..⟩

theorem withTotal (h : Abreast s s' t t') (n n' : Nat) :
    Abreast s s' (t.withTotal n) (t'.withTotal n') :=
  ⟨h.hits, h.misses, h.expirations, h.cancelled, h.removals⟩

/-- Counters that began equal are equal. -/
theorem withTotal_eq (h : Abreast s s t t') (n : Nat) : t'.withTotal n = t.withTotal n := by
  obtain ⟨h1, h2, h3, h4, h5⟩ := h
  unfold Stats.withTotal
  congr 1 <;> omega

end Stats.Abreast

/-- A change of the counters that adds the same to each wherever it starts from. -/
def Stats.Steady (f : Stats → Stats) : Prop :=
  ∀ s s' t t' : Stats, Abreast s s' t t' → Abreast s s' (f t) (f t')

namespace Stats.Steady

theorem hit : Steady Stats.hit := fun _ _ _ _ h =>
  ⟨by have := h.hits; simp only [Stats.hit]; omega, h.misses, h.expirations, h.cancelled, h.removals⟩

theorem miss : Steady Stats.miss := fun _ _ _ _ h =>
  ⟨h.hits, by have := h.misses; simp only [Stats.miss]; omega, h.expirations, h.cancelled, h.removals⟩

theorem expiration : Steady Stats.expiration := fun _ _ _ _ h =>
  ⟨h.hits, h.misses, by have := h.expirations; simp only [Stats.expiration]; omega, h.cancelled,
    h.removals⟩

theorem cancellation : Steady Stats.cancellation := fun _ _ _ _ h =>
  ⟨h.hits, h.misses, h.expirations, by have := h.cancelled; simp only [Stats.cancellation]; omega,
    h.removals⟩

theorem removed (n : Nat) : Steady (Stats.removed n) := fun _ _ _ _ h =>
  ⟨h.hits, h.misses, h.expirations, h.cancelled,
    by have := h.removals; simp only [Stats.removed]; omega⟩

end Stats.Steady

/-- Pairs of insertions, by their numbers in two caches. -/
abbrev Pairing := List (Nat × Nat)

/-- Nothing is paired twice. -/
def Pairing.Faithful (ρ : Pairing) : Prop := ∀ p ∈ ρ, ∀ q ∈ ρ, p.1 = q.1 ↔ p.2 = q.2

/-- The same entry, but for its number. -/
structure Entry.Alike (ρ : Pairing) (e e' : Entry ν η) : Prop where
  value : e'.value = e.value
  policy : e'.policy = e.policy
  createdAt : e'.createdAt = e.createdAt
  lastAccessedAt : e'.lastAccessedAt = e.lastAccessedAt
  pending : e'.pending = e.pending
  paired : (e.generation, e'.generation) ∈ ρ

namespace Entry.Alike

variable {ρ σ : Pairing} {e e' : Entry ν η}

theorem mono (hs : ρ ⊆ σ) (h : e.Alike ρ e') : e.Alike σ e' := { h with paired := hs h.paired }

theorem touch (h : e.Alike ρ e') (t : Instant) : (e.touch t).Alike ρ (e'.touch t) where
  value := h.value
  policy := congrArg (Option.map fun p : Policy η => p.accessed t) h.policy
  createdAt := h.createdAt
  lastAccessedAt := rfl
  pending := h.pending
  paired := h.paired

/-- Alike entries bear paired numbers or neither does. -/
theorem generation_eq_iff (hf : ρ.Faithful) (h : e.Alike ρ e') {g g' : Nat} (hg : (g, g') ∈ ρ) :
    e.generation = g ↔ e'.generation = g' := hf _ h.paired _ hg

end Entry.Alike

def RowAlike (ρ : Pairing) (r r' : Key × Entry ν η) : Prop := r'.1 = r.1 ∧ r.2.Alike ρ r'.2

theorem RowAlike.mono {ρ σ : Pairing} {r r' : Key × Entry ν η} (hs : ρ ⊆ σ) (h : RowAlike ρ r r') :
    RowAlike σ r r' := ⟨h.1, h.2.mono hs⟩

/-! ## Rows -/

abbrev RowsAlike (ρ : Pairing) : List (Key × Entry ν η) → List (Key × Entry ν η) → Prop :=
  List.Forall₂ (RowAlike ρ)

namespace RowsAlike

variable {ρ σ : Pairing} {rows rows' : List (Key × Entry ν η)}

theorem mono (hs : ρ ⊆ σ) (h : RowsAlike ρ rows rows') : RowsAlike σ rows rows' :=
  h.imp fun _ _ hr => hr.mono hs

theorem keys (h : RowsAlike ρ rows rows') : rows'.map Prod.fst = rows.map Prod.fst := by
  induction h with
  | nil => rfl
  | cons hr _ ih => rw [List.map_cons, List.map_cons, hr.1, ih]

theorem find? (h : RowsAlike ρ rows rows') (key : Key) :
    Option.Rel (Entry.Alike ρ) ((rows.find? (·.1 = key)).map Prod.snd)
      ((rows'.find? (·.1 = key)).map Prod.snd) := by
  induction h with
  | nil => exact .none
  | @cons r r' _ _ hr _ ih =>
    rw [List.find?_cons, List.find?_cons, hr.1]
    by_cases hk : r.1 = key
    · simp only [hk, decide_true]
      exact .some hr.2
    · simp only [hk, decide_false]
      exact ih

theorem modify {f f' : Entry ν η → Entry ν η} (hf : ∀ e e', e.Alike ρ e' → (f e).Alike ρ (f' e'))
    (key : Key) (h : RowsAlike ρ rows rows') :
    RowsAlike ρ (rows.map fun r => if r.1 = key then (r.1, f r.2) else r)
      (rows'.map fun r => if r.1 = key then (r.1, f' r.2) else r) := by
  refine List.forall₂_map_left_iff.mpr (List.forall₂_map_right_iff.mpr (h.imp ?_))
  intro r r' hr
  rw [hr.1]
  split
  · exact ⟨rfl, hf _ _ hr.2⟩
  · exact hr

theorem erase (h : RowsAlike ρ rows rows') (key : Key) :
    RowsAlike ρ (rows.filter (·.1 ≠ key)) (rows'.filter (·.1 ≠ key)) := by
  induction h with
  | nil => exact .nil
  | @cons r r' _ _ hr _ ih =>
    rw [List.filter_cons, List.filter_cons, hr.1]
    split
    · exact .cons hr ih
    · exact ih

end RowsAlike

/-! ## Caches -/

structure Cache.Alike (ρ : Pairing) (s s' : Stats) (c c' : Cache ν η) : Prop where
  settings : c'.settings = c.settings
  expiring : c'.expiring = c.expiring
  expired : c'.expired = c.expired
  handle : c'.handle = c.handle
  rows : RowsAlike ρ c.entries.rows c'.entries.rows
  counters : Stats.Abreast s s' c.stats c'.stats
  faithful : ρ.Faithful
  known : ∀ p ∈ ρ, p.1 < c.nextGeneration ∧ p.2 < c'.nextGeneration

namespace Cache.Alike

variable {ρ : Pairing} {s s' : Stats} {c c' d d' : Cache ν η} {key : Key} {g g' : Nat}

theorem size_eq (h : c.Alike ρ s s' c') : c'.entries.size = c.entries.size := h.rows.length_eq.symm

theorem find? (h : c.Alike ρ s s' c') (key : Key) :
    Option.Rel (Entry.Alike ρ) (c.find? key) (c'.find? key) := h.rows.find? key

theorem insertion? (h : c.Alike ρ s s' c') (key : Key) (hg : (g, g') ∈ ρ) :
    Option.Rel (Entry.Alike ρ) (c.insertion? key g) (c'.insertion? key g') := by
  unfold Cache.insertion?
  generalize c.find? key = found, c'.find? key = found', h.find? key = hfound
  cases hfound with
  | none => exact .none
  | @some e e' he =>
    have hiff := he.generation_eq_iff h.faithful hg
    by_cases heq : e.generation = g
    · simp only [Option.filter, heq, hiff.mp heq, decide_true, if_true]
      exact .some he
    · simp only [Option.filter, heq, mt hiff.mpr heq, decide_false]
      exact .none

/-- Everything but the entries and the counters stays as it is. -/
theorem of_rows (h : c.Alike ρ s s' c') {entries entries' : Table Key (Entry ν η)} {stats stats' : Stats}
    (hr : RowsAlike ρ entries.rows entries'.rows) (hc : Stats.Abreast s s' stats stats') :
    Cache.Alike ρ s s' { c with entries := entries, stats := stats }
      { c' with entries := entries', stats := stats' } :=
  { h with rows := hr, counters := hc }

theorem count (h : c.Alike ρ s s' c') {f : Stats → Stats} (hf : Stats.Steady f) :
    (c.count f).Alike ρ s s' (c'.count f) := h.of_rows h.rows (hf _ _ _ _ h.counters)

theorem touch (h : c.Alike ρ s s' c') (t : Instant) (key : Key) :
    (c.touch t key).Alike ρ s s' (c'.touch t key) :=
  h.of_rows (h.rows.modify (fun _ _ he => he.touch t) key) h.counters

theorem mark (h : c.Alike ρ s s' c') (b : Bool) (key : Key) (hg : (g, g') ∈ ρ) :
    (c.mark b key g).Alike ρ s s' (c'.mark b key g') := by
  have hmark : ∀ e e' : Entry ν η, e.Alike ρ e' →
      Entry.Alike ρ (if e.generation = g then { e with pending := b } else e)
        (if e'.generation = g' then { e' with pending := b } else e') := by
    intro e e' he
    have hiff := he.generation_eq_iff h.faithful hg
    by_cases heq : e.generation = g
    · rw [if_pos heq, if_pos (hiff.mp heq)]
      exact { he with pending := rfl }
    · rw [if_neg heq, if_neg (mt hiff.mpr heq)]
      exact he
  exact h.of_rows (h.rows.modify hmark key) h.counters

theorem takeOut (h : c.Alike ρ s s' c') (key : Key) {f : Stats → Stats} (hf : Stats.Steady f) :
    (c.takeOut key f).Alike ρ s s' (c'.takeOut key f) :=
  h.of_rows (h.rows.erase key) ((hf _ _ _ _ h.counters).withTotal _ _)

theorem drain (h : c.Alike ρ s s' c') : c.drain.Alike ρ s s' c'.drain := by
  apply h.of_rows .nil
  rw [h.size_eq]
  exact (Stats.Steady.removed c.entries.size _ _ _ _ h.counters).withTotal _ _

theorem insert (h : c.Alike ρ s s' c') (t : Instant) (key : Key) (value : ν)
    (policy : Option (Policy η)) :
    (c.insert t key value policy).Alike ((c.nextGeneration, c'.nextGeneration) :: ρ) s s'
      (c'.insert t key value policy) := by
  have hfresh : Entry.Alike ((c.nextGeneration, c'.nextGeneration) :: ρ)
      (.insertedAt t value policy c.nextGeneration) (.insertedAt t value policy c'.nextGeneration) :=
    ⟨rfl, rfl, rfl, rfl, rfl, List.mem_cons_self ..⟩
  have hold := h.rows.mono (List.subset_cons_self (c.nextGeneration, c'.nextGeneration) ρ)
  refine { h with rows := ?_, counters := ?_, faithful := ?_, known := ?_ }
  · show RowsAlike _ (Table.put ..).rows (Table.put ..).rows
    unfold Table.put
    have hkeys : c'.entries.keys = c.entries.keys := h.rows.keys
    by_cases hk : key ∈ c.entries.keys
    · rw [dif_pos hk, dif_pos (hkeys ▸ hk)]
      exact hold.modify (fun _ _ _ => hfresh) key
    · rw [dif_neg hk, dif_neg (hkeys ▸ hk)]
      exact List.rel_append hold (.cons ⟨rfl, hfresh⟩ .nil)
  · exact h.counters.withTotal _ _
  -- both numbers of the new pair are above all that were paired before
  · intro p hp q hq
    rcases List.mem_cons.mp hp with rfl | hp <;> rcases List.mem_cons.mp hq with rfl | hq
    · simp
    · have hlt := h.known q hq
      constructor <;> intro he <;> simp only at he <;> omega
    · have hlt := h.known p hp
      constructor <;> intro he <;> simp only at he <;> omega
    · exact h.faithful p hp q hq
  · intro p hp
    show p.1 < c.nextGeneration + 1 ∧ p.2 < c'.nextGeneration + 1
    rcases List.mem_cons.mp hp with rfl | hp
    · exact ⟨Nat.lt_succ_self _, Nat.lt_succ_self _⟩
    · have hlt := h.known p hp
      omega

theorem ensureTimer (h : c.Alike ρ s s' c') : c.ensureTimer.Alike ρ s s' c'.ensureTimer := by
  unfold Cache.ensureTimer
  split <;> split <;> exact { h with }

theorem admission (h : c.Alike ρ s s' c') (a a' : Admission) :
    Cache.Alike ρ s s' { c with admission := a } { c' with admission := a' } := { h with }

end Cache.Alike

/-! ## Worlds -/

/-- The activity without its numbers. -/
def Activity.unnumbered : Activity ν η → Activity ν η
  | operation op => operation op
  | deciding key _ => deciding key 0
  | telling key _ => telling key 0
  | releasing key _ => releasing key 0
  | fetching key _ => fetching key 0

theorem isOperation_unnumbered (a : Activity ν η) : a.unnumbered.isOperation = a.isOperation := by
  cases a <;> rfl

/-- The slots are those of the fetches in progress. -/
def World.Slotted (w : World ν η μ) : Prop := w.cache.admission.Held (inside w.calls)

namespace World.Slotted

variable {w : World ν η μ} {a : Activity ν η} {calls : List (Activity ν η)} {key : Key}
  {acquired : Admission} {slot : Nat}

theorem inside_cons (ha : a.admitted? = none) : inside (a :: calls) = inside calls := by
  unfold inside
  rw [List.filterMap_cons, ha]

theorem change {f : Cache ν η → Cache ν η} (h : w.Slotted)
    (ha : (f w.cache).admission = w.cache.admission) : (w.change f).Slotted := by
  unfold Slotted
  rw [World.cache_change, World.calls_change, ha]
  exact h

theorem push (h : w.Slotted) (ha : a.admitted? = none) : (w.push a).Slotted := by
  unfold Slotted
  rw [World.calls_push, inside_cons ha]
  exact h

theorem pop (h : w.Slotted) (hc : w.calls = a :: calls) (ha : a.admitted? = none) :
    w.pop.Slotted := by
  unfold Slotted at *
  rw [hc, inside_cons ha] at h
  rw [World.calls_pop, hc]
  exact h

/-- A key is admitted unless a fetch of it is in progress. -/
theorem acquire?_isSome_iff (h : w.Slotted) (key : Key) :
    (w.cache.admission.acquire? key).isSome = true ↔ ¬∃ slot, .fetching key slot ∈ w.calls := by
  rw [Admission.Held.acquire?_isSome_iff h, not_exists]
  exact forall_congr' fun slot => not_congr mem_inside

theorem acquire (h : w.Slotted) (ha : w.cache.admission.acquire? key = some (acquired, slot)) :
    ((w.change ({ · with admission := acquired })).push (.fetching key slot)).Slotted :=
  Admission.Held.acquire h ha

theorem dismiss (h : w.Slotted) (hc : w.calls = .fetching key slot :: calls) :
    ((w.change fun c => { c with admission := c.admission.release key slot }).pop).Slotted := by
  unfold Slotted at *
  rw [hc] at h
  rw [World.calls_pop, World.calls_change, hc]
  exact Admission.Held.release h

end World.Slotted

structure World.Alike (ρ : Pairing) (s s' : Stats) (w w' : World ν η μ) : Prop where
  now : w'.now = w.now
  memory : w'.memory = w.memory
  calls : w'.calls.map (·.unnumbered) = w.calls.map (·.unnumbered)
  cache : w.cache.Alike ρ s s' w'.cache
  slots : w.Slotted
  slots' : w'.Slotted

namespace World.Alike

variable {ρ : Pairing} {s s' : Stats} {w w' v v' : World ν η μ} {key : Key} {g g' : Nat}

theorem busy (h : w.Alike ρ s s' w') : w'.busy = w.busy := by
  have hany : ∀ calls : List (Activity ν η), calls.any (·.isOperation) =
      (calls.map (·.unnumbered)).any (·.isOperation) := by
    intro calls
    rw [List.any_map]
    congr 1
    funext a
    exact (isOperation_unnumbered a).symm
  unfold World.busy
  rw [hany w.calls, hany w'.calls, h.calls]

theorem fetching_iff (h : w.Alike ρ s s' w') (key : Key) :
    (∃ slot, .fetching key slot ∈ w'.calls) ↔ ∃ slot, .fetching key slot ∈ w.calls := by
  have hmem : ∀ calls : List (Activity ν η), (∃ slot, .fetching key slot ∈ calls) ↔
      .fetching key 0 ∈ calls.map (·.unnumbered) := by
    intro calls
    rw [List.mem_map]
    constructor
    · rintro ⟨slot, hs⟩
      exact ⟨_, hs, rfl⟩
    · rintro ⟨a, ha, heq⟩
      cases a <;> cases heq
      exact ⟨_, ha⟩
  rw [hmem, hmem, h.calls]

theorem acquire?_isSome (h : w.Alike ρ s s' w') (key : Key) :
    (w'.cache.admission.acquire? key).isSome = (w.cache.admission.acquire? key).isSome := by
  -- the slots may differ, but the fetches in progress are the same in both
  rw [Bool.eq_iff_iff, h.slots'.acquire?_isSome_iff, h.slots.acquire?_isSome_iff, h.fetching_iff]

theorem note (h : w.Alike ρ s s' w') (r r' : Record ν η) : (w.note r).Alike ρ s s' (w'.note r') :=
  { h with }

theorem change {σ : Pairing} {f f' : Cache ν η → Cache ν η} (h : w.Alike ρ s s' w')
    (hc : (f w.cache).Alike σ s s' (f' w'.cache)) (ha : (f w.cache).admission = w.cache.admission)
    (ha' : (f' w'.cache).admission = w'.cache.admission) :
    (w.change f).Alike σ s s' (w'.change f') :=
  ⟨h.now, h.memory, h.calls, hc, h.slots.change ha, h.slots'.change ha'⟩

theorem calls_push {a a' : Activity ν η} (h : w.Alike ρ s s' w') (hu : a'.unnumbered = a.unnumbered) :
    (w'.push a').calls.map (·.unnumbered) = (w.push a).calls.map (·.unnumbered) := by
  rw [World.calls_push, World.calls_push, List.map_cons, List.map_cons, hu, h.calls]

theorem calls_pop (h : v.Alike ρ s s' v') :
    v'.pop.calls.map (·.unnumbered) = v.pop.calls.map (·.unnumbered) := by
  rw [World.calls_pop, World.calls_pop, List.map_tail, List.map_tail, h.calls]

theorem push {a a' : Activity ν η} (h : w.Alike ρ s s' w') (hu : a'.unnumbered = a.unnumbered)
    (ha : a.admitted? = none) (ha' : a'.admitted? = none) :
    (w.push a).Alike ρ s s' (w'.push a') :=
  ⟨h.now, h.memory, h.calls_push hu, h.cache, h.slots.push ha, h.slots'.push ha'⟩

theorem pop {a a' : Activity ν η} {calls calls' : List (Activity ν η)} (h : v.Alike ρ s s' v')
    (hc : v.calls = a :: calls) (hc' : v'.calls = a' :: calls') (ha : a.admitted? = none)
    (ha' : a'.admitted? = none) : v.pop.Alike ρ s s' v'.pop :=
  ⟨h.now, h.memory, h.calls_pop, h.cache, h.slots.pop hc ha, h.slots'.pop hc' ha'⟩

theorem acquire {acquired acquired' : Admission} {slot slot' : Nat} (h : w.Alike ρ s s' w')
    (ha : w.cache.admission.acquire? key = some (acquired, slot))
    (ha' : w'.cache.admission.acquire? key = some (acquired', slot')) :
    ((w.change ({ · with admission := acquired })).push (.fetching key slot)).Alike ρ s s'
      ((w'.change ({ · with admission := acquired' })).push (.fetching key slot')) :=
  ⟨h.now, h.memory, h.calls_push rfl, h.cache.admission acquired acquired', h.slots.acquire ha,
    h.slots'.acquire ha'⟩

theorem dismiss {slot slot' : Nat} {calls calls' : List (Activity ν η)} (h : v.Alike ρ s s' v')
    (hc : v.calls = .fetching key slot :: calls) (hc' : v'.calls = .fetching key slot' :: calls') :
    ((v.change fun c => { c with admission := c.admission.release key slot }).pop).Alike ρ s s'
      ((v'.change fun c => { c with admission := c.admission.release key slot' }).pop) :=
  ⟨h.now, h.memory, h.calls_pop, h.cache.admission _ _, h.slots.dismiss hc, h.slots'.dismiss hc'⟩

theorem placed (h : w.Alike ρ s s' w') (key : Key) (value : ν) (policy : Option (Policy η)) :
    (w.placed key value policy).Alike ((w.cache.nextGeneration, w'.cache.nextGeneration) :: ρ) s s'
      (w'.placed key value policy) := by
  have hchange : (w.change (.insert w.now key value policy)).Alike _ s s'
      (w'.change (.insert w.now key value policy)) :=
    h.change (h.cache.insert w.now key value policy) rfl rfl
  have hplaced : ∀ u : World ν η μ, ∃ journal, u.placed key value policy =
      { u.change (.insert u.now key value policy) with journal := journal } := by
    intro u
    unfold World.placed
    cases u.cache.find? key with
    | none => exact ⟨_, rfl⟩
    | some old => exact ⟨_, rfl⟩
  obtain ⟨j, hw⟩ := hplaced w
  obtain ⟨j', hw'⟩ := hplaced w'
  rw [hw, hw', h.now]
  exact { hchange with }

theorem emptied (h : w.Alike ρ s s' w') : w.emptied.Alike ρ s s' w'.emptied := by
  have hchange : (w.change .drain).Alike ρ s s' (w'.change .drain) := h.change h.cache.drain rfl rfl
  rw [World.emptied_eq, World.emptied_eq]
  exact { hchange with }

end World.Alike

/-! ## The same but for numbers -/

def Entry.unnumbered (e : Entry ν η) : Entry ν η := { e with generation := 0 }

/-- Two worlds that agree on everything but numbers, counters, timers and what is long over. -/
structure World.Matches (w w' : World ν η μ) : Prop where
  now : w'.now = w.now
  memory : w'.memory = w.memory
  calls : w'.calls.map (·.unnumbered) = w.calls.map (·.unnumbered)
  settings : w'.cache.settings = w.cache.settings
  expiring : w'.cache.expiring = w.cache.expiring
  expired : w'.cache.expired = w.cache.expired
  handle : w'.cache.handle = w.cache.handle
  rows : w'.cache.entries.rows.map (fun r => (r.1, r.2.unnumbered)) =
    w.cache.entries.rows.map fun r => (r.1, r.2.unnumbered)

theorem Entry.Alike.unnumbered_eq {ρ : Pairing} {e e' : Entry ν η} (h : e.Alike ρ e') :
    e'.unnumbered = e.unnumbered := by
  unfold Entry.unnumbered
  rw [h.value, h.policy, h.createdAt, h.lastAccessedAt, h.pending]

theorem World.Alike.matches {ρ : Pairing} {s s' : Stats} {w w' : World ν η μ}
    (h : w.Alike ρ s s' w') : w.Matches w' where
  now := h.now
  memory := h.memory
  calls := h.calls
  settings := h.cache.settings
  expiring := h.cache.expiring
  expired := h.cache.expired
  handle := h.cache.handle
  rows := by
    have hrows := h.cache.rows
    revert hrows
    generalize w.cache.entries.rows = rows, w'.cache.entries.rows = rows'
    intro hrows
    induction hrows with
    | nil => rfl
    | cons hr _ ih => rw [List.map_cons, List.map_cons, hr.1, hr.2.unnumbered_eq, ih]

def Cache.numbers (c : Cache ν η) : List Nat := c.entries.rows.map (·.2.generation)

theorem Sound.nodup_numbers {calls : List (Activity ν η)} {c : Cache ν η} (h : Sound calls c) :
    c.numbers.Nodup := by
  refine List.Nodup.map_on ?_ (List.Nodup.of_map Prod.fst c.entries.distinct)
  intro r hr q hq hg
  have hfind : ∀ x ∈ c.entries.rows, c.find? x.1 = some x.2 := fun x hx =>
    Table.get?_eq_some_iff.mpr hx
  have hkey := h.coherent.distinct r.1 q.1 r.2 q.2 (hfind r hr) (hfind q hq) hg
  have hentry := hfind q hq
  rw [← hkey, hfind r hr] at hentry
  exact Prod.ext hkey (Option.some.inj hentry)

theorem Pairing.faithful_zip {xs ys : List Nat} (hx : xs.Nodup) (hy : ys.Nodup) :
    Pairing.Faithful (xs.zip ys) := by
  intro p hp q hq
  obtain ⟨i, hi, rfl⟩ := List.getElem_of_mem hp
  obtain ⟨j, hj, rfl⟩ := List.getElem_of_mem hq
  rw [List.getElem_zip, List.getElem_zip, hx.getElem_inj_iff, hy.getElem_inj_iff]

theorem rowsAlike_of_unnumbered {ρ : Pairing} {rows rows' : List (Key × Entry ν η)}
    (h : rows'.map (fun r => (r.1, r.2.unnumbered)) = rows.map fun r => (r.1, r.2.unnumbered))
    (hρ : (rows.map (·.2.generation)).zip (rows'.map (·.2.generation)) ⊆ ρ) :
    RowsAlike ρ rows rows' := by
  induction rows generalizing rows' with
  | nil =>
    rw [List.map_nil, List.map_eq_nil_iff] at h
    rw [h]
    exact .nil
  | cons r rows ih =>
    cases rows' with
    | nil => cases h
    | cons r' rows' =>
      rw [List.map_cons, List.map_cons] at h
      obtain ⟨hr, hrows⟩ := List.cons.inj h
      rw [List.map_cons, List.map_cons, List.zip_cons_cons] at hρ
      obtain ⟨hkey, hentry⟩ := Prod.mk.inj hr
      obtain ⟨hv, hp, hc, hl, -, hm⟩ := Entry.mk.inj hentry
      exact .cons ⟨hkey, hv, hp, hc, hl, hm, hρ (List.mem_cons_self ..)⟩
        (ih hrows fun p hp => hρ (List.mem_cons_of_mem _ hp))

/-- What is the same but for numbers is alike, with the entries paired row by row. -/
theorem World.Matches.alike {w w' : World ν η μ} (h : w.Matches w') (hw : Sound w.calls w.cache)
    (hw' : Sound w'.calls w'.cache) :
    ∃ ρ, w.Alike ρ w.cache.stats w'.cache.stats w' := by
  have hbelow : ∀ (u : World ν η μ), Sound u.calls u.cache → ∀ g ∈ u.cache.numbers,
      g < u.cache.nextGeneration := by
    intro u hu g hg
    obtain ⟨r, hr, rfl⟩ := List.mem_map.mp hg
    exact hu.coherent.below r.1 r.2 (Table.get?_eq_some_iff.mpr hr)
  refine ⟨w.cache.numbers.zip w'.cache.numbers, h.now, h.memory, h.calls, ?_, hw.admission,
    hw'.admission⟩
  refine ⟨h.settings, h.expiring, h.expired, h.handle, ?_, .refl _ _, ?_, ?_⟩
  · exact rowsAlike_of_unnumbered h.rows fun _ hp => hp
  · exact Pairing.faithful_zip hw.nodup_numbers hw'.nodup_numbers
  · intro p hp
    exact ⟨hbelow w hw _ (List.of_mem_zip hp).1, hbelow w' hw' _ (List.of_mem_zip hp).2⟩

end ExpiringCache
