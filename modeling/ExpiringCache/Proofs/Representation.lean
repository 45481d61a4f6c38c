import ExpiringCache.Proofs.Admission
import ExpiringCache.Proofs.Reachability

/-!
# What a cache always looks like

Whatever is going on, the generations of stored entries are distinct and below the next one, an
entry is marked exactly while one attempt to evict it is on the stack, the recorded total is the
number of entries, and the admission slots are those of the fetches in progress. This holds in
every world that is reached and was so whenever a line of the journal was written: at the entry of
each callback and at the end of each operation.
-/

namespace ExpiringCache

variable {ν η μ : Type}

namespace Activity

def decides (key : Key) (g : Nat) : Activity ν η → Bool
  | deciding k h => k == key && h == g
  | _ => false

def admitted? : Activity ν η → Option (Key × Nat)
  | fetching k s => some (k, s)
  | _ => none

end Activity

structure Coherent (calls : List (Activity ν η)) (c : Cache ν η) : Prop where
  below : ∀ key e, c.find? key = some e → e.generation < c.nextGeneration
  distinct : ∀ k k' e e', c.find? k = some e → c.find? k' = some e' →
    e.generation = e'.generation → k = k'
  pending : ∀ key e, c.find? key = some e →
    (e.pending = true ↔ calls.countP (·.decides key e.generation) = 1)
  total : c.stats.total = c.entries.size
  directory : ∀ key, key ∈ c.admission.directory.keys ↔ ∃ slot, .fetching key slot ∈ calls
  slots : ∀ slot, slot ∈ c.admission.slots.keys ↔ ∃ key, .fetching key slot ∈ calls

/-! ## Generations and marks -/

/-- The generation and the mark of what is stored under `key`. -/
def Cache.stamp? (c : Cache ν η) (key : Key) : Option (Nat × Bool) :=
  (c.find? key).map fun e => (e.generation, e.pending)

namespace Cache

variable {c : Cache ν η} {key : Key} {g : Nat}

theorem stamp?_touch (t : Instant) (key : Key) (c : Cache ν η) :
    (c.touch t key).stamp? = c.stamp? := by
  funext j
  unfold stamp?
  rw [find?_touch]
  split
  · rename_i hj
    subst hj
    rw [Option.map_map]
    rfl
  · rfl

theorem stamp?_mark (b : Bool) (key : Key) (g : Nat) (c : Cache ν η) (j : Key) :
    (c.mark b key g).stamp? j = if j = key then
      (c.stamp? key).map (fun s => if s.1 = g then (s.1, b) else s) else c.stamp? j := by
  unfold stamp?
  rw [find?_mark]
  split
  · rw [Option.map_map, Option.map_map]
    congr 1
    funext e
    simp only [Function.comp]
    split <;> rfl
  · rfl

theorem stamp?_insert (t : Instant) (key : Key) (value : ν) (policy : Option (Policy η))
    (c : Cache ν η) (j : Key) : (c.insert t key value policy).stamp? j =
      if j = key then some (c.nextGeneration, false) else c.stamp? j := by
  unfold stamp?
  rw [find?_insert]
  split <;> rfl

theorem stamp?_takeOut (key : Key) (f : Stats → Stats) (c : Cache ν η) (j : Key) :
    (c.takeOut key f).stamp? j = if j = key then none else c.stamp? j := by
  unfold stamp?
  rw [find?_takeOut]
  split <;> rfl

end Cache

/-- Marks agree with the decisions in progress. -/
structure Marks (calls : List (Activity ν η)) (stamp? : Key → Option (Nat × Bool))
    (next : Nat) : Prop where
  below : ∀ key s, stamp? key = some s → s.1 < next
  distinct : ∀ k k' s s', stamp? k = some s → stamp? k' = some s' → s.1 = s'.1 → k = k'
  pending : ∀ key s, stamp? key = some s →
    (s.2 = true ↔ calls.countP (·.decides key s.1) = 1)
  once : ∀ key g, calls.countP (·.decides key g) ≤ 1
  known : ∀ key g, 0 < calls.countP (·.decides key g) → g < next

namespace Marks

variable {calls rest : List (Activity ν η)} {stamp? : Key → Option (Nat × Bool)} {next : Nat}
  {key : Key} {g : Nat}

theorem congr {calls' : List (Activity ν η)} (h : Marks calls stamp? next)
    (hc : ∀ key g, calls'.countP (·.decides key g) = calls.countP (·.decides key g)) :
    Marks calls' stamp? next where
  below := h.below
  distinct := h.distinct
  pending key s hs := by
    rw [hc]
    exact h.pending key s hs
  once key g := by
    rw [hc]
    exact h.once key g
  known key g hg := by
    rw [hc] at hg
    exact h.known key g hg

theorem countP_deciding (key k : Key) (g i : Nat) (calls : List (Activity ν η)) :
    (.deciding key g :: calls).countP (·.decides k i) =
      calls.countP (·.decides k i) + if key = k ∧ g = i then 1 else 0 := by
  rw [List.countP_cons]
  simp [Activity.decides]

theorem mark (h : Marks calls stamp? next) (hs : stamp? key = some (g, false)) :
    Marks (.deciding key g :: calls) (fun j => if j = key then
      (stamp? key).map (fun s => if s.1 = g then (s.1, true) else s) else stamp? j) next := by
  have hlt : g < next := h.below key _ hs
  have hstamp : (stamp? key).map (fun s => if s.1 = g then (s.1, true) else s) = some (g, true) := by
    rw [hs, Option.map_some, if_pos rfl]
  have hzero : calls.countP (·.decides key g) = 0 := by
    have h1 := h.once key g
    have h2 := mt (h.pending key (g, false) hs).mpr (by simp)
    have h3 : calls.countP (·.decides key g) ≠ 1 := h2
    omega
  have hkept : ∀ j s, (if j = key then
      (stamp? key).map (fun s => if s.1 = g then (s.1, true) else s) else stamp? j) = some s →
      j = key ∧ s = (g, true) ∨ j ≠ key ∧ stamp? j = some s := by
    intro j s hj
    split at hj
    · rename_i he
      rw [hstamp] at hj
      exact Or.inl ⟨he, (Option.some.inj hj).symm⟩
    · rename_i he
      exact Or.inr ⟨he, hj⟩
  refine ⟨?_, ?_, ?_, ?_, ?_⟩
  · intro j s hj
    rcases hkept j s hj with ⟨rfl, rfl⟩ | ⟨_, hj⟩
    · exact hlt
    · exact h.below j s hj
  · intro k k' s s' hk hk' he
    rcases hkept k s hk with ⟨rfl, rfl⟩ | ⟨_, h1⟩ <;>
      rcases hkept k' s' hk' with ⟨rfl, rfl⟩ | ⟨_, h2⟩
    · rfl
    · exact h.distinct _ _ _ _ hs h2 he
    · exact h.distinct _ _ _ _ h1 hs he
    · exact h.distinct _ _ _ _ h1 h2 he
  · intro j s hj
    rw [countP_deciding]
    rcases hkept j s hj with ⟨rfl, rfl⟩ | ⟨hne, hj⟩
    · simp [hzero]
    · rw [if_neg (fun hk => hne hk.1.symm), Nat.add_zero]
      exact h.pending j s hj
  · intro k i
    rw [countP_deciding]
    split
    · rename_i he
      obtain ⟨rfl, rfl⟩ := he
      omega
    · exact h.once k i
  · intro k i hi
    rw [countP_deciding] at hi
    split at hi
    · rename_i he
      rw [← he.2]
      exact h.below key _ hs
    · exact h.known k i hi

/-- A decision ends; the entry is unmarked unless another insertion took its place. -/
theorem unmark (h : Marks (.deciding key g :: calls) stamp? next) :
    Marks calls (fun j => if j = key then
      (stamp? key).map (fun s => if s.1 = g then (s.1, false) else s) else stamp? j) next := by
  -- what is stored is what was decided about, or another insertion, under this key or elsewhere
  have hkept : ∀ j s, (if j = key then
      (stamp? key).map (fun s => if s.1 = g then (s.1, false) else s) else stamp? j) = some s →
      (j = key ∧ s = (g, false) ∧ ∃ b, stamp? j = some (g, b)) ∨
        (¬(key = j ∧ g = s.1) ∧ stamp? j = some s) := by
    intro j s hj
    split at hj
    · rename_i he
      subst he
      obtain ⟨s0, hs0, rfl⟩ := Option.map_eq_some_iff.mp hj
      split
      · rename_i hg
        exact Or.inl ⟨rfl, by rw [hg], s0.2, by rw [hs0, ← hg]⟩
      · rename_i hg
        exact Or.inr ⟨fun hk => hg hk.2.symm, hs0⟩
    · rename_i he
      exact Or.inr ⟨fun hk => he hk.1.symm, hj⟩
  have hbelow : ∀ k i, calls.countP (·.decides k i) ≤
      (Activity.deciding key g :: calls).countP (·.decides k i) := by
    intro k i
    rw [countP_deciding]
    omega
  refine ⟨?_, ?_, ?_, ?_, ?_⟩
  · intro j s hj
    rcases hkept j s hj with ⟨rfl, rfl, b, hb⟩ | ⟨_, hj⟩
    · have hlt : g < next := h.below j _ hb
      exact hlt
    · exact h.below j s hj
  · intro k k' s s' hk hk' he
    rcases hkept k s hk with ⟨rfl, rfl, b, hb⟩ | ⟨_, h1⟩ <;>
      rcases hkept k' s' hk' with ⟨rfl, rfl, b', hb'⟩ | ⟨_, h2⟩
    · rfl
    · exact h.distinct _ _ _ _ hb h2 he
    · exact h.distinct _ _ _ _ h1 hb' he
    · exact h.distinct _ _ _ _ h1 h2 he
  · intro j s hj
    rcases hkept j s hj with ⟨rfl, rfl, b, hb⟩ | ⟨hne, hj⟩
    · have h1 := h.once j g
      rw [countP_deciding, if_pos ⟨rfl, rfl⟩] at h1
      simp only [Bool.false_eq_true, false_iff]
      omega
    · have h1 := h.pending j s hj
      rw [countP_deciding, if_neg hne, Nat.add_zero] at h1
      exact h1
  · intro k i
    exact Nat.le_trans (hbelow k i) (h.once k i)
  · intro k i hi
    exact h.known k i (Nat.lt_of_lt_of_le hi (hbelow k i))

theorem insert (h : Marks calls stamp? next) (key : Key) :
    Marks calls (fun j => if j = key then some (next, false) else stamp? j) (next + 1) := by
  have hkept : ∀ j s, (if j = key then some (next, false) else stamp? j) = some s →
      j = key ∧ s = (next, false) ∨ stamp? j = some s := by
    intro j s hj
    split at hj
    · rename_i he
      exact Or.inl ⟨he, (Option.some.inj hj).symm⟩
    · exact Or.inr hj
  have hnone : ∀ k, calls.countP (·.decides k next) = 0 := by
    intro k
    have h1 := mt (h.known k next) (Nat.lt_irrefl next)
    omega
  refine ⟨?_, ?_, ?_, h.once, ?_⟩
  · intro j s hj
    rcases hkept j s hj with ⟨rfl, rfl⟩ | hj
    · exact Nat.lt_succ_self next
    · exact Nat.lt_succ_of_lt (h.below j s hj)
  · intro k k' s s' hk hk' he
    rcases hkept k s hk with ⟨rfl, rfl⟩ | h1 <;> rcases hkept k' s' hk' with ⟨rfl, rfl⟩ | h2
    · rfl
    · exact absurd he (Nat.ne_of_gt (h.below k' s' h2))
    · exact absurd he (Nat.ne_of_lt (h.below k s h1))
    · exact h.distinct _ _ _ _ h1 h2 he
  · intro j s hj
    rcases hkept j s hj with ⟨rfl, rfl⟩ | hj
    · simp [hnone]
    · exact h.pending j s hj
  · intro k i hi
    exact Nat.lt_succ_of_lt (h.known k i hi)

theorem restrict {less? : Key → Option (Nat × Bool)} (h : Marks calls stamp? next)
    (hl : ∀ j s, less? j = some s → stamp? j = some s) : Marks calls less? next where
  below j s hj := h.below j s (hl j s hj)
  distinct k k' s s' hk hk' := h.distinct k k' s s' (hl k s hk) (hl k' s' hk')
  pending j s hj := h.pending j s (hl j s hj)
  once := h.once
  known := h.known

end Marks

/-! ## The invariant -/

/-- Those inside, of the work in progress. -/
def inside (calls : List (Activity ν η)) : List (Key × Nat) := calls.filterMap (·.admitted?)

theorem mem_inside {calls : List (Activity ν η)} {r : Key × Nat} :
    r ∈ inside calls ↔ .fetching r.1 r.2 ∈ calls := by
  unfold inside
  rw [List.mem_filterMap]
  constructor
  · rintro ⟨a, ha, hr⟩
    cases a with
    | fetching k s =>
      cases hr
      exact ha
    | _ => cases hr
  · intro h
    exact ⟨_, h, rfl⟩

/-- The whole invariant, of which `Coherent` is the part that concerns the outside. -/
structure Sound (calls : List (Activity ν η)) (c : Cache ν η) : Prop where
  marks : Marks calls c.stamp? c.nextGeneration
  total : c.stats.total = c.entries.size
  admission : c.admission.Held (inside calls)

theorem Sound.coherent {calls : List (Activity ν η)} {c : Cache ν η} (h : Sound calls c) :
    Coherent calls c := by
  have hstamp : ∀ key e, c.find? key = some e → c.stamp? key = some (e.generation, e.pending) := by
    intro key e he
    unfold Cache.stamp?
    rw [he]
    rfl
  refine ⟨?_, ?_, ?_, h.total, ?_, ?_⟩
  · intro key e he
    exact h.marks.below key _ (hstamp key e he)
  · intro k k' e e' he he' hg
    exact h.marks.distinct k k' _ _ (hstamp k e he) (hstamp k' e' he') hg
  · intro key e he
    exact h.marks.pending key _ (hstamp key e he)
  · intro key
    rw [Table.mem_keys_iff]
    constructor
    · rintro ⟨slot, hs⟩
      exact ⟨slot, mem_inside.mp ((h.admission.directory key slot).mp hs)⟩
    · rintro ⟨slot, hs⟩
      exact ⟨slot, (h.admission.directory key slot).mpr (mem_inside.mpr hs)⟩
  · intro slot
    rw [Table.mem_keys_iff]
    constructor
    · rintro ⟨s, hs⟩
      apply Classical.byContradiction
      intro hno
      have hnone := h.admission.outside slot fun r hr he =>
        hno ⟨r.1, he ▸ mem_inside.mp hr⟩
      rw [hnone] at hs
      cases hs
    · rintro ⟨key, hk⟩
      exact ⟨_, h.admission.inside (key, slot) (mem_inside.mpr hk)⟩

theorem sound_create (settings : Settings η) (hosting : Hosting) :
    Sound ([] : List (Activity ν η)) (.create settings hosting) where
  marks := by
    refine ⟨?_, ?_, ?_, fun _ _ => Nat.zero_le _, ?_⟩
    · intro key s hs
      cases hs
    · intro k k' s s' hs
      cases hs
    · intro key s hs
      cases hs
    · intro key g hg
      cases hg
  total := rfl
  admission := Admission.held_empty

namespace Sound

variable {calls rest : List (Activity ν η)} {c d : Cache ν η} {key : Key} {g : Nat}

theorem beside (h : Sound calls c) (hb : c.Beside d) : Sound calls d := by
  have hs : d.stamp? = c.stamp? := by
    funext key
    unfold Cache.stamp? Cache.find?
    rw [hb.entries]
  refine ⟨?_, ?_, ?_⟩
  · rw [hs, hb.nextGeneration]
    exact h.marks
  · rw [hb.total, hb.entries]
    exact h.total
  · rw [hb.admission]
    exact h.admission

theorem setTimer (h : Sound calls c) (timer : Option Timer) : Sound calls (c.setTimer timer) :=
  ⟨h.marks, h.total, h.admission⟩

theorem touch (h : Sound calls c) (t : Instant) (key : Key) : Sound calls (c.touch t key) := by
  refine ⟨?_, ?_, h.admission⟩
  · rw [Cache.stamp?_touch]
    exact h.marks
  · show c.stats.total = (c.entries.modify key _).size
    rw [Table.size_modify]
    exact h.total

theorem plain_iff {a : Activity ν η} (ha : a.isPlain = true) :
    Sound (a :: calls) c ↔ Sound calls c := by
  have hcount : ∀ key g, (a :: calls).countP (·.decides key g) = calls.countP (·.decides key g) := by
    intro key g
    rw [List.countP_cons]
    cases a <;> first | rfl | cases ha
  have hinside : inside (a :: calls) = inside calls := by
    cases a <;> first | rfl | cases ha
  constructor
  · intro h
    refine ⟨h.marks.congr fun key g => (hcount key g).symm, h.total, ?_⟩
    rw [← hinside]
    exact h.admission
  · intro h
    refine ⟨h.marks.congr hcount, h.total, ?_⟩
    rw [hinside]
    exact h.admission

theorem total_mark (h : Sound calls c) (pending : Bool) (key : Key) (g : Nat) :
    (c.mark pending key g).stats.total = (c.mark pending key g).entries.size := by
  show c.stats.total = (c.entries.modify key _).size
  rw [Table.size_modify]
  exact h.total

theorem mark (h : Sound calls c) {e : Entry ν η} (he : c.insertion? key g = some e)
    (hp : e.pending = false) : Sound (.deciding key g :: calls) (c.mark true key g) := by
  obtain ⟨hf, hg⟩ := Cache.insertion?_eq_some.mp he
  have hs : c.stamp? key = some (g, false) := by
    unfold Cache.stamp?
    rw [hf, Option.map_some, hg, hp]
  have hmarks := h.marks.mark hs
  rw [← funext (Cache.stamp?_mark true key g c)] at hmarks
  exact ⟨hmarks, h.total_mark true key g, h.admission⟩

theorem unmark (h : Sound (.deciding key g :: rest) c) : Sound rest (c.mark false key g) := by
  have hmarks := h.marks.unmark
  rw [← funext (Cache.stamp?_mark false key g c)] at hmarks
  exact ⟨hmarks, h.total_mark false key g, h.admission⟩

theorem acquire (h : Sound calls c) {acquired : Admission} {slot : Nat}
    (ha : c.admission.acquire? key = some (acquired, slot)) :
    Sound (.fetching key slot :: calls) { c with admission := acquired } := by
  refine ⟨h.marks.congr ?_, h.total, h.admission.acquire ha⟩
  intro k g
  rw [List.countP_cons]
  rfl

theorem dismiss {slot : Nat} (h : Sound (.fetching key slot :: rest) c) :
    Sound rest { c with admission := c.admission.release key slot } := by
  refine ⟨h.marks.congr ?_, h.total, Admission.Held.release h.admission⟩
  intro k g
  rw [List.countP_cons]
  rfl

theorem insert (h : Sound calls c) (t : Instant) (key : Key) (value : ν)
    (policy : Option (Policy η)) : Sound calls (c.insert t key value policy) := by
  have hmarks := h.marks.insert key
  rw [← funext (Cache.stamp?_insert t key value policy c)] at hmarks
  exact ⟨hmarks, rfl, h.admission⟩

theorem takeOut (h : Sound calls c) (key : Key) (f : Stats → Stats) :
    Sound calls (c.takeOut key f) := by
  refine ⟨h.marks.restrict ?_, rfl, h.admission⟩
  intro j s hj
  rw [Cache.stamp?_takeOut] at hj
  split at hj
  · cases hj
  · exact hj

theorem drain (h : Sound calls c) : Sound calls c.drain := by
  refine ⟨h.marks.restrict ?_, rfl, h.admission⟩
  intro j s hj
  cases hj

end Sound

theorem Sound.tended {w : World ν η μ} (h : Sound w.calls w.cache) (policy : Option (Policy η)) :
    Sound (w.tended policy).calls (w.tended policy).cache := by
  obtain ⟨timer, ht⟩ := w.tended_eq policy
  rw [ht]
  exact h.setTimer timer

theorem Move.sound {level : Nat} {w w' : World ν η μ} (h : Move level w w')
    (hw : Sound w.calls w.cache) : Sound w'.calls w'.cache := by
  cases h with
  | clock | memory | note => exact hw
  | tune f hb => exact hw.beside hb
  | touch key => exact hw.touch w.now key
  | enter a ha => exact (Sound.plain_iff ha).mpr hw
  | leave a ha rest hc =>
    rw [hc] at hw
    rw [World.calls_pop, hc]
    exact (Sound.plain_iff ha).mp hw
  | mark key g e he hp => exact hw.mark he hp
  | unmark key g rest hc =>
    rw [hc] at hw
    rw [World.calls_pop, World.calls_change, hc]
    exact hw.unmark
  | acquire key acquired slot ha => exact hw.acquire ha
  | dismiss key slot rest hc =>
    rw [hc] at hw
    rw [World.calls_pop, World.calls_change, hc]
    exact hw.dismiss
  | place key value policy =>
    refine Sound.tended ?_ policy
    rw [World.calls_placed, World.cache_placed]
    exact hw.insert w.now key value policy
  | takeOut key e exit f hf hl => exact hw.takeOut key f
  | empty =>
    rw [World.emptied_eq]
    exact hw.drain
  | close =>
    rw [World.emptied_eq]
    have hclosed : Sound w.calls { w.cache.setTimer none with handle := .closed } :=
      ⟨hw.marks, hw.total, hw.admission⟩
    exact hclosed.drain
  | retire => exact hw.setTimer none
  | beat hl timer => exact hw.setTimer timer

theorem Moves.sound {level : Nat} {w w' : World ν η μ} (h : Moves level w w')
    (hw : Sound w.calls w.cache) : Sound w'.calls w'.cache := by
  induction h with
  | refl => exact hw
  | tail _ hm ih => exact hm.sound ih

/-- The lines a move writes show the cache that it leaves, but for the timer. -/
theorem Move.lines {level : Nat} {w w' : World ν η μ} (h : Move level w w') :
    ∃ new, w'.journal = new ++ w.journal ∧
      ∀ l ∈ new, l.calls = w'.calls ∧ l.now = w'.now ∧ ∃ timer, l.cache = w'.cache.setTimer timer := by
  cases h with
  | note r hr hl =>
    refine ⟨[w.line r], rfl, ?_⟩
    intro l hm
    rw [List.mem_singleton.mp hm]
    exact ⟨rfl, rfl, w.cache.timer, rfl⟩
  | takeOut key e exit f hf hl =>
    refine ⟨[_], rfl, ?_⟩
    intro l hm
    rw [List.mem_singleton.mp hm]
    exact ⟨rfl, rfl, w.cache.timer, rfl⟩
  | place key value policy =>
    refine ⟨w.placedLines key value policy, ?_, ?_⟩
    · rw [World.journal_tended, World.journal_placed]
    · obtain ⟨timer, ht⟩ := (w.placed key value policy).tended_eq policy
      intro l hm
      rw [ht, World.calls_change, World.now_change, World.cache_change, World.calls_placed,
        World.cache_placed, World.now_placed]
      unfold World.placedLines at hm
      split at hm
      · rw [List.mem_singleton.mp hm]
        exact ⟨rfl, rfl, w.cache.timer, rfl⟩
      · rcases List.mem_cons.mp hm with rfl | hm
        · exact ⟨rfl, rfl, w.cache.timer, rfl⟩
        · rw [List.mem_singleton.mp hm]
          exact ⟨rfl, rfl, w.cache.timer, rfl⟩
  | empty =>
    rw [World.emptied_eq]
    refine ⟨_, rfl, ?_⟩
    intro l hm
    obtain ⟨r, -, rfl⟩ := List.mem_map.mp (List.mem_reverse.mp hm)
    exact ⟨rfl, rfl, w.cache.timer, rfl⟩
  | close =>
    rw [World.emptied_eq]
    refine ⟨_, rfl, ?_⟩
    intro l hm
    obtain ⟨r, -, rfl⟩ := List.mem_map.mp (List.mem_reverse.mp hm)
    exact ⟨rfl, rfl, none, rfl⟩
  | _ =>
    refine ⟨[], rfl, ?_⟩
    intro l hm
    cases hm

/-- With nothing in progress no entry is marked and there is no slot. -/
theorem Coherent.idle {c : Cache ν η} (h : Coherent [] c) :
    (∀ key e, c.find? key = some e → e.pending = false) ∧ c.admission.directory.keys = [] ∧
      c.admission.slots.keys = [] := by
  refine ⟨?_, ?_, ?_⟩
  · intro key e he
    have hp := h.pending key e he
    rw [List.countP_nil] at hp
    exact Bool.eq_false_iff.mpr fun ht => absurd (hp.mp ht) (by decide)
  · refine List.eq_nil_iff_forall_not_mem.mpr ?_
    intro key hk
    obtain ⟨slot, hs⟩ := (h.directory key).mp hk
    cases hs
  · refine List.eq_nil_iff_forall_not_mem.mpr ?_
    intro slot hs
    obtain ⟨key, hk⟩ := (h.slots slot).mp hs
    cases hk

variable {host : Host ν η μ} {settings : Settings η} {hosting : Hosting} {w : World ν η μ}

/-- A move keeps the invariant, in the world and in what the lines show. -/
theorem Move.sound_lines {level : Nat} {v v' : World ν η μ} (hm : Move level v v')
    (h : Sound v.calls v.cache ∧ ∀ l ∈ v.journal, Sound l.calls l.cache) :
    Sound v'.calls v'.cache ∧ ∀ l ∈ v'.journal, Sound l.calls l.cache := by
  obtain ⟨hv, hj⟩ := h
  have hv' := hm.sound hv
  refine ⟨hv', ?_⟩
  obtain ⟨new, hnew, hlines⟩ := hm.lines
  intro l hl
  rw [hnew] at hl
  rcases List.mem_append.mp hl with hl | hl
  · obtain ⟨hc, -, timer, hcache⟩ := hlines l hl
    rw [hc, hcache]
    exact hv'.setTimer timer
  · exact hj l hl

theorem sound_lines_fresh (settings : Settings η) (hosting : Hosting) (t : Instant) (memory : μ) :
    Sound (World.fresh settings hosting t memory : World ν η μ).calls
        (World.fresh settings hosting t memory : World ν η μ).cache ∧
      ∀ l ∈ (World.fresh settings hosting t memory : World ν η μ).journal,
        Sound l.calls l.cache := by
  refine ⟨sound_create settings hosting, ?_⟩
  intro l hl
  cases hl

theorem Reachable.sound (h : Reachable host settings hosting w) :
    Sound w.calls w.cache ∧ ∀ l ∈ w.journal, Sound l.calls l.cache :=
  h.invariant (I := fun w => Sound w.calls w.cache ∧ ∀ l ∈ w.journal, Sound l.calls l.cache)
    (sound_lines_fresh settings hosting) Move.sound_lines

/-- The cache is coherent in every reachable world, where nothing is in progress, and was coherent
at every line of the journal: at the entry of every callback and at the end of every operation,
however it ended. -/
theorem reachable_coherent (h : Reachable host settings hosting w) :
    w.calls = [] ∧ Coherent [] w.cache ∧
      (∀ key e, w.cache.find? key = some e → e.pending = false) ∧
      w.cache.admission.directory.keys = [] ∧ w.cache.admission.slots.keys = [] ∧
      ∀ l ∈ w.journal, Coherent l.calls l.cache := by
  obtain ⟨hs, hlines⟩ := h.sound
  rw [h.calls] at hs
  exact ⟨h.calls, hs.coherent, hs.coherent.idle.1, hs.coherent.idle.2.1, hs.coherent.idle.2.2,
    fun l hl => (hlines l hl).coherent⟩

theorem expiredRead_coherent :
    World.expiredRead.journal.any (fun l => (l.cache.find? "k").any (·.pending)) = true ∧
      World.expiredRead.calls = [] ∧ ∀ l ∈ World.expiredRead.journal, Coherent l.calls l.cache := by
  obtain ⟨hcalls, -, -, -, -, hlines⟩ := reachable_coherent (.between expiredRead_between)
  exact ⟨by decide +kernel, hcalls, hlines⟩

end ExpiringCache
