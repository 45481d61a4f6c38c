import ExpiringCache.Proofs.Journal
import Mathlib.Logic.Relation

/-!
# Moves of the world

Everything that happens is a sequence of moves. What is stored changes in six of them only: an
access, an insertion together with the departure of what it replaces, one entry leaving, all entries
leaving, and the mark of a decision being set and cleared. An insertion that can expire starts the
timer in the same move; it stops where nothing that can expire is left. Work in progress is pushed
and popped. Every line that is written is lawful.

Moves have a level. The timer's own task sets it at level zero, outside of all other work, and
nowhere else.
-/

namespace ExpiringCache

variable {ν η μ : Type}

/-- A change of the cache that concerns neither an entry nor the timer. -/
structure Cache.Beside (c d : Cache ν η) : Prop where
  entries : d.entries = c.entries
  timer : d.timer = c.timer
  nextGeneration : d.nextGeneration = c.nextGeneration
  admission : d.admission = c.admission
  settings : d.settings = c.settings
  hosting : d.hosting = c.hosting
  total : d.stats.total = c.stats.total

namespace Activity

/-- Work whose beginning and end leave the cache alone. -/
def isPlain : Activity ν η → Bool
  | operation _ => true
  | telling _ _ => true
  | releasing _ _ => true
  | _ => false

end Activity

namespace Record

/-- An insertion comes in or leaves. -/
def isPassage : Record ν η → Bool
  | .inserted .. => true
  | .left .. => true
  | _ => false

end Record

namespace World

def line (r : Record ν η) (w : World ν η μ) : Line ν η := ⟨r, w.now, w.calls, w.cache⟩

/-- A new insertion takes the place of what was under its key. -/
def placed (key : Key) (value : ν) (policy : Option (Policy η)) (w : World ν η μ) : World ν η μ :=
  let inserted := (w.change (.insert w.now key value policy)).note
    (.inserted w.cache.nextGeneration key value)
  match w.cache.find? key with
  | none => inserted
  | some old => inserted.note (.left old.generation key old.value .replaced)

/-- A new insertion with this policy starts the timer if need be. -/
def tended (policy : Option (Policy η)) (w : World ν η μ) : World ν η μ :=
  if policy.isSome then w.change .ensureTimer else w

def noteCleared (rows : List (Key × Entry ν η)) (w : World ν η μ) : World ν η μ :=
  rows.foldl (fun w r => w.note (.left r.2.generation r.1 r.2.value .cleared)) w

/-- Every entry leaves. -/
def emptied (w : World ν η μ) : World ν η μ :=
  (w.change .drain).noteCleared w.cache.entries.rows

end World

inductive Move (level : Nat) : World ν η μ → World ν η μ → Prop
  | clock {w : World ν η μ} (t : Instant) (h : w.now ≤ t) : Move level w { w with now := t }
  | memory {w : World ν η μ} (m : μ) : Move level w { w with memory := m }
  | note {w : World ν η μ} (r : Record ν η) (hr : r.isPassage = false)
      (h : (w.line r).Lawful w.journal) : Move level w (w.note r)
  | tune {w : World ν η μ} (f : Cache ν η → Cache ν η) (h : w.cache.Beside (f w.cache)) :
      Move level w (w.change f)
  | touch {w : World ν η μ} (key : Key) : Move level w (w.change (.touch w.now key))
  | enter {w : World ν η μ} (a : Activity ν η) (ha : a.isPlain = true) : Move level w (w.push a)
  | leave {w : World ν η μ} (a : Activity ν η) (ha : a.isPlain = true) (rest : List (Activity ν η))
      (h : w.calls = a :: rest) : Move level w w.pop
  | mark {w : World ν η μ} (key : Key) (g : Nat) (e : Entry ν η)
      (h : w.cache.insertion? key g = some e) (hp : e.pending = false) :
      Move level w ((w.change (.mark true key g)).push (.deciding key g))
  | unmark {w : World ν η μ} (key : Key) (g : Nat) (rest : List (Activity ν η))
      (h : w.calls = .deciding key g :: rest) : Move level w ((w.change (.mark false key g)).pop)
  | acquire {w : World ν η μ} (key : Key) (acquired : Admission) (slot : Nat)
      (h : w.cache.admission.acquire? key = some (acquired, slot)) :
      Move level w ((w.change ({ · with admission := acquired })).push (.fetching key slot))
  | dismiss {w : World ν η μ} (key : Key) (slot : Nat) (rest : List (Activity ν η))
      (h : w.calls = .fetching key slot :: rest) :
      Move level w ((w.change fun c => { c with admission := c.admission.release key slot }).pop)
  | place {w : World ν η μ} (key : Key) (value : ν) (policy : Option (Policy η)) :
      Move level w ((w.placed key value policy).tended policy)
  | takeOut {w : World ν η μ} (key : Key) (e : Entry ν η) (exit : Exit) (f : Stats → Stats)
      (h : w.cache.find? key = some e)
      (hl : ((w.change (.takeOut key f)).line (.left e.generation key e.value exit)).Lawful
        w.journal) :
      Move level w ((w.change (.takeOut key f)).note (.left e.generation key e.value exit))
  | empty {w : World ν η μ} : Move level w w.emptied
  | close {w : World ν η μ} :
      Move level w (w.change fun c => { c.setTimer none with handle := .closed }).emptied
  | retire {w : World ν η μ} (h : w.cache.needsTimer = false) :
      Move level w (w.change (.setTimer none))
  | beat {w : World ν η μ} (hl : level = 0) (timer : Option Timer) :
      Move level w (w.change (.setTimer timer))

abbrev Moves (level : Nat) : World ν η μ → World ν η μ → Prop := Relation.ReflTransGen (Move level)

namespace World

variable {w w' : World ν η μ}

@[simp] theorem calls_change (f : Cache ν η → Cache ν η) (w : World ν η μ) :
    (w.change f).calls = w.calls := rfl

@[simp] theorem cache_change (f : Cache ν η → Cache ν η) (w : World ν η μ) :
    (w.change f).cache = f w.cache := rfl

@[simp] theorem journal_change (f : Cache ν η → Cache ν η) (w : World ν η μ) :
    (w.change f).journal = w.journal := rfl

@[simp] theorem now_change (f : Cache ν η → Cache ν η) (w : World ν η μ) :
    (w.change f).now = w.now := rfl

@[simp] theorem calls_note (r : Record ν η) (w : World ν η μ) : (w.note r).calls = w.calls := rfl

@[simp] theorem cache_note (r : Record ν η) (w : World ν η μ) : (w.note r).cache = w.cache := rfl

@[simp] theorem now_note (r : Record ν η) (w : World ν η μ) : (w.note r).now = w.now := rfl

@[simp] theorem journal_note (r : Record ν η) (w : World ν η μ) :
    (w.note r).journal = w.line r :: w.journal := rfl

@[simp] theorem calls_push (a : Activity ν η) (w : World ν η μ) :
    (w.push a).calls = a :: w.calls := rfl

@[simp] theorem cache_push (a : Activity ν η) (w : World ν η μ) : (w.push a).cache = w.cache := rfl

@[simp] theorem now_push (a : Activity ν η) (w : World ν η μ) : (w.push a).now = w.now := rfl

@[simp] theorem journal_push (a : Activity ν η) (w : World ν η μ) :
    (w.push a).journal = w.journal := rfl

@[simp] theorem calls_pop (w : World ν η μ) : w.pop.calls = w.calls.tail := rfl

@[simp] theorem cache_pop (w : World ν η μ) : w.pop.cache = w.cache := rfl

@[simp] theorem now_pop (w : World ν η μ) : w.pop.now = w.now := rfl

@[simp] theorem journal_pop (w : World ν η μ) : w.pop.journal = w.journal := rfl

/-- The lines that clearing away these rows writes, newest first. -/
def clearedLines (rows : List (Key × Entry ν η)) (w : World ν η μ) : List (Line ν η) :=
  (rows.map fun r => w.line (.left r.2.generation r.1 r.2.value .cleared)).reverse

theorem noteCleared_eq (rows : List (Key × Entry ν η)) (w : World ν η μ) :
    w.noteCleared rows = { w with journal := w.clearedLines rows ++ w.journal } := by
  induction rows generalizing w with
  | nil => rfl
  | cons r rows ih =>
    show (w.note _).noteCleared rows = _
    rw [ih]
    simp only [note, clearedLines, List.map_cons, List.reverse_cons, List.append_assoc,
      List.cons_append, List.nil_append]
    rfl

theorem emptied_eq (w : World ν η μ) : w.emptied =
    { w.change .drain with
      journal := (w.change .drain).clearedLines w.cache.entries.rows ++ w.journal } := by
  unfold emptied
  rw [noteCleared_eq]
  rfl

theorem cache_placed (key : Key) (value : ν) (policy : Option (Policy η)) (w : World ν η μ) :
    (w.placed key value policy).cache = w.cache.insert w.now key value policy := by
  unfold placed
  cases w.cache.find? key <;> rfl

theorem calls_placed (key : Key) (value : ν) (policy : Option (Policy η)) (w : World ν η μ) :
    (w.placed key value policy).calls = w.calls := by
  unfold placed
  cases w.cache.find? key <;> rfl

theorem now_placed (key : Key) (value : ν) (policy : Option (Policy η)) (w : World ν η μ) :
    (w.placed key value policy).now = w.now := by
  unfold placed
  cases w.cache.find? key <;> rfl

/-- The line of an insertion, and that of its predecessor's departure. -/
def placedLines (key : Key) (value : ν) (policy : Option (Policy η)) (w : World ν η μ) :
    List (Line ν η) :=
  let after := w.change (.insert w.now key value policy)
  let came := after.line (.inserted w.cache.nextGeneration key value)
  match w.cache.find? key with
  | none => [came]
  | some old => [after.line (.left old.generation key old.value .replaced), came]

theorem journal_placed (key : Key) (value : ν) (policy : Option (Policy η)) (w : World ν η μ) :
    (w.placed key value policy).journal = w.placedLines key value policy ++ w.journal := by
  unfold placed placedLines
  cases w.cache.find? key <;> rfl

theorem tended_eq (policy : Option (Policy η)) (w : World ν η μ) :
    ∃ timer, w.tended policy = w.change (.setTimer timer) := by
  unfold tended
  split
  · unfold change Cache.ensureTimer
    split
    · exact ⟨w.cache.timer, rfl⟩
    · exact ⟨some .starting, rfl⟩
  · exact ⟨w.cache.timer, rfl⟩

@[simp] theorem calls_tended (policy : Option (Policy η)) (w : World ν η μ) :
    (w.tended policy).calls = w.calls := by
  obtain ⟨timer, h⟩ := w.tended_eq policy
  rw [h]
  rfl

@[simp] theorem now_tended (policy : Option (Policy η)) (w : World ν η μ) :
    (w.tended policy).now = w.now := by
  obtain ⟨timer, h⟩ := w.tended_eq policy
  rw [h]
  rfl

@[simp] theorem journal_tended (policy : Option (Policy η)) (w : World ν η μ) :
    (w.tended policy).journal = w.journal := by
  obtain ⟨timer, h⟩ := w.tended_eq policy
  rw [h]
  rfl

@[simp] theorem find?_tended (policy : Option (Policy η)) (w : World ν η μ) (key : Key) :
    (w.tended policy).cache.find? key = w.cache.find? key := by
  obtain ⟨timer, h⟩ := w.tended_eq policy
  rw [h]
  rfl

@[simp] theorem settings_tended (policy : Option (Policy η)) (w : World ν η μ) :
    (w.tended policy).cache.settings = w.cache.settings := by
  obtain ⟨timer, h⟩ := w.tended_eq policy
  rw [h]
  rfl

end World

namespace Move

variable {level : Nat} {w w' : World ν η μ}

theorem lower {low : Nat} (hl : low ≤ level) (h : Move level w w') : Move low w w' := by
  cases h with
  | clock t ht => exact .clock t ht
  | memory m => exact .memory m
  | note r hr h => exact .note r hr h
  | tune f hb => exact .tune f hb
  | touch key => exact .touch key
  | enter a ha => exact .enter a ha
  | leave a ha rest hc => exact .leave a ha rest hc
  | mark key g e he hp => exact .mark key g e he hp
  | unmark key g rest hc => exact .unmark key g rest hc
  | acquire key acquired slot ha => exact .acquire key acquired slot ha
  | dismiss key slot rest hc => exact .dismiss key slot rest hc
  | place key value policy => exact .place key value policy
  | takeOut key e exit f hf hlaw => exact .takeOut key e exit f hf hlaw
  | empty => exact .empty
  | close => exact .close
  | retire hn => exact .retire hn
  | beat h0 timer => exact .beat (by omega) timer

theorem settings (h : Move level w w') : w'.cache.settings = w.cache.settings := by
  cases h with
  | tune f hb => exact hb.settings
  | place =>
    rw [World.settings_tended, World.cache_placed]
    rfl
  | empty =>
    rw [World.emptied_eq]
    rfl
  | close =>
    rw [World.emptied_eq]
    rfl
  | _ => rfl

theorem hosting (h : Move level w w') : w'.cache.hosting = w.cache.hosting := by
  cases h with
  | tune f hb => exact hb.hosting
  | place key value policy =>
    obtain ⟨timer, ht⟩ := (w.placed key value policy).tended_eq policy
    rw [ht, World.cache_change, World.cache_placed]
    rfl
  | empty =>
    rw [World.emptied_eq]
    rfl
  | close =>
    rw [World.emptied_eq]
    rfl
  | _ => rfl

theorem now_le (h : Move level w w') : w.now ≤ w'.now := by
  have refl : ∀ t : Instant, t ≤ t := fun t => Int.le_refl t.nanos
  cases h with
  | clock t ht => exact ht
  | place =>
    rw [World.now_tended, World.now_placed]
    exact refl _
  | empty =>
    rw [World.emptied_eq]
    exact refl _
  | close =>
    rw [World.emptied_eq]
    exact refl _
  | _ => exact refl _

theorem journal (h : Move level w w') : w.journal <:+ w'.journal := by
  cases h with
  | note => exact List.suffix_cons _ _
  | takeOut => exact List.suffix_cons _ _
  | place =>
    rw [World.journal_tended, World.journal_placed]
    exact List.suffix_append _ _
  | empty =>
    rw [World.emptied_eq]
    exact List.suffix_append _ _
  | close =>
    rw [World.emptied_eq]
    exact List.suffix_append _ _
  | _ => exact List.suffix_refl _

end Move

/-- The same insertion later: at most its mark and its policy's deadline have changed, the latter by
an access at `now`. -/
structure Entry.Continues (now : Instant) (e e' : Entry ν η) : Prop where
  generation : e'.generation = e.generation
  value : e'.value = e.value
  createdAt : e'.createdAt = e.createdAt
  policy : e'.policy = e.policy ∨ e'.policy = e.policy.map (·.accessed now)

theorem Entry.Continues.refl (now : Instant) (e : Entry ν η) : e.Continues now e :=
  ⟨rfl, rfl, rfl, Or.inl rfl⟩

theorem Entry.Continues.canExpire {now : Instant} {e e' : Entry ν η} (h : e.Continues now e') :
    e'.canExpire = e.canExpire := by
  unfold Entry.canExpire
  rcases h.policy with hp | hp <;> simp [hp]

/-- Setting a mark and clearing it leaves the cache as it was. -/
theorem Cache.mark_mark {c : Cache ν η} {key : Key} {g : Nat}
    (hp : ∀ e, c.find? key = some e → e.pending = false) :
    (c.mark true key g).mark false key g = c := by
  have hrows : ((c.mark true key g).mark false key g).entries = c.entries := by
    refine Table.ext_rows ?_
    simp only [mark, Table.modify, List.map_map]
    refine (List.map_congr_left ?_).trans (List.map_id _)
    intro r hr
    by_cases hk : r.1 = key
    · have hpend := hp r.2 (hk ▸ Table.get?_eq_some_iff.mpr hr)
      obtain ⟨k, value, p, created, accessed, h, b⟩ := r
      subst hpend
      by_cases hg : h = g
      · simp_all
      · simp_all
    · simp [hk]
  show { c with entries := ((c.mark true key g).mark false key g).entries } = c
  rw [hrows]

theorem Cache.continues_mark {c : Cache ν η} {pending : Bool} {key j : Key} {g : Nat}
    {e' : Entry ν η} (now : Instant) (h : (c.mark pending key g).find? j = some e') :
    ∃ e, c.find? j = some e ∧ e.Continues now e' := by
  obtain ⟨e, he, marked, rfl⟩ := exists_of_find?_mark h
  exact ⟨e, he, rfl, rfl, rfl, .inl rfl⟩

theorem Cache.continues_touch {c : Cache ν η} {key j : Key} {e' : Entry ν η} (now : Instant)
    (h : (c.touch now key).find? j = some e') : ∃ e, c.find? j = some e ∧ e.Continues now e' := by
  obtain ⟨e, he, rfl | ⟨-, rfl⟩⟩ := exists_of_find?_touch h
  · exact ⟨e', he, .refl now e'⟩
  · exact ⟨e, he, rfl, rfl, rfl, .inr rfl⟩

theorem Cache.Beside.find? {c d : Cache ν η} (h : c.Beside d) (key : Key) :
    d.find? key = c.find? key := by
  unfold Cache.find?
  rw [h.entries]

namespace Move

variable {level : Nat} {w w' : World ν η μ}

/-- What is stored after a move came in with it or was stored before. -/
theorem stored (h : Move level w w') {key : Key} {e' : Entry ν η}
    (he : w'.cache.find? key = some e') :
    (∃ value policy, e' = .insertedAt w.now value policy w.cache.nextGeneration) ∨
      ∃ e, w.cache.find? key = some e ∧ e.Continues w.now e' := by
  have same : w.cache.find? key = some e' →
      (∃ value policy, e' = .insertedAt w.now value policy w.cache.nextGeneration) ∨
      ∃ e, w.cache.find? key = some e ∧ e.Continues w.now e' :=
    fun h => Or.inr ⟨e', h, .refl w.now e'⟩
  cases h with
  | tune f hb =>
    rw [World.cache_change, hb.find?] at he
    exact same he
  | touch => exact Or.inr (Cache.continues_touch w.now he)
  | mark => exact Or.inr (Cache.continues_mark w.now he)
  | unmark => exact Or.inr (Cache.continues_mark w.now he)
  | place j value policy =>
    rw [World.find?_tended, World.cache_placed] at he
    rcases Cache.find?_insert_eq_some.mp he with ⟨-, rfl⟩ | ⟨-, he⟩
    · exact Or.inl ⟨value, policy, rfl⟩
    · exact same he
  | takeOut => exact same (Cache.find?_takeOut_eq_some.mp he).2
  | empty =>
    rw [World.emptied_eq] at he
    cases he
  | close =>
    rw [World.emptied_eq] at he
    cases he
  | _ => exact same he

end Move

namespace Moves

variable {level : Nat} {w w' : World ν η μ}

theorem lower {low : Nat} (hl : low ≤ level) (h : Moves level w w') : Moves low w w' := by
  induction h with
  | refl => exact .refl
  | tail _ hm ih => exact ih.tail (hm.lower hl)

theorem settings (h : Moves level w w') : w'.cache.settings = w.cache.settings := by
  induction h with
  | refl => rfl
  | tail _ hm ih => rw [hm.settings, ih]

theorem hosting (h : Moves level w w') : w'.cache.hosting = w.cache.hosting := by
  induction h with
  | refl => rfl
  | tail _ hm ih => rw [hm.hosting, ih]

theorem now_le (h : Moves level w w') : w.now ≤ w'.now := by
  induction h with
  | refl => exact Int.le_refl _
  | tail _ hm ih => exact Int.le_trans ih hm.now_le

theorem journal (h : Moves level w w') : w.journal <:+ w'.journal := by
  induction h with
  | refl => exact List.suffix_refl _
  | tail _ hm ih => exact ih.trans hm.journal

end Moves

end ExpiringCache
