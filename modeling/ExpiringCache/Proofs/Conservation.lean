import ExpiringCache.Proofs.Stretches
import ExpiringCache.Proofs.Sweeping
import ExpiringCache.Proofs.TimedMap
import Mathlib.Data.List.Forall2

/-!
# No entry gets lost

Whatever came in is stored, has expired, was removed or was replaced, and the counters say how many
of each there are. A round of handlers that was completed is counted as an expiration, or as a
cancellation, or came too late and is not counted.
-/

namespace ExpiringCache

variable {ν η μ : Type}

/-- An insertion that nobody vetoed leaves if it is there and expired. -/
def Upshot.ofAnswer : Option Bool → Upshot
  | some true => .evicted
  | some false => .stale
  | none => .unwound

namespace Line

def exits (x : Exit) (l : Line ν η) : Bool :=
  match l.record with
  | .left _ _ _ y => y = x
  | _ => false

def completes (l : Line ν η) : Bool :=
  match l.record with
  | .decided .. => true
  | _ => false

/-- The host is called, or an operation ends. -/
def isMoment (l : Line ν η) : Bool :=
  match l.record with
  | .entered _ => true
  | .finished _ => true
  | _ => false

def isCounted (l : Line ν η) : Bool := l.record.isPassage || l.completes

/-- After `l` its policy was asked, which wrote `asked`. -/
inductive Asks (l : Line ν η) : Policy η → Option Bool → List (Line ν η) → Prop
  | timed {policy : Policy η} (h : policy.isTimed = true) :
      Asks l policy (some (Policy.reached policy.deadline? l.now)) []
  | custom (predicate : η) (answer : Option Bool) :
      Asks l (.custom predicate) answer [⟨.consulted predicate answer, l.now, l.calls, l.cache⟩]

/-- After `l`, is the insertion `g` of `key` stored, and is it expired? -/
inductive Examines (l : Line ν η) (key : Key) (g : Nat) : Option Bool → List (Line ν η) → Prop
  | gone (h : l.cache.insertion? key g = none) : Examines l key g (some false) []
  | timeless {e : Entry ν η} (he : l.cache.insertion? key g = some e) (hp : e.policy = none) :
      Examines l key g (some false) []
  | asked {e : Entry ν η} {policy : Policy η} {answer : Option Bool} {asked : List (Line ν η)}
      (he : l.cache.insertion? key g = some e) (hp : e.policy = some policy)
      (ha : l.Asks policy answer asked) : Examines l key g answer asked

/-- What the round comes to that `l` completes, going by the lines since, newest first. -/
inductive Concludes (l : Line ν η) (later : List (Line ν η)) : Upshot → Prop
  | cancelled (h : l.vetoes = true) : Concludes l later .cancelled
  | examined {g : Nat} {key : Key} {value : ν} {answers : List Decision} {answer : Option Bool}
      {asked : List (Line ν η)} (hl : l.record = .decided g key value answers)
      (hno : l.vetoes = false) (hx : l.Examines key g answer asked) (hs : asked <:+ later)
      (hgone : answer = some true → ∃ e, l.cache.insertion? key g = some e ∧
        ⟨.left g key e.value .expired, l.now, l.calls, l.cache.takeOut key .expiration⟩ :: asked <:+
          later) : Concludes l later (.ofAnswer answer)

end Line

/-- The completed rounds, each with the lines since. -/
def rounds : List (Line ν η) → List (Line ν η × List (Line ν η))
  | [] => []
  | l :: before =>
    (if l.completes then [(l, [])] else []) ++ (rounds before).map fun r => (r.1, l :: r.2)

/-- The counters agree with the entries and with the journal. -/
structure Balanced (c : Cache ν η) (journal : List (Line ν η)) : Prop where
  inserted : journal.countP (·.stores) = c.entries.size + c.stats.expirations + c.stats.removals +
    journal.countP (·.exits .replaced)
  expirations : c.stats.expirations = journal.countP (·.exits .expired)
  removals : c.stats.removals =
    journal.countP (·.exits .removed) + journal.countP (·.exits .cleared)
  cancelled : c.stats.cancelled = journal.countP (·.vetoes)

/-- Each completed round came to something, so many to evictions and so many to a cancellation. -/
def Tallied (s : Stats) (journal : List (Line ν η)) : Prop :=
  ∃ us, List.Forall₂ (fun r u => r.1.Concludes r.2 u) (rounds journal) us ∧
    s.expirations = us.count .evicted ∧ s.cancelled = us.count .cancelled

structure Accounted (c : Cache ν η) (journal : List (Line ν η)) : Prop where
  balanced : Balanced c journal
  tallied : Tallied c.stats journal

/-! ## Rounds and what they come to -/

namespace Line

variable {l : Line ν η} {later : List (Line ν η)}

theorem Asks.answer_unique {policy : Policy η} {answer answer' : Option Bool}
    {asked asked' : List (Line ν η)} (h : l.Asks policy answer asked) (hs : asked <:+ later)
    (h' : l.Asks policy answer' asked') (hs' : asked' <:+ later) : answer = answer' := by
  cases h with
  | timed ht =>
    cases h' with
    | timed => rfl
    | custom => cases ht
  | custom predicate answer =>
    cases h' with
    | timed ht => cases ht
    | custom _ answer' =>
      -- both wrote one line, and it is the first one since
      obtain ⟨new, hnew⟩ := hs
      obtain ⟨new', rfl⟩ := hs'
      have hlast := List.append_inj_right' hnew rfl
      simp only [List.cons.injEq, Line.mk.injEq, Record.consulted.injEq] at hlast
      exact hlast.1.1.2

theorem Examines.answer_unique {key : Key} {g : Nat} {answer answer' : Option Bool}
    {asked asked' : List (Line ν η)} (h : l.Examines key g answer asked) (hs : asked <:+ later)
    (h' : l.Examines key g answer' asked') (hs' : asked' <:+ later) : answer = answer' := by
  cases h with
  | gone he =>
    cases h' with
    | asked he' => rw [he] at he'; cases he'
    | _ => rfl
  | timeless he hp =>
    cases h' with
    | asked he' hp' => rw [he] at he'; cases he'; rw [hp] at hp'; cases hp'
    | _ => rfl
  | asked he hp ha =>
    cases h' with
    | gone he' => rw [he] at he'; cases he'
    | timeless he' hp' => rw [he] at he'; cases he'; rw [hp] at hp'; cases hp'
    | asked he' hp' ha' =>
      rw [he] at he'
      cases he'
      rw [hp] at hp'
      cases hp'
      exact ha.answer_unique hs ha' hs'

theorem Concludes.unique {u u' : Upshot} (h : l.Concludes later u) (h' : l.Concludes later u') :
    u = u' := by
  cases h with
  | cancelled hv =>
    cases h' with
    | cancelled => rfl
    | examined _ hno => rw [hv] at hno; cases hno
  | examined hl hno hx hs =>
    cases h' with
    | cancelled hv => rw [hv] at hno; cases hno
    | examined hl' _ hx' hs' =>
      rw [hl] at hl'
      cases hl'
      rw [hx.answer_unique hs hx' hs']

theorem Concludes.more {u : Upshot} (h : l.Concludes later u) (new : List (Line ν η)) :
    l.Concludes (new ++ later) u := by
  cases h with
  | cancelled hv => exact .cancelled hv
  | examined hl hno hx hs hgone =>
    refine .examined hl hno hx (hs.trans (List.suffix_append new later)) ?_
    intro ha
    obtain ⟨e, he, hs⟩ := hgone ha
    exact ⟨e, he, hs.trans (List.suffix_append new later)⟩

end Line

theorem rounds_append (new old : List (Line ν η)) : rounds (new ++ old) =
    rounds new ++ (rounds old).map fun r => (r.1, new ++ r.2) := by
  induction new with
  | nil => simp [rounds]
  | cons l new ih => simp [rounds, ih, Function.comp_def]

theorem rounds_eq_nil {seg : List (Line ν η)} (h : ∀ l ∈ seg, l.completes = false) :
    rounds seg = [] := by
  induction seg with
  | nil => rfl
  | cons l seg ih =>
    have hl := h l (List.mem_cons_self ..)
    have hseg := ih fun m hm => h m (List.mem_cons_of_mem _ hm)
    simp [rounds, hl, hseg]

theorem rounds_append_singleton {l : Line ν η} (seg : List (Line ν η))
    (h : ∀ m ∈ seg, m.completes = false) (hl : l.completes = true) :
    rounds (seg ++ [l]) = [(l, seg)] := by
  rw [rounds_append, rounds_eq_nil h]
  simp [rounds, hl]

theorem Tallied.append {s s' : Stats} {old : List (Line ν η)} (h : Tallied s old)
    (new : List (Line ν η)) (us : List Upshot)
    (hnew : List.Forall₂ (fun r u => r.1.Concludes r.2 u) (rounds new) us)
    (he : s'.expirations = s.expirations + us.count .evicted)
    (hc : s'.cancelled = s.cancelled + us.count .cancelled) : Tallied s' (new ++ old) := by
  obtain ⟨vs, hold, hev, hcv⟩ := h
  refine ⟨us ++ vs, ?_, ?_, ?_⟩
  · have hlater : List.Forall₂ (fun r u => r.1.Concludes r.2 u)
        ((rounds old).map fun r => (r.1, new ++ r.2)) vs :=
      List.forall₂_map_left_iff.mpr (hold.imp fun r u hr => hr.more new)
    rw [rounds_append]
    exact List.rel_append hnew hlater
  · rw [List.count_append]
    omega
  · rw [List.count_append]
    omega

/-- What an examination writes after a line, by that line. -/
theorem World.Examines.told {w v : World ν η μ} {r : Record ν η} {key : Key} {g : Nat}
    {answer : Option Bool} (h : (w.note r).Examines key g answer v) :
    ∃ asked, (w.line r).Examines key g answer asked ∧ v.journal = asked ++ w.line r :: w.journal ∧
      v.cache = w.cache ∧ v.now = w.now ∧ v.calls = w.calls ∧
      ∀ l ∈ asked, l.consults = true ∧ l.cache = w.cache := by
  cases h with
  | gone he => exact ⟨[], .gone he, rfl, rfl, rfl, rfl, by simp⟩
  | timeless e he hp => exact ⟨[], .timeless he hp, rfl, rfl, rfl, rfl, by simp⟩
  | asked e policy answer v he hp ha =>
    cases ha with
    | timed ht => exact ⟨[], .asked he hp (.timed ht), rfl, rfl, rfl, rfl, by simp⟩
    | custom predicate answer m =>
      refine ⟨[_], .asked he hp (.custom predicate answer), rfl, rfl, rfl, rfl, ?_⟩
      intro l hl
      rw [List.mem_singleton.mp hl]
      exact ⟨rfl, rfl⟩

/-! ## What a line does to the accounts -/

theorem Line.uncounted {l : Line ν η} (h : l.isCounted = false) : l.stores = false ∧
    (∀ x, l.exits x = false) ∧ l.vetoes = false ∧ l.completes = false := by
  obtain ⟨record, now, calls, cache⟩ := l
  cases record <;> first | exact ⟨rfl, fun _ => rfl, rfl, rfl⟩ | cases h

theorem Line.isCounted_of_remark {l : Line ν η} (h : l.record.isRemark = true) :
    l.isCounted = false := by
  obtain ⟨record, now, calls, cache⟩ := l
  cases record <;> first | rfl | cases h

theorem Line.idle_of_consults {l : Line ν η} (h : l.consults = true) :
    l.isCounted = false ∧ l.completes = false ∧ l.isMoment = false := by
  obtain ⟨record, now, calls, cache⟩ := l
  cases record <;> first | exact ⟨rfl, rfl, rfl⟩ | cases h

theorem countP_uncounted {seg : List (Line ν η)} (h : ∀ l ∈ seg, l.isCounted = false) :
    seg.countP (·.stores) = 0 ∧ (∀ x, seg.countP (·.exits x) = 0) ∧ seg.countP (·.vetoes) = 0 ∧
      rounds seg = [] := by
  have none : ∀ p : Line ν η → Bool, (∀ l ∈ seg, p l = false) → seg.countP p = 0 := by
    intro p hp
    exact List.countP_eq_zero.mpr fun l hl => by simp [hp l hl]
  refine ⟨?_, ?_, ?_, ?_⟩
  · exact none _ fun l hl => (Line.uncounted (h l hl)).1
  · exact fun x => none _ fun l hl => (Line.uncounted (h l hl)).2.1 x
  · exact none _ fun l hl => (Line.uncounted (h l hl)).2.2.1
  · exact rounds_eq_nil fun l hl => (Line.uncounted (h l hl)).2.2.2

variable {c d : Cache ν η} {new old : List (Line ν η)}

theorem Balanced.append (h : Balanced c old) (new : List (Line ν η))
    (hi : new.countP (·.stores) + c.entries.size + c.stats.expirations + c.stats.removals =
      d.entries.size + d.stats.expirations + d.stats.removals + new.countP (·.exits .replaced))
    (hx : d.stats.expirations = c.stats.expirations + new.countP (·.exits .expired))
    (hr : d.stats.removals = c.stats.removals + new.countP (·.exits .removed) +
      new.countP (·.exits .cleared))
    (hc : d.stats.cancelled = c.stats.cancelled + new.countP (·.vetoes)) :
    Balanced d (new ++ old) := by
  obtain ⟨h1, h2, h3, h4⟩ := h
  refine ⟨?_, ?_, ?_, ?_⟩ <;> simp only [List.countP_append] <;> omega

theorem Balanced.uncounted (h : Balanced c old) (new : List (Line ν η))
    (hnew : ∀ l ∈ new, l.isCounted = false)
    (hs : d.entries.size = c.entries.size) (he : d.stats.expirations = c.stats.expirations)
    (hr : d.stats.removals = c.stats.removals) (hc : d.stats.cancelled = c.stats.cancelled) :
    Balanced d (new ++ old) := by
  obtain ⟨h1, h2, h3, -⟩ := countP_uncounted hnew
  refine h.append new ?_ ?_ ?_ ?_ <;> simp only [h1, h2, h3] <;> omega

theorem Tallied.incomplete {s s' : Stats} (h : Tallied s old) (new : List (Line ν η))
    (hnew : rounds new = [])
    (he : s'.expirations = s.expirations) (hc : s'.cancelled = s.cancelled) :
    Tallied s' (new ++ old) := by
  refine h.append new [] ?_ (by simpa using he) (by simpa using hc)
  rw [hnew]
  exact .nil

theorem Accounted.uncounted (h : Accounted c old) (new : List (Line ν η))
    (hnew : ∀ l ∈ new, l.isCounted = false)
    (hs : d.entries.size = c.entries.size) (he : d.stats.expirations = c.stats.expirations)
    (hr : d.stats.removals = c.stats.removals) (hc : d.stats.cancelled = c.stats.cancelled) :
    Accounted d (new ++ old) :=
  ⟨h.balanced.uncounted new hnew hs he hr hc,
    h.tallied.incomplete new (countP_uncounted hnew).2.2.2 he hc⟩

/-! ## At every moment -/

/-- The accounts were in order whenever the host was called and whenever an operation ended. -/
def Audited (journal : List (Line ν η)) : Prop :=
  ∀ l before, l :: before <:+ journal →
    (l.isMoment = true → Accounted l.cache (l :: before)) ∧
    (l.consults = true → Balanced l.cache (l :: before))

theorem Audited.cons {l : Line ν η} (h : Audited old)
    (hm : l.isMoment = true → Accounted l.cache (l :: old))
    (hc : l.consults = true → Balanced l.cache (l :: old)) : Audited (l :: old) := by
  intro m before hs
  rcases List.suffix_cons_iff.mp hs with he | hs
  · cases he
    exact ⟨hm, hc⟩
  · exact h m before hs

theorem Audited.quiet (h : Audited old)
    (hnew : ∀ l ∈ new, l.isMoment = false ∧ l.consults = false) : Audited (new ++ old) := by
  induction new with
  | nil => exact h
  | cons l new ih =>
    obtain ⟨hm, hc⟩ := hnew l (List.mem_cons_self ..)
    refine Audited.cons (ih fun m hm => hnew m (List.mem_cons_of_mem _ hm)) ?_ ?_
    · simp [hm]
    · simp [hc]

theorem Audited.asked (h : Audited old) (hb : Balanced c old)
    (hnew : ∀ l ∈ new, l.consults = true ∧ l.cache = c) : Audited (new ++ old) := by
  induction new with
  | nil => exact h
  | cons l new ih =>
    have hrest : ∀ m ∈ new, m.consults = true ∧ m.cache = c :=
      fun m hm => hnew m (List.mem_cons_of_mem _ hm)
    obtain ⟨hl, hlc⟩ := hnew l (List.mem_cons_self ..)
    refine Audited.cons (ih hrest) ?_ ?_
    · simp [(Line.idle_of_consults hl).2.2]
    · intro _
      rw [hlc]
      refine Balanced.uncounted hb (l :: new) ?_ rfl rfl rfl rfl
      exact fun m hm => (Line.idle_of_consults (hnew m hm).1).1

/-- The accounts are in order, and they were at every moment before. -/
def Kept (w : World ν η μ) : Prop := Accounted w.cache w.journal ∧ Audited w.journal

namespace Kept

variable {w v : World ν η μ}

theorem fresh (settings : Settings η) (hosting : Hosting) (t : Instant) (memory : μ) :
    Kept (World.fresh settings hosting t memory : World ν η μ) := by
  refine ⟨⟨⟨rfl, rfl, rfl, rfl⟩, [], .nil, rfl, rfl⟩, ?_⟩
  intro l before hs
  cases List.eq_nil_of_suffix_nil hs

theorem silent (h : Kept w) (hj : v.journal = w.journal)
    (hs : v.cache.entries.size = w.cache.entries.size) (hst : v.cache.stats = w.cache.stats) :
    Kept v := by
  refine ⟨?_, hj ▸ h.2⟩
  have ha := h.1.uncounted (d := v.cache) [] (fun l hl => by cases hl) hs
    (by rw [hst]) (by rw [hst]) (by rw [hst])
  rwa [List.nil_append, ← hj] at ha

theorem note {r : Record ν η} (h : Kept w) (hr : r.isRemark = true) : Kept (w.note r) := by
  have ha : Accounted w.cache (w.line r :: w.journal) := by
    refine h.1.uncounted [w.line r] ?_ rfl rfl rfl rfl
    intro l hl
    rw [List.mem_singleton.mp hl]
    exact Line.isCounted_of_remark hr
  exact ⟨ha, h.2.cons (fun _ => ha) fun _ => ha.balanced⟩

theorem read (h : Kept w) (key : Key) (found : Bool) :
    Kept ((w.change (.count fun s => if found then s.hit else s.miss)).note (.read key found)) := by
  refine ⟨?_, h.2.cons (fun hm => by cases hm) fun hc => by cases hc⟩
  refine h.1.uncounted [_] ?_ rfl ?_ ?_ ?_
  · intro l hl
    rw [List.mem_singleton.mp hl]
    rfl
  all_goals cases found <;> rfl

theorem place (h : Kept w) (key : Key) (value : ν) (policy : Option (Policy η)) :
    Kept (w.placed key value policy) := by
  unfold Kept
  rw [World.cache_placed, World.journal_placed]
  unfold World.placedLines
  cases hf : w.cache.find? key with
  | none =>
    refine ⟨⟨h.1.balanced.append _ ?_ rfl rfl rfl, h.1.tallied.incomplete _ rfl rfl rfl⟩,
      h.2.quiet ?_⟩
    · have hsize : (w.cache.insert w.now key value policy).entries.size =
        w.cache.entries.size + 1 := Table.size_put_of_none hf _
      show 1 + w.cache.entries.size + w.cache.stats.expirations + w.cache.stats.removals =
        (w.cache.insert w.now key value policy).entries.size + w.cache.stats.expirations +
          w.cache.stats.removals + 0
      omega
    · simp [Line.isMoment, Line.consults, World.line]
  | some old =>
    refine ⟨⟨h.1.balanced.append _ ?_ rfl rfl rfl, h.1.tallied.incomplete _ rfl rfl rfl⟩,
      h.2.quiet ?_⟩
    · have hsize : (w.cache.insert w.now key value policy).entries.size =
        w.cache.entries.size := Table.size_put_of_some hf _
      show 1 + w.cache.entries.size + w.cache.stats.expirations + w.cache.stats.removals =
        (w.cache.insert w.now key value policy).entries.size + w.cache.stats.expirations +
          w.cache.stats.removals + 1
      omega
    · simp [Line.isMoment, Line.consults, World.line]

theorem remove (h : Kept w) (key : Key) {e : Entry ν η} (hf : w.cache.find? key = some e) :
    Kept ((w.change (.takeOut key (.removed 1))).note
      (.left e.generation key e.value .removed)) := by
  refine ⟨⟨?_, ?_⟩, h.2.cons (fun hm => by cases hm) fun hc => by cases hc⟩
  · refine h.1.balanced.append [_] ?_ rfl rfl rfl
    have hsize : (w.cache.entries.erase key).size + 1 = w.cache.entries.size :=
      Table.size_erase_of_some hf
    show 0 + w.cache.entries.size + w.cache.stats.expirations + w.cache.stats.removals =
      (w.cache.entries.erase key).size + w.cache.stats.expirations +
        (w.cache.stats.removals + 1) + 0
    omega
  · exact h.1.tallied.incomplete [_] rfl rfl rfl

theorem countP_clearedLines {p : Line ν η → Bool} {b : Bool} (rows : List (Key × Entry ν η))
    (w : World ν η μ) (h : ∀ g key value, p (w.line (.left g key value .cleared)) = b) :
    (w.clearedLines rows).countP p = if b then rows.length else 0 := by
  induction rows with
  | nil => simp [World.clearedLines]
  | cons r rows ih =>
    have hcons : w.clearedLines (r :: rows) = w.clearedLines rows ++
        [w.line (.left r.2.generation r.1 r.2.value .cleared)] := by simp [World.clearedLines]
    rw [hcons, List.countP_append, ih]
    cases b <;> simp [h]

theorem empty (h : Kept w) : Kept w.emptied := by
  have cleared : ∀ l ∈ (w.change .drain).clearedLines w.cache.entries.rows,
      l.completes = false ∧ l.isMoment = false ∧ l.consults = false := by
    intro l hl
    obtain ⟨r, -, rfl⟩ := List.mem_map.mp (List.mem_reverse.mp hl)
    exact ⟨rfl, rfl, rfl⟩
  have none : ∀ p : Line ν η → Bool, (∀ g key value,
      p ((w.change .drain).line (.left g key value .cleared)) = false) →
      ((w.change .drain).clearedLines w.cache.entries.rows).countP p = 0 :=
    fun p hp => countP_clearedLines (b := false) _ _ hp
  have all : ((w.change .drain).clearedLines w.cache.entries.rows).countP (·.exits .cleared) =
      w.cache.entries.size := countP_clearedLines (b := true) _ _ fun _ _ _ => rfl
  unfold Kept
  rw [World.emptied_eq]
  refine ⟨⟨?_, ?_⟩, h.2.quiet fun l hl => (cleared l hl).2⟩
  · refine h.1.balanced.append _ ?_ ?_ ?_ ?_
    · rw [none _ fun _ _ _ => rfl, none _ fun _ _ _ => rfl]
      show 0 + w.cache.entries.size + w.cache.stats.expirations + w.cache.stats.removals =
        0 + w.cache.stats.expirations + (w.cache.stats.removals + w.cache.entries.size) + 0
      omega
    · rw [none _ fun _ _ _ => rfl]
      rfl
    · rw [none _ fun _ _ _ => rfl, all]
      rfl
    · rw [none _ fun _ _ _ => rfl]
      rfl
  · exact h.1.tallied.incomplete _ (rounds_eq_nil fun l hl => (cleared l hl).1) rfl rfl

theorem vetoed (h : Kept w) (g : Nat) (key : Key) (value : ν) {answers : List Decision}
    (hv : Decision.cancel ∈ answers) :
    Kept ((w.note (.decided g key value answers)).change (.count .cancellation)) := by
  have hveto : (w.line (.decided g key value answers)).vetoes = true := by
    simp [Line.vetoes, World.line, hv]
  refine ⟨⟨?_, ?_⟩, h.2.cons (fun hm => by cases hm) fun hc => by cases hc⟩
  · refine h.1.balanced.append [_] ?_ rfl rfl ?_
    · show 0 + w.cache.entries.size + w.cache.stats.expirations + w.cache.stats.removals =
        w.cache.entries.size + w.cache.stats.expirations + w.cache.stats.removals + 0
      omega
    · have hcount : [w.line (.decided g key value answers)].countP (·.vetoes) = 1 := by
        simp [hveto]
      exact congrArg (w.cache.stats.cancelled + ·) hcount.symm
  · exact h.1.tallied.append [_] [.cancelled] (.cons (.cancelled hveto) .nil) rfl rfl

theorem decided (h : Kept w) (g : Nat) (key : Key) (value : ν) {answers : List Decision}
    (hveto : (w.line (.decided g key value answers)).vetoes = false) :
    Balanced w.cache (w.line (.decided g key value answers) :: w.journal) ∧
      Audited (w.line (.decided g key value answers) :: w.journal) := by
  refine ⟨?_, h.2.cons (fun hm => by cases hm) fun hc => by cases hc⟩
  refine h.1.balanced.append [_] ?_ rfl rfl ?_
  · show 0 + w.cache.entries.size + w.cache.stats.expirations + w.cache.stats.removals =
      w.cache.entries.size + w.cache.stats.expirations + w.cache.stats.removals + 0
    omega
  · have hcount : [w.line (.decided g key value answers)].countP (·.vetoes) = 0 := by
      simp [hveto]
    exact congrArg (w.cache.stats.cancelled + ·) hcount.symm

theorem passed (h : Kept w) (g : Nat) (key : Key) (value : ν) {answers : List Decision}
    {answer : Option Bool} (hveto : (w.line (.decided g key value answers)).vetoes = false)
    (hx : (w.note (.decided g key value answers)).Examines key g answer v)
    (hne : answer ≠ some true) : Kept v := by
  obtain ⟨hbalanced, haudited⟩ := h.decided g key value hveto
  obtain ⟨asked, hex, hj, hc, -, -, hasked⟩ := hx.told
  have hround : rounds (asked ++ [w.line (.decided g key value answers)]) =
      [(w.line (.decided g key value answers), asked)] :=
    rounds_append_singleton _ (fun l hl => (Line.idle_of_consults (hasked l hl).1).2.1) rfl
  have hcount : (Upshot.ofAnswer answer == .evicted) = false ∧
      (Upshot.ofAnswer answer == .cancelled) = false := by
    match answer, hne with
    | none, _ => exact ⟨rfl, rfl⟩
    | some false, _ => exact ⟨rfl, rfl⟩
    | some true, hne => exact absurd rfl hne
  unfold Kept
  rw [hj, hc]
  refine ⟨⟨?_, ?_⟩, haudited.asked hbalanced hasked⟩
  · refine hbalanced.uncounted _ ?_ rfl rfl rfl rfl
    exact fun l hl => (Line.idle_of_consults (hasked l hl).1).1
  · rw [List.append_cons]
    refine h.1.tallied.append _ [.ofAnswer answer] ?_ ?_ ?_
    · rw [hround]
      refine .cons (.examined rfl hveto hex (List.suffix_refl _) ?_) .nil
      exact fun ha => absurd ha hne
    · simp [List.count_cons, hcount.1]
    · simp [List.count_cons, hcount.2]

theorem evicted (h : Kept w) (g : Nat) (key : Key) (value : ν) {answers : List Decision}
    {e : Entry ν η} (hveto : (w.line (.decided g key value answers)).vetoes = false)
    (he : w.cache.insertion? key g = some e)
    (hx : (w.note (.decided g key value answers)).Examines key g (some true) v) :
    Kept ((v.change (.takeOut key .expiration)).note (.left g key e.value .expired)) := by
  obtain ⟨hbalanced, haudited⟩ := h.decided g key value hveto
  obtain ⟨asked, hex, hj, hc, hn, hcalls, hasked⟩ := hx.told
  let gone : Line ν η :=
    (v.change (.takeOut key .expiration)).line (.left g key e.value .expired)
  have hgone : gone =
      ⟨.left g key e.value .expired, w.now, w.calls, w.cache.takeOut key .expiration⟩ := by
    simp only [gone, World.line, World.cache_change, World.now_change, World.calls_change, hn,
      hcalls, hc]
  have hround : rounds (gone :: (asked ++ [w.line (.decided g key value answers)])) =
      [(w.line (.decided g key value answers), gone :: asked)] := by
    refine rounds_append_singleton (gone :: asked) ?_ rfl
    intro l hl
    rcases List.mem_cons.mp hl with rfl | hl
    · rfl
    · exact (Line.idle_of_consults (hasked l hl).1).2.1
  have hold : Balanced w.cache (asked ++ w.line (.decided g key value answers) :: w.journal) :=
    hbalanced.uncounted _ (fun l hl => (Line.idle_of_consults (hasked l hl).1).1) rfl rfl rfl rfl
  unfold Kept
  rw [World.journal_note, World.cache_note, World.cache_change, World.journal_change, hj, hc]
  have haudited' := haudited.asked hbalanced hasked
  refine ⟨⟨?_, ?_⟩, haudited'.cons (fun hm => by cases hm) fun hc => by cases hc⟩
  · refine hold.append [gone] ?_ rfl rfl rfl
    have hsize : (w.cache.entries.erase key).size + 1 = w.cache.entries.size :=
      Table.size_erase_of_some (Cache.insertion?_eq_some.mp he).1
    show 0 + w.cache.entries.size + w.cache.stats.expirations + w.cache.stats.removals =
      (w.cache.entries.erase key).size + (w.cache.stats.expirations + 1) +
        w.cache.stats.removals + 0
    omega
  · rw [List.append_cons, ← List.cons_append]
    refine h.1.tallied.append _ [.evicted] ?_ rfl rfl
    refine hround ▸ .cons (.examined rfl hveto hex (List.suffix_cons _ _) ?_) .nil
    exact fun _ => ⟨e, he, hgone ▸ List.suffix_refl _⟩

theorem concluded (h : Kept w) (g : Nat) (key : Key) (value : ν) {answers : List Decision}
    {u : Upshot} (hno : Decision.cancel ∉ answers)
    (hv : (w.note (.decided g key value answers)).Commits key g u v) : Kept v := by
  have hveto : (w.line (.decided g key value answers)).vetoes = false := by
    simp [Line.vetoes, World.line, hno]
  cases hv with
  | stale hx => exact h.passed g key value hveto hx (by simp)
  | unwound hx => exact h.passed g key value hveto hx (by simp)
  | evicted e he hx => exact h.evicted g key value hveto he hx

end Kept

/-- Every stretch of work keeps the accounts in order. -/
theorem Stretch.kept {w v : World ν η μ} (h : Stretch w v) (hk : Kept w) : Kept v := by
  induction h with
  | still => exact hk
  | trans _ _ ih ih' => exact ih' (ih hk)
  | clock t ht => exact hk.silent rfl rfl rfl
  | memory m => exact hk.silent rfl rfl rfl
  | note r hr => exact hk.note hr
  | aside f hf => exact hk.silent rfl (congrArg Table.size hf.entries) hf.stats
  | touch key => exact hk.silent rfl (Table.size_modify ..) rfl
  | read key found => exact hk.read key found
  | place key value policy => exact hk.place key value policy
  | remove key e hf => exact hk.remove key hf
  | empty => exact hk.empty
  | vetoed g key value answers hv => exact hk.vetoed g key value hv
  | concluded g key value answers u hno hv => exact hk.concluded g key value hno hv
  | during a ha _ ih => exact (ih (hk.silent rfl rfl rfl)).silent rfl rfl rfl
  | deciding key g e he hp _ ih =>
    exact (ih (hk.silent rfl (Table.size_modify ..) rfl)).silent rfl (Table.size_modify ..) rfl
  | holding key acquired slot ha _ ih => exact (ih (hk.silent rfl rfl rfl)).silent rfl rfl rfl

variable {host : Host ν η μ} {settings : Settings η} {hosting : Hosting} {w : World ν η μ}

theorem Reachable.kept (h : Reachable host settings hosting w) : Kept w := by
  obtain ⟨t, memory, hs⟩ := h.stretch
  exact hs.kept (.fresh settings hosting t memory)

theorem Tallied.exists_unique {s : Stats} {journal : List (Line ν η)} (h : Tallied s journal) :
    ∀ r ∈ rounds journal, ∃! u, r.1.Concludes r.2 u := by
  obtain ⟨us, hus, -⟩ := h
  intro r hr
  obtain ⟨i, hi, rfl⟩ := List.mem_iff_getElem.mp hr
  have hu := hus.get hi (hus.length_eq ▸ hi)
  exact ⟨_, hu, fun u' hu' => hu'.unique hu⟩

/-- Entries are conserved. Whenever the host is called, whenever an operation ends and at the end of
every turn, be it cut short, what was inserted is what is stored, what has expired, what was removed
and what was replaced; as many entries have expired as were evicted, and as many expirations were
cancelled as rounds were completed with a veto. Each completed round came to exactly one thing: it
was cancelled, or its insertion was evicted at once, or that insertion was gone or not expired any
more, or its predicate panicked when it was asked once more. Evictions count as expirations,
cancellations as such, and the rest counts nowhere. -/
theorem entries_are_conserved (h : Reachable host settings hosting w) :
    Accounted w.cache w.journal ∧
    (∀ l before, l :: before <:+ w.journal →
      (l.isMoment = true → Accounted l.cache (l :: before)) ∧
      (l.consults = true → Balanced l.cache (l :: before))) ∧
    ∀ r ∈ rounds w.journal, ∃! u, r.1.Concludes r.2 u :=
  ⟨h.kept.1, h.kept.2, h.kept.1.tallied.exists_unique⟩

/-- Of the two entries stored one expired and the one that took its place was removed. -/
theorem expiredRead_is_conserved :
    World.expiredRead.journal.countP (·.stores) = 2 ∧ World.expiredRead.cache.entries.size = 0 ∧
      World.expiredRead.cache.stats.expirations = 1 ∧ World.expiredRead.cache.stats.removals = 1 ∧
      (rounds World.expiredRead.journal).length = 1 ∧
      Accounted World.expiredRead.cache World.expiredRead.journal ∧
      ∀ r ∈ rounds World.expiredRead.journal, ∃! u, r.1.Concludes r.2 u := by
  refine ⟨by decide +kernel, by decide +kernel, by decide +kernel, by decide +kernel,
    by decide +kernel, ?_⟩
  have hkept := entries_are_conserved (.between expiredRead_between)
  exact ⟨hkept.1, hkept.2.2⟩

end ExpiringCache
