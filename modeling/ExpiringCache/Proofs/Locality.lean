import ExpiringCache.Proofs.Deciding
import ExpiringCache.Proofs.Excerpts
import ExpiringCache.Proofs.Likeness
import ExpiringCache.Proofs.Nesting

/-!
# Work on one key

Where the host's functions only think and answer by what they are asked, and deadlines alone decide what
has expired, what an operation on a key comes to depends on the clock, the settings, the handlers and on
what is stored under that key. It leaves every other entry as it was. To the counters it adds its share,
and whether it starts the timer does not depend on whether it runs.
-/

namespace ExpiringCache

variable {ν η μ α β : Type}

/-- At `t` the host's functions only think, and they answer by what they are asked alone. -/
def Host.Answering (host : Host ν η μ) (t : Instant) (answer : (c : Callback ν η) → c.Answer) :
    Prop := ∀ c m, ((host.respond c).think t m).map Prod.fst = some (answer c)

/-! ## Shares -/

/-- The key a line is about. The numbers that insertions are given are nobody's business. -/
def Record.subject? : Record ν η → Option Key
  | entered c => some c.key
  | returned c _ => some c.key
  | unwound c => some c.key
  | left _ key _ _ => some key
  | offered _ key _ _ => some key
  | decided _ key _ _ => some key
  | announced _ key _ _ => some key
  | disposed _ key _ => some key
  | read key _ => some key
  | retried key => some key
  | consulted .. => none
  | inserted .. => none
  | finished _ => none

def Line.about? (key : Key) (l : Line ν η) : Option (Record ν η) :=
  if l.record.subject? = some key then some l.record else none

def Stats.plus (s t : Stats) : Stats :=
  ⟨s.hits + t.hits, s.misses + t.misses, s.expirations + t.expirations, s.cancelled + t.cancelled,
    s.removals + t.removals, s.total + t.total⟩

theorem Stats.plus_assoc (s t u : Stats) : (s.plus t).plus u = s.plus (t.plus u) := by
  simp only [plus, Nat.add_assoc]

theorem Stats.plus_comm (s t : Stats) : s.plus t = t.plus s := by
  simp only [plus, Nat.add_comm]

/-- The timer, started if need be. -/
def Timer.ensured (arms : Bool) (timer : Option Timer) : Option Timer :=
  if arms && !timer.any (·.isRunning) then some .starting else timer

theorem Timer.ensured_ensured (a b : Bool) (timer : Option Timer) :
    ensured b (ensured a timer) = ensured (a || b) timer := by
  rcases timer with _ | _ | _ | _ <;> cases a <;> cases b <;> rfl

/-- What an operation adds to the counters, whether it starts the timer, and what it writes of its key. -/
structure Share (ν η : Type) where
  tally : Stats
  arms : Bool
  story : List (Record ν η)

namespace Share

def nothing : Share ν η := ⟨.empty, false, []⟩

def told (story : List (Record ν η)) : Share ν η := ⟨.empty, false, story⟩

def counted (tally : Stats) : Share ν η := ⟨tally, false, []⟩

def armed (arms : Bool) : Share ν η := ⟨.empty, arms, []⟩

def parting (tally : Stats) (key : Key) (e : Entry ν η) (exit : Exit) : Share ν η :=
  ⟨tally, false, [.left e.generation key e.value exit]⟩

def replacing (key : Key) : Option (Entry ν η) → Share ν η
  | none => nothing
  | some old => parting .empty key old .replaced

instance : Append (Share ν η) :=
  ⟨fun x y => ⟨x.tally.plus y.tally, x.arms || y.arms, x.story ++ y.story⟩⟩

theorem append_nothing (x : Share ν η) : x ++ nothing = x := by
  show (⟨_, x.arms || false, x.story ++ []⟩ : Share ν η) = x
  rw [Bool.or_false, List.append_nil]
  rfl

end Share

/-! ## What concerns one key -/

/-- The cache is left alone, and `story` is written of `key`. -/
structure Told (key : Key) (story : List (Record ν η)) (w w' : World ν η μ) : Prop where
  now : w'.now = w.now
  calls : w'.calls = w.calls
  cache : w'.cache = w.cache
  lines : ∃ seg, w'.journal = seg ++ w.journal ∧
    ∀ j, excerpt (Line.about? j) seg = if j = key then story else []

namespace Told

variable {key : Key} {story more : List (Record ν η)} {w v u : World ν η μ}

theorem same (hn : v.now = w.now) (hc : v.calls = w.calls) (hcache : v.cache = w.cache)
    (hj : v.journal = w.journal) : Told key [] w v :=
  ⟨hn, hc, hcache, [], hj, fun _ => (ite_self _).symm⟩

theorem refl (w : World ν η μ) : Told key [] w w := same rfl rfl rfl rfl

theorem trans (h : Told key story w v) (k : Told key more v u) : Told key (story ++ more) w u := by
  obtain ⟨old, hold, ho⟩ := h.lines
  obtain ⟨new, hnew, hn⟩ := k.lines
  refine ⟨k.now.trans h.now, k.calls.trans h.calls, k.cache.trans h.cache, new ++ old, ?_, ?_⟩
  · rw [hnew, hold, List.append_assoc]
  · intro j
    rw [excerpt_append, ho, hn]
    split <;> rfl

theorem note {r : Record ν η} (hr : r.subject? = some key) (w : World ν η μ) :
    Told key [r] w (w.note r) := by
  refine ⟨rfl, rfl, rfl, [w.line r], rfl, fun j => ?_⟩
  rw [excerpt_singleton, Line.about?]
  show (if r.subject? = some j then some r else none).toList = _
  rw [hr]
  by_cases hj : j = key
  · rw [if_pos hj, if_pos (congrArg some hj.symm)]
    rfl
  · rw [if_neg hj, if_neg fun h => hj (Option.some.inj h).symm]
    rfl

/-- A line about nothing. -/
theorem silent {r : Record ν η} (hr : r.subject? = none) (w : World ν η μ) :
    Told key [] w (w.note r) := by
  refine ⟨rfl, rfl, rfl, [w.line r], rfl, fun j => ?_⟩
  rw [excerpt_singleton, Line.about?, ite_self]
  show (if r.subject? = some j then some r else none).toList = _
  rw [hr]
  rfl

theorem inside {a : Activity ν η} (h : Told key story (w.push a) v) : Told key story w v.pop :=
  ⟨h.now, by rw [World.calls_pop, h.calls]; rfl, h.cache, h.lines⟩

end Told

/-- The work concerns `key` only, with its share in everything else. -/
structure Concerns (key : Key) (x : Share ν η) (w w' : World ν η μ) : Prop where
  now : w'.now = w.now
  calls : w'.calls = w.calls
  settings : w'.cache.settings = w.cache.settings
  expiring : w'.cache.expiring = w.cache.expiring
  expired : w'.cache.expired = w.cache.expired
  handle : w'.cache.handle = w.cache.handle
  others : ∀ j, j ≠ key → w'.cache.find? j = w.cache.find? j
  stats : w'.cache.stats.withTotal 0 = (w.cache.stats.plus x.tally).withTotal 0
  timer : w'.cache.timer = Timer.ensured x.arms w.cache.timer
  lines : ∃ seg, w'.journal = seg ++ w.journal ∧
    ∀ j, excerpt (Line.about? j) seg = if j = key then x.story else []

namespace Concerns

variable {key : Key} {x y : Share ν η} {w v u : World ν η μ}

theorem of_told {story : List (Record ν η)} (h : Told key story w v) :
    Concerns key (.told story) w v := by
  have hc := h.cache
  exact ⟨h.now, h.calls, by rw [hc], by rw [hc], by rw [hc], by rw [hc], fun j _ => by rw [hc],
    by rw [hc]; rfl, by rw [hc]; rfl, h.lines⟩

theorem trans (h : Concerns key x w v) (k : Concerns key y v u) : Concerns key (x ++ y) w u := by
  obtain ⟨old, hold, ho⟩ := h.lines
  obtain ⟨new, hnew, hn⟩ := k.lines
  refine ⟨k.now.trans h.now, k.calls.trans h.calls, k.settings.trans h.settings,
    k.expiring.trans h.expiring, k.expired.trans h.expired, k.handle.trans h.handle,
    fun j hj => (k.others j hj).trans (h.others j hj), ?_, ?_, new ++ old, ?_, ?_⟩
  · calc u.cache.stats.withTotal 0 = ((v.cache.stats.withTotal 0).plus y.tally).withTotal 0 := k.stats
      _ = ((w.cache.stats.plus x.tally).plus y.tally).withTotal 0 := by rw [h.stats]; rfl
      _ = (w.cache.stats.plus (x ++ y).tally).withTotal 0 := by rw [Stats.plus_assoc]; rfl
  · rw [k.timer, h.timer, Timer.ensured_ensured]
    rfl
  · rw [hnew, hold, List.append_assoc]
  · intro j
    rw [excerpt_append, ho, hn]
    split <;> rfl

theorem told {story : List (Record ν η)} (h : Concerns key x w v) (k : Told key story v u) :
    Concerns key (x ++ .told story) w u := h.trans (.of_told k)

theorem quiet (h : Concerns key x w v) (k : Told key [] v u) : Concerns key x w u := by
  have hall := h.told k
  rwa [show Share.told [] = (Share.nothing : Share ν η) from rfl, Share.append_nothing] at hall

/-- A change that says how much it counts. -/
theorem change {f : Cache ν η → Cache ν η} {tally : Stats} {arms : Bool}
    (hrest : (f w.cache).settings = w.cache.settings ∧ (f w.cache).expiring = w.cache.expiring ∧
      (f w.cache).expired = w.cache.expired ∧ (f w.cache).handle = w.cache.handle)
    (hothers : ∀ j, j ≠ key → (f w.cache).find? j = w.cache.find? j)
    (hstats : (f w.cache).stats.withTotal 0 = (w.cache.stats.plus tally).withTotal 0)
    (htimer : (f w.cache).timer = Timer.ensured arms w.cache.timer) :
    Concerns key ⟨tally, arms, []⟩ w (w.change f) :=
  ⟨rfl, rfl, hrest.1, hrest.2.1, hrest.2.2.1, hrest.2.2.2, hothers, hstats, htimer, [], rfl,
    fun _ => (ite_self _).symm⟩

theorem count {f : Stats → Stats} {tally : Stats}
    (hf : (f w.cache.stats).withTotal 0 = (w.cache.stats.plus tally).withTotal 0) :
    Concerns key (.counted tally) w (w.change (.count f)) :=
  .change ⟨rfl, rfl, rfl, rfl⟩ (fun _ _ => rfl) hf rfl

theorem touch (t : Instant) : Concerns key .nothing w (w.change (.touch t key)) :=
  .change ⟨rfl, rfl, rfl, rfl⟩ (fun j hj => by rw [Cache.find?_touch, if_neg hj]) rfl rfl

theorem takeOut {f : Stats → Stats} {tally : Stats} {e : Entry ν η} {exit : Exit}
    (hf : (f w.cache.stats).withTotal 0 = (w.cache.stats.plus tally).withTotal 0) :
    Concerns key (.parting tally key e exit) w
      ((w.change (.takeOut key f)).note (.left e.generation key e.value exit)) := by
  have hout : Concerns key (.counted tally) w (w.change (.takeOut key f)) :=
    .change ⟨rfl, rfl, rfl, rfl⟩ (fun j hj => by rw [Cache.find?_takeOut, if_neg hj]) hf rfl
  exact hout.told (.note rfl _)

theorem insert (t : Instant) (value : ν) (policy : Option (Policy η)) :
    Concerns key .nothing w (w.change (.insert t key value policy)) :=
  .change ⟨rfl, rfl, rfl, rfl⟩ (fun j hj => by rw [Cache.find?_insert, if_neg hj]) rfl rfl

theorem ensureTimer : Concerns key (.armed true) w (w.change .ensureTimer) := by
  have hcases : w.cache.ensureTimer = w.cache ∧ w.cache.timerRunning = true ∨
      w.cache.ensureTimer = w.cache.setTimer (some .starting) ∧ w.cache.timerRunning = false := by
    unfold Cache.ensureTimer
    cases w.cache.timerRunning
    · exact Or.inr ⟨rfl, rfl⟩
    · exact Or.inl ⟨rfl, rfl⟩
  rcases hcases with ⟨heq, hr⟩ | ⟨heq, hr⟩
  · refine .change (by rw [heq]; exact ⟨rfl, rfl, rfl, rfl⟩) (by rw [heq]; exact fun _ _ => rfl)
      (by rw [heq]; rfl) ?_
    rw [heq, Timer.ensured, show w.cache.timer.any (·.isRunning) = true from hr]
    rfl
  · refine .change (by rw [heq]; exact ⟨rfl, rfl, rfl, rfl⟩) (by rw [heq]; exact fun _ _ => rfl)
      (by rw [heq]; rfl) ?_
    rw [heq, Timer.ensured, show w.cache.timer.any (·.isRunning) = false from hr]
    rfl

theorem placed (value : ν) (policy : Option (Policy η)) :
    Concerns key (.replacing key (w.cache.find? key)) w (w.placed key value policy) := by
  have hinserted : Concerns key .nothing w ((w.change (.insert w.now key value policy)).note
      (.inserted w.cache.nextGeneration key value)) :=
    (insert w.now value policy).quiet (.silent rfl _)
  unfold World.placed
  cases w.cache.find? key with
  | none => exact hinserted
  | some old => exact hinserted.told (.note rfl _)

theorem tended (policy : Option (Policy η)) :
    Concerns key (.armed policy.isSome) w (w.tended policy) := by
  unfold World.tended
  split
  · rename_i h
    rw [h]
    exact ensureTimer
  · rename_i h
    rw [Bool.eq_false_iff.mpr h]
    exact .of_told (.refl w)

theorem inside {a : Activity ν η} (h : Concerns key x (w.push a) v) : Concerns key x w v.pop :=
  ⟨h.now, by rw [World.calls_pop, h.calls]; rfl, h.settings, h.expiring, h.expired, h.handle,
    h.others, h.stats, h.timer, h.lines⟩

/-- The slots that fetches hold are not looked at. -/
theorem holding {acquired : Admission} {f : Admission → Admission} {a : Activity ν η}
    (h : Concerns key x ((w.change ({ · with admission := acquired })).push a) v) :
    Concerns key x w (v.change fun c => { c with admission := f c.admission }).pop :=
  ⟨h.now, by rw [World.calls_pop, World.calls_change, h.calls]; rfl, h.settings, h.expiring,
    h.expired, h.handle, h.others, h.stats, h.timer, h.lines⟩

end Concerns

/-! ## What callbacks are told and say -/

section

variable (answer : (c : Callback ν η) → c.Answer)

def exchange (c : Callback ν η) : List (Record ν η) := [.entered c, .returned c (answer c)]

/-- Handlers are told one after another of an eviction, each of what the one before it decided. -/
def tale (key : Key) (value : ν) : List η → Disposal → Disposal × List (Record ν η)
  | [], running => (running, [])
  | handler :: handlers, running =>
    let c := Callback.expired handler key value running
    let rest := tale key value handlers (answer c)
    (rest.1, exchange answer c ++ rest.2)

def handover (settings : Settings η) (key : Key) (e : Entry ν η) : List (Record ν η) :=
  match settings.release with
  | none => []
  | some handler => exchange answer (.release handler key e.value)

def handoverIfSet (settings : Settings η) (key : Key) (e : Entry ν η) : List (Record ν η) :=
  if settings.dispose then handover answer settings key e else []

/-- What follows the departure of an expired entry. -/
def aftermath (settings : Settings η) (expired : List η) (key : Key) (e : Entry ν η) :
    List (Record ν η) :=
  let told := tale answer key e.value expired (.ofBool settings.dispose)
  .announced e.generation key e.value (.ofBool settings.dispose) :: told.2 ++
    .disposed e.generation key told.1 ::
      if told.1 = .dispose then handover answer settings key e else []

def ballot (key : Key) (e : Entry ν η) (policy : Policy η) (handlers : List η) : List Decision :=
  handlers.map fun handler => answer (.expiring handler key e.value policy)

/-- Handlers are asked one after another about an expired entry. -/
def hearing (key : Key) (e : Entry ν η) (policy : Policy η) (handlers : List η) :
    List (Record ν η) :=
  .offered e.generation key e.value policy ::
    (handlers.flatMap fun handler => exchange answer (.expiring handler key e.value policy)) ++
      [.decided e.generation key e.value (ballot answer key e policy handlers)]

end

namespace Act

variable {host : Host ν η μ} {t : Instant} {answer : (c : Callback ν η) → c.Answer}
  {perform : Operation ν η → Act ν η μ (Answer ν)} {w : World ν η μ} {key : Key}

section

variable (ha : host.Answering t answer)

include ha

theorem callVia_told (c : Callback ν η) (hw : w.now = t) :
    (callVia host perform c).Returns w fun a w' =>
      a = answer c ∧ Told c.key (exchange answer c) w w' := by
  obtain ⟨⟨a, m⟩, hthink, hfst⟩ := Option.map_eq_some_iff.mp (ha c w.memory)
  obtain rfl : a = answer c := hfst
  rw [← hw] at hthink
  refine (callVia_of_think hthink).mono ?_
  rintro v w' ⟨rfl, rfl⟩
  have hentered : Told c.key [.entered c] w (w.note (.entered c)) := .note rfl w
  have hthought : Told c.key [] (w.note (.entered c)) { w.note (.entered c) with memory := m } :=
    .same rfl rfl rfl rfl
  exact ⟨rfl, (hentered.trans hthought).trans (.note rfl _)⟩

theorem ask_told (value : ν) (policy : Policy η) (handlers : List η) :
    ∀ w : World ν η μ, w.now = t → (handlers.mapM fun handler =>
      callVia host perform (.expiring handler key value policy)).Returns w fun answers w' =>
        answers = (handlers.map fun handler => answer (.expiring handler key value policy)) ∧
          Told key (handlers.flatMap fun handler =>
            exchange answer (.expiring handler key value policy)) w w' := by
  induction handlers with
  | nil =>
    intro w _
    rw [List.mapM_nil]
    exact .pure ⟨rfl, .refl w⟩
  | cons handler handlers ih =>
    intro w hw
    rw [List.mapM_cons]
    refine .bind (callVia_told ha (.expiring handler key value policy) hw) ?_
    rintro a w1 ⟨rfl, h1⟩
    refine .bind (ih w1 (h1.now.trans hw)) ?_
    rintro answers w2 ⟨rfl, h2⟩
    exact .pure ⟨rfl, h1.trans h2⟩

theorem tell_told (value : ν) (handlers : List η) :
    ∀ (running : Disposal) (w : World ν η μ), w.now = t → (handlers.foldlM (fun running handler =>
      callVia host perform (.expired handler key value running)) running).Returns w fun final w' =>
        final = (tale answer key value handlers running).1 ∧
          Told key (tale answer key value handlers running).2 w w' := by
  induction handlers with
  | nil => exact fun running w _ => .pure ⟨rfl, .refl w⟩
  | cons handler handlers ih =>
    intro running w hw
    rw [List.foldlM_cons]
    refine .bind (callVia_told ha (.expired handler key value running) hw) ?_
    rintro a w1 ⟨rfl, h1⟩
    refine (ih _ w1 (h1.now.trans hw)).mono ?_
    rintro final w2 ⟨rfl, h2⟩
    exact ⟨rfl, h1.trans h2⟩

theorem release_told (e : Entry ν η) (hw : w.now = t) :
    (release (callVia host perform) key e).Returns w fun _ w' =>
      Told key (handover answer w.cache.settings key e) w w' := by
  unfold release handover
  refine .cache ?_
  cases w.cache.settings.release with
  | none => exact .pure (.refl w)
  | some handler =>
    refine .bracket ((callVia_told (w := w.push (.releasing key e.generation)) ha
      (.release handler key e.value) hw).mono ?_)
    exact fun _ _ h => h.2.inside

theorem releaseIfSet_told (e : Entry ν η) (hw : w.now = t) :
    (releaseIfSet (callVia host perform) key e).Returns w fun _ w' =>
      Told key (handoverIfSet answer w.cache.settings key e) w w' := by
  unfold releaseIfSet handoverIfSet
  refine .cache ?_
  split
  · exact release_told ha e hw
  · exact .pure (.refl w)

theorem disposeEvicted_told (e : Entry ν η) (hw : w.now = t) :
    (disposeEvicted (callVia host perform) key e).Returns w fun _ w' =>
      Told key (aftermath answer w.cache.settings w.cache.expired key e) w w' := by
  unfold disposeEvicted tellExpired aftermath
  refine .cache (.bind (.bracket (Q := fun final w' =>
    final = (tale answer key e.value w.cache.expired (.ofBool w.cache.settings.dispose)).1 ∧
      Told key (.announced e.generation key e.value (.ofBool w.cache.settings.dispose) ::
        (tale answer key e.value w.cache.expired (.ofBool w.cache.settings.dispose)).2) w w') ?_) ?_)
  · refine .note (.cache ((tell_told ha e.value w.cache.expired (.ofBool w.cache.settings.dispose)
      ((w.push (.telling key e.generation)).note (.announced e.generation key e.value
        (.ofBool w.cache.settings.dispose))) hw).mono ?_))
    rintro final w1 ⟨rfl, h1⟩
    exact ⟨rfl, Told.inside ((Told.note rfl _).trans h1)⟩
  · intro final w1 hfinal
    obtain ⟨hfinal, h1⟩ := hfinal
    have h2 := h1.trans (.note (r := .disposed e.generation key final) rfl w1)
    have hsettings : (w1.note (.disposed e.generation key final)).cache.settings =
        w.cache.settings := by rw [h2.cache]
    dsimp only
    rw [← hfinal]
    refine .note ?_
    split
    · refine (release_told ha e (h2.now.trans hw)).mono ?_
      intro _ w2 h3
      have hall := h2.trans h3
      rwa [hsettings, List.append_assoc] at hall
    · exact .pure h2

end

end Act

/-! ## What work comes to -/

/-- What work on one key goes by. -/
structure Aspect (ν η : Type) where
  now : Instant
  settings : Settings η
  expiring : List η
  expired : List η
  handle : Handle
  found : Option (Entry ν η)

def World.aspect (key : Key) (w : World ν η μ) : Aspect ν η :=
  ⟨w.now, w.cache.settings, w.cache.expiring, w.cache.expired, w.cache.handle, w.cache.find? key⟩

def readShare (access : Access) (key : Key) (found : Option ν) : Share ν η :=
  if access = .full then
    .counted (if found.isSome then Stats.empty.hit else Stats.empty.miss) ++
      .told [.read key found.isSome]
  else .nothing

/-- What work on one key comes to: its answer, what is stored then, and its share in the rest. -/
structure Local (ν η α : Type) where
  answer : α
  found : Option (Entry ν η)
  share : Share ν η

namespace Local

def map (f : α → β) (o : Local ν η α) : Local ν η β := ⟨f o.answer, o.found, o.share⟩

def read (access : Access) (key : Key) (found : Option ν) (o : Local ν η α) :
    Local ν η (Option ν) := ⟨found, o.found, o.share ++ readShare access key found⟩

def after (x : Share ν η) (o : Local ν η α) : Local ν η α := ⟨o.answer, o.found, x ++ o.share⟩

end Local

/-- The work comes to `o`, up to the number of a new insertion. -/
structure Comes (key : Key) (o : Local ν η α) (w : World ν η μ) (a : α) (w' : World ν η μ) :
    Prop where
  answer : a = o.answer
  found : (w'.cache.find? key).map Entry.unnumbered = o.found.map Entry.unnumbered
  concerns : Concerns key o.share w w'

theorem Told.aspect {key : Key} {story : List (Record ν η)} {w v : World ν η μ}
    (h : Told key story w v) (j : Key) : v.aspect j = w.aspect j := by
  unfold World.aspect
  rw [h.now, h.cache]

theorem Comes.after {key : Key} {x : Share ν η} {o : Local ν η α} {w v u : World ν η μ} {a : α}
    (k : Comes key o v a u) (h : Concerns key x w v) : Comes key (o.after x) w a u :=
  ⟨k.answer, k.found, h.trans k.concerns⟩

theorem Comes.map {key : Key} {o : Local ν η α} {w v : World ν η μ} {a : α} (h : Comes key o w a v)
    (f : α → β) : Comes key (o.map f) w (f a) v :=
  ⟨congrArg f h.answer, h.found, h.concerns⟩

theorem Told.comes {key : Key} {story : List (Record ν η)} {w v : World ν η μ}
    (h : Told key story w v) (a : α) :
    Comes key ⟨a, w.cache.find? key, .told story⟩ w a v :=
  ⟨rfl, by rw [h.cache], .of_told h⟩

def Fate.value? : Fate ν → Option ν
  | .cancelled value => some value
  | _ => none

namespace Aspect

variable (answer : (c : Callback ν η) → c.Answer)

/-- An expired entry is judged by the handlers. -/
def judge (key : Key) (e : Entry ν η) (policy : Policy η) (v : Aspect ν η) : Local ν η (Fate ν) :=
  let heard := Share.told (hearing answer key e policy v.expiring)
  if (ballot answer key e policy v.expiring).contains .cancel then
    ⟨.cancelled e.value, some e, heard ++ .counted Stats.empty.cancellation⟩
  else
    ⟨.evicted, none, heard ++ .parting Stats.empty.expiration key e .expired ++
      .told (aftermath answer v.settings v.expired key e)⟩

def lookup (access : Access) (key : Key) (v : Aspect ν η) : Local ν η (Option ν) :=
  match v.found with
  | none => Local.read access key none ⟨(), none, .nothing⟩
  | some e =>
    match e.policy.filter fun _ => e.due v.now with
    | some policy =>
      let o := v.judge answer key e policy
      o.read access key o.answer.value?
    | none => Local.read access key (some e.value)
      ⟨(), some (if access = .full then e.touch v.now else e), .nothing⟩

def policyFor (key : Key) (given : Option (Policy η)) (v : Aspect ν η) :
    Option (Policy η) × List (Record ν η) :=
  match given, v.settings.defaultPolicy with
  | some policy, _ => (some policy, [])
  | none, none => (none, [])
  | none, some handler =>
    (answer (.defaultPolicy handler key), exchange answer (.defaultPolicy handler key))

def store (key : Key) (value : ν) (policy : Option (Policy η)) (v : Aspect ν η) : Local ν η Unit :=
  ⟨(), some (.insertedAt v.now value policy 0), Share.replacing key v.found ++
    .armed policy.isSome ++ .told (v.found.elim [] (handoverIfSet answer v.settings key))⟩

def insert (key : Key) (value : ν) (options : Options η) (v : Aspect ν η) : Local ν η Unit :=
  let given := v.policyFor answer key options.policy
  if options.overwrite || v.found.all (·.due v.now) then
    (v.store answer key value given.1).after (.told given.2)
  else ⟨(), v.found, .told given.2⟩

def remove (key : Key) (v : Aspect ν η) : Local ν η Bool :=
  match v.found with
  | none => ⟨false, none, .nothing⟩
  | some e => ⟨true, none, .parting (Stats.empty.removed 1) key e .removed ++
      .told (handoverIfSet answer v.settings key e)⟩

def make (key : Key) (factory : η) (options : Options η) (v : Aspect ν η) : Local ν η (Fetched ν) :=
  let asked := Share.told (exchange answer (.factory factory key))
  match answer (.factory factory key) with
  | .error message => ⟨.refused (.factoryFailed message), v.found, asked⟩
  | .ok value =>
    ((v.insert answer key value { options with overwrite := true }).map fun _ => .value value).after
      asked

def fetch (key : Key) (factory : η) (options : Options η) (v : Aspect ν η) :
    Local ν η (Fetched ν) :=
  if options.overwrite then v.make answer key factory options
  else
    let o := v.lookup answer .full key
    match o.answer with
    | some value => ⟨.value value, o.found, o.share⟩
    | none =>
      ({ v with found := none }.make answer key factory options).after o.share

theorem judge_decides (key : Key) (e : Entry ν η) (policy : Policy η) (v : Aspect ν η) :
    (v.judge answer key e policy).answer = .cancelled e.value ∨
      (v.judge answer key e policy).answer = .evicted ∧
        (v.judge answer key e policy).found = none := by
  unfold judge
  dsimp only
  split
  · exact Or.inl rfl
  · exact Or.inr ⟨rfl, rfl⟩

variable {answer : (c : Callback ν η) → c.Answer}

/-- A read that finds nothing leaves nothing. -/
theorem found_of_lookup {access : Access} {key : Key} {v : Aspect ν η}
    (h : (v.lookup answer access key).answer = none) :
    (v.lookup answer access key).found = none := by
  unfold lookup at *
  split at h
  · rfl
  · rename_i e _
    split at h
    · rename_i policy _
      dsimp only at *
      rcases judge_decides answer key e policy v with hc | ⟨-, hnone⟩
      · rw [hc] at h
        cases h
      · exact hnone
    · cases h

end Aspect

theorem Entry.policy_of_due {now : Instant} {e : Entry ν η} (h : e.due now = true) :
    ∃ policy, e.policy = some policy := by
  cases hq : e.policy with
  | some policy => exact ⟨policy, rfl⟩
  | none =>
    rw [due_eq_false_of_policy hq] at h
    cases h

/-- The clock stands at `t`, and what is under `key` is judged by its deadline. -/
structure World.Ready (t : Instant) (key : Key) (w : World ν η μ) : Prop where
  now : w.now = t
  calm : ∀ e, w.cache.find? key = some e → e.pending = false ∧ e.Dated

/-- What is left where nothing is found. -/
theorem Comes.aspect_of_none {key : Key} {o : Local ν η α} {w v : World ν η μ} {a : α}
    (h : Comes key o w a v) (hnone : o.found = none) :
    v.aspect key = { w.aspect key with found := none } := by
  have hfound := h.found
  rw [hnone] at hfound
  unfold World.aspect
  rw [h.concerns.now, h.concerns.settings, h.concerns.expiring, h.concerns.expired,
    h.concerns.handle, Option.map_eq_none_iff.mp hfound]

theorem Told.ready {t : Instant} {key j : Key} {story : List (Record ν η)} {w v : World ν η μ}
    (h : Told key story w v) (hw : w.Ready t j) : v.Ready t j :=
  ⟨h.now.trans hw.now, by rw [h.cache]; exact hw.calm⟩

namespace Act

variable {host : Host ν η μ} {t : Instant} {answer : (c : Callback ν η) → c.Answer}
  {perform : Operation ν η → Act ν η μ (Answer ν)} {w : World ν η μ} {key : Key}

theorem readEnds_comes {o : Local ν η α} {a : α} {v : World ν η μ} (h : Comes key o w a v)
    (access : Access) (found : Option ν) :
    (readEnds access key found).Returns v (Comes key (o.read access key found) w) := by
  unfold readEnds Local.read readShare
  split
  · have hcounted : Concerns key (.counted (if found.isSome then Stats.empty.hit else .miss .empty)) v
        (v.change (.count fun s => if found.isSome then s.hit else s.miss)) := by
      refine .count ?_
      cases found <;> rfl
    exact .change (.note (.pure ⟨rfl, h.found, h.concerns.trans (hcounted.told (.note rfl _))⟩))
  · exact .pure ⟨rfl, h.found, h.concerns.trans (.of_told (.refl v))⟩

theorem candidate?_ripe {e : Entry ν η} {policy : Policy η} (hf : w.cache.find? key = some e)
    (hp : e.pending = false) (hdated : e.Dated) (hq : e.policy = some policy)
    (hx : e.due w.now = true) : (candidate? host key e.generation).Returns w fun found w' =>
      found = some (e, policy) ∧ w' = w := by
  refine candidate?_of_expired hf hp hq ((expired_dated host hdated w).mono ?_)
  rintro found w' ⟨rfl, hsame⟩
  exact ⟨hx, hsame⟩

theorem commit_ripe {e : Entry ν η} {policy : Policy η} (hf : w.cache.find? key = some e)
    (hdated : e.Dated) (hq : e.policy = some policy) (hx : e.due w.now = true) :
    (commit host key e.generation).Returns w fun gone w' => gone = some e ∧
      w'.cache.find? key = none ∧
        Concerns key (.parting Stats.empty.expiration key e .expired) w w' := by
  have hexpired : (expired host e).Returns w fun found v => found = true ∧ v = w :=
    (expired_dated host hdated w).mono fun _ _ h => ⟨h.1.trans hx, h.2⟩
  refine (commit_of_expired hf hq hexpired).mono ?_
  rintro gone w' ⟨rfl, v, rfl, rfl⟩
  exact ⟨rfl, (Cache.find?_takeOut ..).trans (if_pos rfl), .takeOut (f := Stats.expiration) rfl⟩

theorem occupied_ready (hw : w.Ready t key) : (occupied host key).Returns w fun b w' =>
    b = !(w.cache.find? key).all (·.due w.now) ∧ w' = w := by
  unfold occupied
  refine .cache ?_
  cases hf : w.cache.find? key with
  | none => exact .pure ⟨rfl, rfl⟩
  | some e =>
    obtain ⟨hp, hdated⟩ := hw.calm e hf
    dsimp only
    rw [hp, if_neg (by decide)]
    refine .bind (expired_dated host hdated w) ?_
    rintro found w' ⟨rfl, hsame⟩
    exact .pure ⟨rfl, hsame⟩

section

variable (ha : host.Answering t answer)

include ha

theorem deciding_told {e : Entry ν η} (policy : Policy η) (hw : w.now = t)
    (hp : ∀ e, w.cache.find? key = some e → e.pending = false) :
    (deciding key e.generation (askExpiring (callVia host perform) e.generation key e.value
      policy)).Returns w fun answers w' => answers = ballot answer key e policy w.cache.expiring ∧
        Told key (.offered e.generation key e.value policy :: w.cache.expiring.flatMap fun handler =>
          exchange answer (.expiring handler key e.value policy)) w w' := by
  unfold deciding askExpiring
  refine .bracket (.note (.cache ((ask_told ha e.value policy w.cache.expiring
    (((w.change (.mark true key e.generation)).push (.deciding key e.generation)).note
      (.offered e.generation key e.value policy)) hw).mono ?_)))
  rintro answers w1 ⟨rfl, h1⟩
  refine ⟨rfl, ?_⟩
  have h2 := (Told.note rfl ((w.change (.mark true key e.generation)).push
    (.deciding key e.generation))).trans h1
  -- the mark is gone again
  refine ⟨h2.now, by rw [World.calls_pop, World.calls_change, h2.calls]; rfl, ?_, h2.lines⟩
  show w1.cache.mark false key e.generation = w.cache
  rw [h2.cache]
  exact Cache.mark_mark hp

theorem expire_comes {e : Entry ν η} {policy : Policy η} (hw : w.Ready t key)
    (hf : w.cache.find? key = some e) (hq : e.policy = some policy) (hx : e.due w.now = true) :
    (expire host (callVia host perform) key e.generation).Returns w
      (Comes key ((w.aspect key).judge answer key e policy) w) := by
  obtain ⟨hp, hdated⟩ := hw.calm e hf
  unfold expire Aspect.judge
  refine .bind (candidate?_ripe hf hp hdated hq hx) ?_
  intro found w0 hcand
  obtain ⟨rfl, rfl⟩ : found = some (e, policy) ∧ w = w0 := ⟨hcand.1, hcand.2.symm⟩
  refine .bind (deciding_told ha policy hw.now fun e he => (hw.calm e he).1) ?_
  rintro answers w1 ⟨rfl, h1⟩
  have h2 : Told key (hearing answer key e policy w.cache.expiring) w
      (w1.note (.decided e.generation key e.value (ballot answer key e policy w.cache.expiring))) :=
    h1.trans (.note rfl w1)
  have hf2 := (congrArg (·.find? key) h2.cache).trans hf
  refine .note ?_
  show (if (ballot answer key e policy w.cache.expiring).contains .cancel = true then _ else _ :
    Act ν η μ (Fate ν)).Returns _ (Comes key (if (ballot answer key e policy
      w.cache.expiring).contains .cancel = true then _ else _) w)
  split
  · exact .change (.pure ⟨rfl, congrArg _ hf2, (Concerns.of_told h2).trans (.count rfl)⟩)
  · refine .bind (commit_ripe hf2 hdated hq (h2.now ▸ hx)) ?_
    rintro gone w2 ⟨rfl, hnone, h3⟩
    have h4 := (Concerns.of_told h2).trans h3
    refine .bind (disposeEvicted_told ha e (h4.now.trans hw.now)) ?_
    intro _ w3 h5
    rw [h4.settings, h4.expired] at h5
    refine .pure ⟨rfl, ?_, h4.told h5⟩
    rw [h5.cache, hnone]

theorem lookup_comes (access : Access) (retries : Nat) (hw : w.Ready t key) :
    (lookup host (callVia host perform) access key (retries + 1)).Returns w
      (Comes key ((w.aspect key).lookup answer access key) w) := by
  rw [lookup]
  refine .cache ?_
  unfold Aspect.lookup
  show (match w.cache.find? key with | none => _ | some e => _ : Act ν η μ (Option ν)).Returns w
    (Comes key (match w.cache.find? key with | none => _ | some e => _) w)
  cases hf : w.cache.find? key with
  | none => exact readEnds_comes ⟨rfl, by rw [hf], .of_told (.refl w)⟩ access none
  | some e =>
    obtain ⟨hp, hdated⟩ := hw.calm e hf
    dsimp only
    refine .bind (expired_dated host hdated w) ?_
    intro found w0 hfound
    obtain ⟨rfl, rfl⟩ : found = e.due w.now ∧ w = w0 := ⟨hfound.1, hfound.2.symm⟩
    show (if (!e.due w.now) = true then _ else _ : Act ν η μ (Option ν)).Returns w
      (Comes key (match e.policy.filter fun _ => e.due w.now with | some policy => _ | none => _) w)
    cases hx : e.due w.now with
    | false =>
      rw [show (e.policy.filter fun _ => false) = none by cases e.policy <;> rfl]
      by_cases hfull : access = .full
      · have htouched : Comes key ⟨(), some (e.touch w.now), .nothing⟩ w ()
            (w.change (.touch w.now key)) := by
          refine ⟨rfl, ?_, .touch w.now⟩
          exact congrArg _ ((Cache.find?_touch ..).trans (by rw [if_pos rfl, hf]; rfl))
        rw [if_pos hfull, if_pos hfull]
        exact .now (.change (readEnds_comes htouched access (some e.value)))
      · rw [if_neg hfull, if_neg hfull]
        exact readEnds_comes ⟨rfl, by rw [hf], .of_told (.refl w)⟩ access (some e.value)
    | true =>
      obtain ⟨policy, hq⟩ := Entry.policy_of_due hx
      rw [show (e.policy.filter fun _ => true) = some policy by rw [hq]; rfl, if_neg (by decide), hp,
        if_neg (by decide)]
      dsimp only
      refine .bind (expire_comes ha hw hf hq hx) ?_
      intro fate w1 h1
      have hends := readEnds_comes h1 access
      have hdecides := Aspect.judge_decides answer key e policy (w.aspect key)
      rw [← h1.answer] at hdecides ⊢
      rcases hdecides with rfl | ⟨rfl, -⟩
      · exact hends (some e.value)
      · exact hends none

theorem policyFor_told (given : Option (Policy η)) (hw : w.now = t) :
    (policyFor (callVia host perform) key given).Returns w fun policy w' =>
      policy = ((w.aspect key).policyFor answer key given).1 ∧
        Told key ((w.aspect key).policyFor answer key given).2 w w' := by
  unfold policyFor Aspect.policyFor
  cases given with
  | some policy => exact .pure ⟨rfl, .refl w⟩
  | none =>
    refine .cache ?_
    show (match w.cache.settings.defaultPolicy with
      | none => Pure.pure none
      | some handler => callVia host perform (.defaultPolicy handler key) :
        Act ν η μ (Option (Policy η))).Returns _ _
    cases hd : w.cache.settings.defaultPolicy with
    | none =>
      refine .pure ?_
      dsimp only [World.aspect]
      rw [hd]
      exact ⟨rfl, .refl w⟩
    | some handler =>
      refine (callVia_told ha (.defaultPolicy handler key) hw).mono ?_
      rintro policy w1 ⟨rfl, h1⟩
      dsimp only [World.aspect]
      rw [hd]
      exact ⟨rfl, h1⟩

theorem store_comes (value : ν) (policy : Option (Policy η)) (hw : w.now = t) :
    (store (callVia host perform) key value policy).Returns w
      (Comes key ((w.aspect key).store answer key value policy) w) := by
  have hplace : (place key value policy).Returns w fun old w' =>
      old = w.cache.find? key ∧ w' = w.placed key value policy :=
    ⟨_, _, place_eq w key value policy, rfl, rfl⟩
  have h1 : Concerns key (.replacing key (w.cache.find? key) ++ .armed policy.isSome) w
      ((w.placed key value policy).tended policy) := (Concerns.placed value policy).trans (.tended policy)
  have hfound : ((((w.placed key value policy).tended policy).cache.find? key).map
      Entry.unnumbered) = some (.insertedAt w.now value policy 0) := by
    rw [World.find?_tended, World.cache_placed, Cache.find?_insert, if_pos rfl]
    rfl
  have hrest : (match w.cache.find? key with
      | none => Pure.pure ()
      | some old => releaseIfSet (callVia host perform) key old : Act ν η μ Unit).Returns
      ((w.placed key value policy).tended policy)
      (Comes key ((w.aspect key).store answer key value policy) w) := by
    unfold Aspect.store
    dsimp only [World.aspect]
    cases hf : w.cache.find? key with
    | none =>
      rw [hf] at h1
      exact .pure ⟨rfl, hfound, h1.told (.refl _)⟩
    | some old =>
      rw [hf] at h1
      refine (releaseIfSet_told ha old (h1.now.trans hw)).mono ?_
      intro _ w2 h2
      rw [h1.settings] at h2
      exact ⟨rfl, by rw [h2.cache]; exact hfound, h1.told h2⟩
  unfold store
  refine .bind hplace ?_
  rintro old w1 ⟨rfl, rfl⟩
  cases policy with
  | none => exact hrest
  | some policy => exact .change hrest

theorem insert_comes (value : ν) (options : Options η) (hw : w.Ready t key) :
    (insert host (callVia host perform) key value options).Returns w
      (Comes key ((w.aspect key).insert answer key value options) w) := by
  unfold insert
  refine .bind (policyFor_told ha options.policy hw.now) ?_
  rintro policy w1 ⟨rfl, h1⟩
  have hstore : ∀ policy, (store (callVia host perform) key value policy).Returns w1
      (Comes key (((w.aspect key).store answer key value policy).after
        (.told ((w.aspect key).policyFor answer key options.policy).2)) w) := by
    intro policy
    refine (store_comes ha value policy (h1.now.trans hw.now)).mono ?_
    rw [h1.aspect]
    exact fun _ _ h => h.after (.of_told h1)
  have hoccupied : (occupied host key).Returns w1 fun b w' =>
      b = !(w.cache.find? key).all (·.due w.now) ∧ w' = w1 := by
    rw [← h1.cache, ← h1.now]
    exact occupied_ready (h1.ready hw)
  unfold Aspect.insert
  cases hover : options.overwrite with
  | true => exact hstore _
  | false =>
    rw [if_neg (by decide)]
    refine .bind hoccupied ?_
    intro b w2 hb
    obtain ⟨rfl, rfl⟩ : b = _ ∧ w1 = w2 := ⟨hb.1, hb.2.symm⟩
    rw [Bool.false_or, show (w.aspect key).found.all (·.due (w.aspect key).now) =
      (w.cache.find? key).all (·.due w.now) from rfl]
    cases (w.cache.find? key).all (·.due w.now) with
    | true => exact hstore _
    | false => exact .pure (h1.comes ())

theorem remove_comes (hw : w.now = t) : (remove (callVia host perform) key).Returns w
    (Comes key ((w.aspect key).remove answer key) w) := by
  unfold remove Aspect.remove
  refine .cache ?_
  dsimp only [World.aspect]
  cases hf : w.cache.find? key with
  | none => exact .pure ⟨rfl, by rw [hf], .of_told (.refl w)⟩
  | some e =>
    have h1 : Concerns key (.parting (Stats.empty.removed 1) key e .removed) w
      ((w.change (.takeOut key (.removed 1))).note (.left e.generation key e.value .removed)) :=
        .takeOut rfl
    have hnone := (Cache.find?_takeOut key (Stats.removed 1) w.cache key).trans (if_pos rfl)
    refine .change (.note (.bind (releaseIfSet_told ha e hw) ?_))
    intro _ w2 h2
    exact .pure ⟨rfl, by rw [h2.cache]; exact congrArg _ hnone, h1.told h2⟩

theorem make_comes (factory : η) (options : Options η) (hw : w.Ready t key) :
    (make host (callVia host perform) key factory options).Returns w
      (Comes key ((w.aspect key).make answer key factory options) w) := by
  unfold make Aspect.make
  refine .bind (callVia_told ha (.factory factory key) hw.now) ?_
  rintro made w1 ⟨rfl, h1⟩
  cases answer (.factory factory key) with
  | error message => exact .pure (h1.comes _)
  | ok value =>
    refine .bind (insert_comes ha value { options with overwrite := true } (h1.ready hw)) ?_
    rintro _ w2 h2
    rw [h1.aspect] at h2
    exact .pure ((h2.map _).after (.of_told h1))

theorem fetchInside_comes (factory : η) (options : Options η) (retries : Nat)
    (hw : w.Ready t key) :
    (fetchInside host (callVia host perform) key factory options (retries + 1)).Returns w
      (Comes key ((w.aspect key).fetch answer key factory options) w) := by
  unfold fetchInside Aspect.fetch
  split
  · exact .bind (.pure (Q := fun found w' => found = none ∧ w' = w) ⟨rfl, rfl⟩) (by
      rintro _ _ ⟨rfl, rfl⟩
      exact make_comes ha factory options hw)
  · refine .bind (lookup_comes ha .full retries hw) ?_
    intro found w1 h1
    dsimp only
    rw [← h1.answer]
    cases found with
    | some value => exact .pure ⟨rfl, h1.found, h1.concerns⟩
    | none =>
      have hnone := Aspect.found_of_lookup h1.answer.symm
      have haspect := h1.aspect_of_none hnone
      have hready : w1.Ready t key :=
        ⟨h1.concerns.now.trans hw.now, fun e he => nomatch he.symm.trans (congrArg (·.found) haspect)⟩
      refine (make_comes ha factory options hready).mono ?_
      rw [haspect]
      exact fun _ _ h => h.after h1.concerns

theorem fetch_comes (factory : η) (options : Options η) (retries : Nat) (hw : w.Ready t key)
    (hfree : (w.cache.admission.acquire? key).isSome = true) (hk : host.accepts key = true) :
    (fetch host (callVia host perform) key factory options (retries + 1)).Returns w
      (Comes key ((w.aspect key).fetch answer key factory options) w) := by
  obtain ⟨⟨acquired, slot⟩, hacquired⟩ := Option.isSome_iff_exists.mp hfree
  unfold fetch
  refine .cache ?_
  rw [hacquired]
  dsimp only
  rw [if_pos hk]
  refine .bracket ((fetchInside_comes
    (w := (w.change ({ · with admission := acquired })).push (.fetching key slot)) ha factory options
    retries ⟨hw.now, hw.calm⟩).mono ?_)
  intro a w1 h1
  exact ⟨h1.answer, h1.found, h1.concerns.holding (f := (·.release key slot))⟩

end

end Act

end ExpiringCache
