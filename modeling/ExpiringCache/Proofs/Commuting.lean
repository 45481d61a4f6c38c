import ExpiringCache.Proofs.Locality
import ExpiringCache.Proofs.Simulation
import ExpiringCache.Proofs.Termination

/-!
# Operations on different keys

What an operation on one key comes to depends on no other key, and it changes nothing under any other.
What all of them share is added to: the counters, the timer that is started once, the journal. So two
operations on different keys may trade places.
-/

namespace ExpiringCache

variable {ν η μ α β : Type}

/-- The key of an operation that works on one key. -/
def Operation.subject? : Operation ν η → Option Key
  | insert key _ _ => some key
  | get key => some key
  | contains key => some key
  | fetch key _ _ => some key
  | remove key => some key
  | _ => none

/-- Nothing is in progress. -/
structure World.Rested (w : World ν η μ) : Prop where
  calls : w.calls = []
  sound : Sound [] w.cache

theorem World.Rested.ready {t : Instant} {w : World ν η μ} (h : w.Rested) (hw : w.now = t)
    (hd : w.cache.Dated) (key : Key) : w.Ready t key :=
  ⟨hw, fun e he => ⟨h.sound.coherent.idle.1 key e he, hd key e he⟩⟩

theorem World.Rested.perform {host : Host ν η μ} {bound : Nat} {op : Operation ν η} {a : Answer ν}
    {w v : World ν η μ} (h : w.Rested) (hp : Act.perform host bound op w = .ok a v) : v.Rested := by
  obtain ⟨seg, hrun, -⟩ := (Act.perform_performs host bound op w 0 (Nat.zero_le _)).of_ok hp
  have hsound : Sound v.calls v.cache := hrun.moves.sound (by rw [h.calls]; exact h.sound)
  have hcalls := hrun.calls.trans h.calls
  exact ⟨hcalls, hcalls ▸ hsound⟩

theorem Concerns.aspect {key j : Key} {x : Share ν η} {w v : World ν η μ} (h : Concerns key x w v)
    (hj : key ≠ j) : v.aspect j = w.aspect j := by
  unfold World.aspect
  rw [h.now, h.settings, h.expiring, h.expired, h.handle, h.others j hj.symm]

theorem Concerns.ready {t : Instant} {key j : Key} {x : Share ν η} {w v : World ν η μ}
    (h : Concerns key x w v) (hj : key ≠ j) (hw : w.Ready t j) : v.Ready t j :=
  ⟨h.now.trans hw.now, by rw [h.others j hj.symm]; exact hw.calm⟩

/-- Since `w` the same has come about, but for the numbers of insertions and for the order in which
lines about different keys were written. -/
structure World.Agrees (w u v : World ν η μ) : Prop where
  now : u.now = w.now ∧ v.now = w.now
  entries : ∀ j, (u.cache.find? j).map Entry.unnumbered = (v.cache.find? j).map Entry.unnumbered
  stats : u.cache.stats = v.cache.stats
  timer : u.cache.timer = v.cache.timer
  lines : ∃ new new', u.journal = new ++ w.journal ∧ v.journal = new' ++ w.journal ∧
    ∀ j, excerpt (Line.about? j) new = excerpt (Line.about? j) new'

theorem Comes.entries {key : Key} {o : Local ν η α} {w v : World ν η μ} {a : α}
    (h : Comes key o w a v) (j : Key) : (v.cache.find? j).map Entry.unnumbered =
      if j = key then o.found.map Entry.unnumbered else (w.cache.find? j).map Entry.unnumbered := by
  split
  · rename_i hj
    rw [hj, h.found]
  · rename_i hj
    rw [h.concerns.others j hj]

theorem Cache.size_eq_of_unnumbered {c d : Cache ν η} (h : ∀ j,
    (c.find? j).map Entry.unnumbered = (d.find? j).map Entry.unnumbered) :
    c.entries.size = d.entries.size := by
  have hkeys : ∀ j, j ∈ c.entries.keys ↔ j ∈ d.entries.keys := by
    intro j
    have hsome := congrArg Option.isSome (h j)
    rw [Option.isSome_map, Option.isSome_map] at hsome
    rw [Table.mem_keys_iff, Table.mem_keys_iff, ← Option.isSome_iff_exists,
      ← Option.isSome_iff_exists]
    exact Bool.eq_iff_iff.mp hsome
  exact Nat.le_antisymm (size_le_of_keys fun j => (hkeys j).mp)
    (size_le_of_keys fun j => (hkeys j).mpr)

theorem Stats.eq_of_withTotal {s t : Stats} (h : s.withTotal 0 = t.withTotal 0)
    (ht : s.total = t.total) : s = t :=
  calc s = (s.withTotal 0).withTotal s.total := rfl
    _ = (t.withTotal 0).withTotal t.total := by rw [h, ht]

section

variable {key key' : Key} {o : Local ν η α} {o' : Local ν η β} {w w₁ w₂ u v : World ν η μ} {a : α}
  {b : β} (hne : key ≠ key') (h₁ : Comes key o w a w₁) (hu : Comes key' o' w₁ b u)
  (h₂ : Comes key' o' w b w₂) (hv : Comes key o w₂ a v)

include hne h₁ hu h₂ hv

theorem entries_trade (j : Key) :
    (u.cache.find? j).map Entry.unnumbered = (v.cache.find? j).map Entry.unnumbered := by
  rw [hu.entries, h₁.entries, hv.entries, h₂.entries]
  by_cases hj : j = key
  · rw [if_neg fun h => hne (hj.symm.trans h), if_pos hj, if_pos hj]
  · rw [if_neg hj, if_neg hj]

omit hne in
theorem stats_trade : u.cache.stats.withTotal 0 = v.cache.stats.withTotal 0 := by
  have htwice : ∀ s t p q : Stats, t.withTotal 0 = (s.plus p).withTotal 0 →
      (t.plus q).withTotal 0 = ((s.plus p).plus q).withTotal 0 := by
    intro s t p q h
    exact congrArg (fun r => (r.plus q).withTotal 0) h
  calc u.cache.stats.withTotal 0
      = ((w.cache.stats.plus o.share.tally).plus o'.share.tally).withTotal 0 :=
        hu.concerns.stats.trans (htwice _ _ _ _ h₁.concerns.stats)
    _ = ((w.cache.stats.plus o'.share.tally).plus o.share.tally).withTotal 0 := by
        rw [Stats.plus_assoc, Stats.plus_comm o.share.tally, ← Stats.plus_assoc]
    _ = v.cache.stats.withTotal 0 :=
        (hv.concerns.stats.trans (htwice _ _ _ _ h₂.concerns.stats)).symm

omit hne in
theorem timer_trade : u.cache.timer = v.cache.timer := by
  rw [hu.concerns.timer, h₁.concerns.timer, hv.concerns.timer, h₂.concerns.timer,
    Timer.ensured_ensured, Timer.ensured_ensured, Bool.or_comm]

theorem lines_trade : ∃ new new', u.journal = new ++ w.journal ∧ v.journal = new' ++ w.journal ∧
    ∀ j, excerpt (Line.about? j) new = excerpt (Line.about? j) new' := by
  obtain ⟨s₁, hs₁, he₁⟩ := h₁.concerns.lines
  obtain ⟨su, hsu, heu⟩ := hu.concerns.lines
  obtain ⟨s₂, hs₂, he₂⟩ := h₂.concerns.lines
  obtain ⟨sv, hsv, hev⟩ := hv.concerns.lines
  refine ⟨su ++ s₁, sv ++ s₂, by rw [hsu, hs₁, List.append_assoc],
    by rw [hsv, hs₂, List.append_assoc], fun j => ?_⟩
  rw [excerpt_append, excerpt_append, he₁, heu, he₂, hev]
  by_cases hj : j = key
  · rw [if_pos hj, if_neg fun h => hne (hj.symm.trans h), List.append_nil, List.nil_append]
  · rw [if_neg hj, List.append_nil, List.nil_append]

theorem agrees_of_trade (hru : u.Rested) (hrv : v.Rested) : w.Agrees u v := by
  have hentries := entries_trade hne h₁ hu h₂ hv
  have htotal : u.cache.stats.total = v.cache.stats.total := by
    rw [hru.sound.total, hrv.sound.total, Cache.size_eq_of_unnumbered hentries]
  exact ⟨⟨hu.concerns.now.trans h₁.concerns.now, hv.concerns.now.trans h₂.concerns.now⟩, hentries,
    Stats.eq_of_withTotal (stats_trade h₁ hu h₂ hv) htotal, timer_trade h₁ hu h₂ hv,
    lines_trade hne h₁ hu h₂ hv⟩

end

def Aspect.unlessRefused (accepts : Key → Bool) (key : Key)
    (o : Aspect ν η → Local ν η (Answer ν)) (v : Aspect ν η) : Local ν η (Answer ν) :=
  if accepts key then o v else ⟨.refused (.error (.forKey key)), v.found, .nothing⟩

namespace Act

/-- From any world in which nothing is in progress the work comes to what the key's aspect says, and
then nothing is in progress again. -/
def Confined (t : Instant) (key : Key) (x : Act ν η μ α) : Prop :=
  ∃ o : Aspect ν η → Local ν η α, ∀ w : World ν η μ, w.Rested → w.Ready t key →
    x.Returns w fun a v => Comes key (o (w.aspect key)) w a v ∧ v.Rested

variable {host : Host ν η μ} {t : Instant} {answer : (c : Callback ν η) → c.Answer}
  {key key' : Key} {op : Operation ν η}

theorem keyed_comes {work : Act ν η μ (Answer ν)} {o : Aspect ν η → Local ν η (Answer ν)}
    {w : World ν η μ} (h : work.Returns w (Comes key (o (w.aspect key)) w)) :
    (keyed host key work).Returns w
      (Comes key (Aspect.unlessRefused host.accepts key o (w.aspect key)) w) := by
  unfold keyed Aspect.unlessRefused
  split
  · exact h
  · exact .pure ⟨rfl, rfl, .of_told (.refl w)⟩

theorem carryOut_comes (ha : host.Answering t answer) (hop : op.subject? = some key)
    (perform : Operation ν η → Act ν η μ (Answer ν)) (retries : Nat) :
    ∃ o : Aspect ν η → Local ν η (Answer ν), ∀ w : World ν η μ, w.Ready t key →
      (w.cache.admission.acquire? key).isSome = true →
        (carryOut host (callVia host perform) (retries + 1) op).Returns w
          (Comes key (o (w.aspect key)) w) := by
  cases op with
  | insert k value options =>
    obtain rfl : k = key := Option.some.inj hop
    refine ⟨Aspect.unlessRefused host.accepts k fun v => (v.insert answer k value options).map fun _ =>
      .done, fun w hw _ => keyed_comes (.bind (insert_comes ha value options hw) ?_)⟩
    exact fun _ _ h => .pure (h.map _)
  | get k =>
    obtain rfl : k = key := Option.some.inj hop
    refine ⟨Aspect.unlessRefused host.accepts k fun v => (v.lookup answer .full k).map .found,
      fun w hw _ => keyed_comes (.bind (lookup_comes ha .full retries hw) ?_)⟩
    exact fun _ _ h => .pure (h.map _)
  | contains k =>
    obtain rfl : k = key := Option.some.inj hop
    refine ⟨Aspect.unlessRefused host.accepts k fun v => (v.lookup answer .peek k).map fun found =>
      .flag found.isSome, fun w hw _ => keyed_comes (.bind (lookup_comes ha .peek retries hw) ?_)⟩
    exact fun _ _ h => .pure (h.map _)
  | remove k =>
    obtain rfl : k = key := Option.some.inj hop
    refine ⟨Aspect.unlessRefused host.accepts k fun v => (v.remove answer k).map .flag,
      fun w hw _ => keyed_comes (.bind (remove_comes ha hw.now) ?_)⟩
    exact fun _ _ h => .pure (h.map _)
  | fetch k factory options =>
    obtain rfl : k = key := Option.some.inj hop
    refine ⟨Aspect.unlessRefused host.accepts k fun v => (v.fetch answer k factory options).map
      fetchedAnswer, fun w hw hfree => ?_⟩
    unfold Aspect.unlessRefused
    split
    · rename_i hk
      refine .bind (fetch_comes ha factory options retries hw hfree hk) ?_
      intro a v h
      cases a with
      | value value => exact .pure (h.map fetchedAnswer)
      | refused cause => exact .pure (h.map fetchedAnswer)
    · rename_i hk
      obtain ⟨⟨acquired, slot⟩, hacquired⟩ := Option.isSome_iff_exists.mp hfree
      refine .bind (P := fun a v => a = .refused (.error (.forKey k)) ∧ v = w) ?_ ?_
      · unfold fetch
        refine .cache ?_
        rw [hacquired]
        dsimp only
        rw [if_neg hk]
        exact .pure ⟨rfl, rfl⟩
      · rintro a v ⟨rfl, rfl⟩
        exact .pure ⟨rfl, rfl, .of_told (.refl _)⟩
  | _ => cases hop

theorem perform_confined (ha : host.Answering t answer) (hop : op.subject? = some key)
    (bound : Nat) : Confined t key (Act.perform host (bound + 2) op) := by
  obtain ⟨o, ho⟩ := carryOut_comes ha hop (Act.perform host (bound + 1)) bound
  refine ⟨fun v => if v.handle = .held then o v else ⟨afterDrop op, v.found, .nothing⟩, ?_⟩
  intro w hrest hw
  have hcomes : (Act.perform host (bound + 2) op).Returns w (Comes key
      (if w.cache.handle = .held then o (w.aspect key)
        else ⟨afterDrop op, w.cache.find? key, .nothing⟩) w) := by
    split
    · rename_i hh
      have hfree := hrest.sound.admission.acquire?_isSome key
      refine (perform_finishes hh (P := Comes key (o (w.aspect key)) (w.push (.operation op)))
        ((ho (w.push (.operation op)) ⟨hw.now, hw.calm⟩ hfree).mono ?_)).mono ?_
      · exact fun _ _ h => ⟨h, h.concerns.handle.trans hh⟩
      · rintro a _ ⟨v, h, rfl⟩
        exact ⟨h.answer, h.found, h.concerns.inside.quiet (.silent rfl _)⟩
    · rename_i hh
      unfold Act.perform
      refine .cache ?_
      rw [if_neg hh]
      exact .pure ⟨rfl, rfl, .of_told (.refl w)⟩
  obtain ⟨a, v, hperform, hv⟩ := hcomes
  refine ⟨a, v, hperform, ?_, hrest.perform hperform⟩
  dsimp only [World.aspect] at hv ⊢
  split at hv <;> rename_i hh
  · rwa [if_pos hh]
  · rwa [if_neg hh]

variable {α β : Type} {x : Act ν η μ α} {y : Act ν η μ β} {w : World ν η μ}

/-- Work that is confined to different keys may trade places. -/
theorem Confined.commute (hx : x.Confined t key) (hy : y.Confined t key') (hne : key ≠ key')
    (hrest : w.Rested) (hw : w.Ready t key) (hw' : w.Ready t key') :
    ∃ a b w₁ w₂ u v, x w = .ok a w₁ ∧ y w₁ = .ok b u ∧ y w = .ok b w₂ ∧ x w₂ = .ok a v ∧
      (∀ j, j ≠ key → w₁.cache.find? j = w.cache.find? j) ∧
      (∀ j, j ≠ key' → w₂.cache.find? j = w.cache.find? j) ∧ w.Agrees u v := by
  obtain ⟨o, ho⟩ := hx
  obtain ⟨o', ho'⟩ := hy
  obtain ⟨a, w₁, hx₁, h₁, hr₁⟩ := ho w hrest hw
  obtain ⟨b, u, hy₁, hu, hru⟩ := ho' w₁ hr₁ (h₁.concerns.ready hne hw')
  obtain ⟨b', w₂, hy₂, h₂, hr₂⟩ := ho' w hrest hw'
  obtain ⟨a', v, hx₂, hv, hrv⟩ := ho w₂ hr₂ (h₂.concerns.ready hne.symm hw)
  rw [h₁.concerns.aspect hne] at hu
  rw [h₂.concerns.aspect hne.symm] at hv
  obtain rfl : b = b' := hu.answer.trans h₂.answer.symm
  obtain rfl : a = a' := h₁.answer.trans hv.answer.symm
  refine ⟨a, b, w₁, w₂, u, v, hx₁, hy₁, hy₂, hx₂, h₁.concerns.others, h₂.concerns.others, ?_⟩
  exact agrees_of_trade hne h₁ hu h₂ hv hru hrv

end Act

theorem Between.rested {host : Host ν η μ} {settings : Settings η} {hosting : Hosting}
    {w : World ν η μ} (h : Between host settings hosting w) : w.Rested := by
  have hcalls := (Reachable.between h).calls
  refine ⟨hcalls, ?_⟩
  rw [← hcalls]
  exact (Reachable.between h).sound.1

/-- Operations on different keys commute. Between turns, where deadlines alone decide what has expired and
the host's functions only think and answer by what they are asked, two operations on different keys may be
performed in either order: each answers the same, and the worlds in which they end agree. Each of them
leaves what is stored under any other key as it was. -/
theorem operations_on_different_keys_commute {host : Host ν η μ} {settings : Settings η}
    {hosting : Hosting} {w : World ν η μ} (h : Between host settings hosting w)
    {answer : (c : Callback ν η) → c.Answer} (ha : host.Answering w.now answer)
    (hd : w.cache.Dated) {op op' : Operation ν η} {key key' : Key} (hop : op.subject? = some key)
    (hop' : op'.subject? = some key') (hne : key ≠ key') (bound : Nat) :
    ∃ a a' w₁ w₂ u v,
      Act.perform host (bound + 2) op w = .ok a w₁ ∧ Act.perform host (bound + 2) op' w₁ = .ok a' u ∧
      Act.perform host (bound + 2) op' w = .ok a' w₂ ∧ Act.perform host (bound + 2) op w₂ = .ok a v ∧
      (∀ j, j ≠ key → w₁.cache.find? j = w.cache.find? j) ∧
      (∀ j, j ≠ key' → w₂.cache.find? j = w.cache.find? j) ∧ w.Agrees u v :=
  (Act.perform_confined ha hop bound).commute (Act.perform_confined ha hop' bound) hne h.rested
    (h.rested.ready rfl hd key) (h.rested.ready rfl hd key')

/-- The answers of a host that keeps what is stored under `"a"`. -/
def Callback.retentive : (c : Callback Nat String) → c.Answer
  | .expiring _ key _ _ => if key = "a" then .cancel else .proceed
  | .expired .. => .dispose
  | .release .. => ()
  | .factory .. => .ok 3
  | .defaultPolicy .. => none

def Host.retentive : Host Nat String Unit where
  accepts _ := true
  consult _ _ memory := (.ok true, memory)
  respond c := .done c.retentive

def World.threeKept : World Nat String Unit :=
  (Act.turn .retentive 6 .insertThreeDue).after (.fresh .keeping .task .zero ())

/-- A read that is vetoed, and a fetch that evicts and makes anew. -/
theorem veto_and_refetch_commute : ∃ a a' w₁ w₂ u v,
    Act.perform .retentive 6 (.get "a") World.threeKept = .ok a w₁ ∧
    Act.perform .retentive 6 (.fetch "b" "make" .default) w₁ = .ok a' u ∧
    Act.perform .retentive 6 (.fetch "b" "make" .default) World.threeKept = .ok a' w₂ ∧
    Act.perform .retentive 6 (.get "a") w₂ = .ok a v ∧
    (∀ j, j ≠ "a" → w₁.cache.find? j = World.threeKept.cache.find? j) ∧
    (∀ j, j ≠ "b" → w₂.cache.find? j = World.threeKept.cache.find? j) ∧ World.threeKept.Agrees u v := by
  have hbetween : Between .retentive .keeping .task World.threeKept :=
    .turn 6 .insertThreeDue (.ok ()) (.fresh .zero ()) rfl
  have hanswers : Host.retentive.Answering World.threeKept.now Callback.retentive := fun _ _ => rfl
  exact operations_on_different_keys_commute hbetween hanswers
    (Cache.dated_of_rows (by decide +kernel)) rfl rfl (by decide) 4

end ExpiringCache
