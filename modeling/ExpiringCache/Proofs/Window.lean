import ExpiringCache.Proofs.Eviction
import ExpiringCache.Proofs.Excerpts
import ExpiringCache.Proofs.Stretches
import ExpiringCache.Proofs.Strides

/-!
# While handlers decide

While handlers decide about an insertion they may use the cache, and so may whatever they set off. As
long as the insertion is still stored it is there for all of them: reads return its value, insertions
that are not to overwrite leave it, and it is listed; and nobody offers it to handlers a second time or
evicts it. Only a fetch of its key is refused if a fetch of that key is in progress already, because it
would wait for itself.
-/

namespace ExpiringCache

variable {ν η μ α : Type}

/-! ## In the middle of callbacks -/

/-- A world in the middle of a callback: the callback was entered in a run, and since then the host has
done whatever a program can do. -/
inductive Midway (host : Host ν η μ) (settings : Settings η) (hosting : Hosting) :
    World ν η μ → Prop
  | entered {w : World ν η μ} {l : Line ν η} {before : List (Line ν η)} {c : Callback ν η}
      (hw : Reachable host settings hosting w) (hl : l :: before <:+ w.journal)
      (hr : l.record = .entered c) (memory : μ) :
      Midway host settings hosting ⟨l.now, l.cache, memory, l.calls, l :: before⟩
  | ran {v : World ν η μ} {α : Type} (h : Midway host settings hosting v) (bound : Nat)
      (p : Program ν η μ α) :
      Midway host settings hosting ((p.run (Act.perform host bound)).after v)

theorem mem_or_suffix_of_cons_suffix_append {a : α} {new old rest : List α}
    (h : a :: rest <:+ new ++ old) : a ∈ new ∨ a :: rest <:+ old := by
  induction new with
  | nil => exact Or.inr h
  | cons b new ih =>
    rcases List.suffix_cons_iff.mp h with heq | h
    · exact Or.inl (List.mem_cons.mpr (Or.inl (List.cons.inj heq).1))
    · exact (ih h).imp (List.mem_cons_of_mem b) fun h => h

/-- A new line of which no insertion comes in or leaves shows a world on the way. -/
theorem Moves.line {level : Nat} {w v : World ν η μ} (h : Moves level w v) {l : Line ν η}
    {before : List (Line ν η)} (hl : l :: before <:+ v.journal) (hr : l.record.isPassage = false) :
    l :: before <:+ w.journal ∨ ∃ u, Moves level w u ∧ l.Lawful before ∧ u.line l.record = l ∧
      u.journal = before := by
  induction h with
  | refl => exact Or.inl hl
  | @tail v u hv hm ih =>
    have earlier : ∀ new : List (Line ν η), u.journal = new ++ v.journal →
        (∀ m ∈ new, m.record.isPassage = true) → l :: before <:+ v.journal := by
      intro new hj hnew
      rw [hj] at hl
      rcases mem_or_suffix_of_cons_suffix_append hl with hmem | h
      · rw [hnew l hmem] at hr
        cases hr
      · exact h
    -- the lines of all steps but a note are passages
    cases hm with
    | note r hp hlaw =>
      rcases List.suffix_cons_iff.mp hl with heq | h
      · obtain ⟨rfl, rfl⟩ := List.cons.inj heq
        exact Or.inr ⟨v, hv, hlaw, rfl, rfl⟩
      · exact ih h
    | place key value policy =>
      apply ih (earlier (v.placedLines key value policy) ?_ ?_)
      · rw [World.journal_tended, World.journal_placed]
      · intro m hmem
        unfold World.placedLines at hmem
        split at hmem <;> simp only [List.mem_cons, List.not_mem_nil, or_false] at hmem
        · rw [hmem]
          rfl
        · rcases hmem with rfl | rfl <;> rfl
    | takeOut key e exit f hf hlaw =>
      apply ih (earlier [_] rfl ?_)
      intro m hmem
      rw [List.mem_singleton.mp hmem]
      rfl
    | empty =>
      rw [World.emptied_eq] at earlier
      apply ih (earlier _ rfl ?_)
      intro m hmem
      obtain ⟨r, -, rfl⟩ := List.mem_map.mp (List.mem_reverse.mp hmem)
      rfl
    | close =>
      rw [World.emptied_eq] at earlier
      apply ih (earlier _ rfl ?_)
      intro m hmem
      obtain ⟨r, -, rfl⟩ := List.mem_map.mp (List.mem_reverse.mp hmem)
      rfl
    | _ => exact ih hl

theorem Sound.pending_of_deciding {calls : List (Activity ν η)} {c : Cache ν η}
    (h : Sound calls c) {key : Key} {g : Nat} {e : Entry ν η} (hd : .deciding key g ∈ calls)
    (he : c.insertion? key g = some e) : e.pending = true := by
  obtain ⟨hf, hg⟩ := Cache.insertion?_eq_some.mp he
  rw [h.coherent.pending key e hf, hg]
  have hpos : 0 < calls.countP (·.decides key g) :=
    List.countP_pos_iff.mpr ⟨_, hd, by simp [Activity.decides]⟩
  have honce := h.marks.once key g
  omega

theorem World.eq_note_of_line {u : World ν η μ} {l : Line ν η} {before : List (Line ν η)}
    (hl : u.line l.record = l) (hj : u.journal = before) (memory : μ) :
    (⟨l.now, l.cache, memory, l.calls, l :: before⟩ : World ν η μ) =
      ({ u with memory := memory } : World ν η μ).note l.record := by
  subst hj
  rw [← hl]
  rfl

namespace Midway

variable {host : Host ν η μ} {settings : Settings η} {hosting : Hosting} {v : World ν η μ}

theorem moves (h : Midway host settings hosting v) :
    ∃ t memory, Moves 0 (World.fresh settings hosting t memory) v := by
  induction h with
  | @entered w l before c hw hl hr memory =>
    obtain ⟨t, m, hrun⟩ := hw.run
    have hp : l.record.isPassage = false := by
      rw [hr]
      rfl
    rcases hrun.moves.line hl hp with h | ⟨u, hu, hlaw, hline, hj⟩
    · exact absurd h (by simp [World.fresh])
    · refine ⟨t, m, ?_⟩
      have hmem : Moves 0 (World.fresh settings hosting t m) { u with memory := memory } :=
        hu.tail (.memory memory)
      rw [World.eq_note_of_line hline hj memory]
      refine hmem.tail (.note l.record hp ?_)
      have hl' : ({ u with memory := memory } : World ν η μ).line l.record = l := hline
      rw [hl']
      show l.Lawful u.journal
      rw [hj]
      exact hlaw
  | ran _ bound p ih =>
    obtain ⟨t, memory, hm⟩ := ih
    obtain ⟨seg, hrun⟩ := (Act.run_runs (Act.perform_performs host bound) p _ (Nat.zero_le _)).ending
    exact ⟨t, memory, hm.trans hrun.moves⟩

theorem recorded (h : Midway host settings hosting v) : Recorded v := by
  obtain ⟨t, memory, hm⟩ := h.moves
  exact (Recorded.fresh settings hosting t memory).moves hm

theorem poised (h : Midway host settings hosting v) : Poised host v := by
  induction h with
  | @entered w l before c hw hl hr memory =>
    obtain ⟨t, m, hs⟩ := hw.strides
    rcases hs.line hl with h | ⟨u, hu, -, hnow, hcalls, hcache, hj⟩
    · exact absurd h (by simp [World.fresh])
    · have hp := hu.poised (.fresh settings hosting t m)
      apply hp.less (Int.le_of_eq (congrArg _ hnow)) (Nat.le_of_eq (by rw [hcache]))
      · intro key g hd
        rw [hcalls]
        exact hd
      · intro key e he
        rw [hcache]
        exact ⟨e, he, rfl, rfl⟩
  | ran _ bound p ih => exact ((Passes.governs host).run bound p _).after.2.poised ih

/-- An insertion that handlers decide about is marked as long as it is stored, and if it has a deadline
then that has been reached. -/
theorem marked (h : Midway host settings hosting v) {key : Key} {g : Nat} {e : Entry ν η}
    (hd : .deciding key g ∈ v.calls) (he : v.cache.insertion? key g = some e) :
    e.pending = true ∧ host.accepts key = true ∧
      ∀ policy, e.policy = some policy → policy.isTimed = true → e.due v.now = true := by
  obtain ⟨hf, -⟩ := Cache.insertion?_eq_some.mp he
  exact ⟨h.recorded.sound.pending_of_deciding hd he, h.poised.accepted key e hf,
    fun policy hp ht => h.poised.due key g e policy hd he hp ht⟩

end Midway

/-! ## Dispatches -/

/-- The line belongs to a dispatch of the insertion `g` of `key`: it is offered, taken out as expired or
announced, or a handler is called about it. -/
def Line.dispatches (key : Key) (g : Nat) (l : Line ν η) : Bool :=
  match l.record, l.calls with
  | .offered h k _ _, _ => k == key && h == g
  | .entered (.expiring ..), .deciding k h :: _ => k == key && h == g
  | .left h k _ .expired, _ => k == key && h == g
  | .announced h k _ _, _ => k == key && h == g
  | .entered (.expired ..), .telling k h :: _ => k == key && h == g
  | _, _ => false

structure Credible (journal : List (Line ν η)) : Prop where
  chronicle : Chronicle journal
  sound : ∀ l ∈ journal, Sound l.calls l.cache

namespace Credible

variable {journal before : List (Line ν η)} {l : Line ν η} {key : Key} {g : Nat}

theorem of_moves {settings : Settings η} {hosting : Hosting} {t : Instant} {memory : μ}
    {v : World ν η μ} (h : Moves 0 (World.fresh settings hosting t memory) v) :
    Credible v.journal := by
  refine ⟨((Recorded.fresh settings hosting t memory).moves h).chronicle, ?_⟩
  have kept : ∀ v : World ν η μ, Moves 0 (World.fresh settings hosting t memory) v →
      Sound v.calls v.cache ∧ ∀ l ∈ v.journal, Sound l.calls l.cache := by
    intro v h
    induction h with
    | refl => exact sound_lines_fresh settings hosting t memory
    | tail _ hm ih => exact hm.sound_lines ih
  exact (kept v h).2

/-- Two decisions about one insertion are never in progress at once. -/
theorem decided_once (h : Credible journal) (hl : l ∈ journal) {outer : List (Activity ν η)}
    (hc : l.calls = .deciding key g :: outer) : .deciding key g ∉ outer := by
  intro hmem
  have hpos : 0 < outer.countP (·.decides key g) :=
    List.countP_pos_iff.mpr ⟨_, hmem, by simp [Activity.decides]⟩
  have honce := (h.sound l hl).marks.once key g
  rw [hc, List.countP_cons_of_pos (by simp [Activity.decides])] at honce
  omega

theorem offered (h : Credible journal) (hs : l :: before <:+ journal) {value : ν}
    {policy : Policy η} (hr : l.record = .offered g key value policy) :
    ∃ outer, l.calls = .deciding key g :: outer ∧ .deciding key g ∉ outer := by
  obtain ⟨outer, -, -, -, hc, -⟩ := h.chronicle.offer hs hr
  exact ⟨outer, hc, h.decided_once (hs.subset (List.mem_cons_self ..)) hc⟩

/-- Whoever takes an insertion out as expired had it decided about, so nobody else does so then. -/
theorem expired (h : Credible journal) (hs : l :: before <:+ journal) {value : ν}
    (hr : l.record = .left g key value .expired) : .deciding key g ∉ l.calls := by
  obtain ⟨-, d, rest, answers, e, policy, -, -, -, -, hoffer, -, -, -, -, hx, -⟩ :=
    h.chronicle.expiry hs hr
  obtain ⟨asked, start, earlier, -, hcalls, -, hsince⟩ := hoffer
  have hd : d :: rest <:+ journal := (hx.suffix.trans (List.suffix_cons _ _)).trans hs
  have hin : start ∈ journal := (hsince.suffix.trans ((List.suffix_cons _ _).trans hd)).subset
    (List.mem_cons_self ..)
  exact h.decided_once hin hcalls

theorem announced (h : Credible journal) (hs : l :: before <:+ journal) {value : ν}
    {initial : Disposal} (hr : l.record = .announced g key value initial) :
    ∃ outer, l.calls = .telling key g :: outer ∧ .deciding key g ∉ outer := by
  obtain ⟨gone, rest, rfl, hgone, hc, -⟩ := h.chronicle.announcement hs hr
  exact ⟨gone.calls, hc, h.expired ((List.suffix_cons _ _).trans hs) hgone⟩

/-- No insertion is dispatched while handlers decide about it in a dispatch that is in progress. -/
theorem dispatched_once (h : Credible journal) (hl : l ∈ journal)
    (hd : l.dispatches key g = true) : .deciding key g ∉ l.calls.tail := by
  obtain ⟨before, hs⟩ := exists_suffix_of_mem hl
  unfold Line.dispatches at hd
  split at hd
  · rename_i i k value policy hr
    simp only [Bool.and_eq_true, beq_iff_eq] at hd
    obtain ⟨rfl, rfl⟩ := hd
    obtain ⟨outer, hc, hno⟩ := h.offered hs hr
    rw [hc]
    exact hno
  · rename_i handler k' value policy k i outer hr hc
    simp only [Bool.and_eq_true, beq_iff_eq] at hd
    obtain ⟨rfl, rfl⟩ := hd
    rw [hc]
    exact h.decided_once hl hc
  · rename_i i k value hr
    simp only [Bool.and_eq_true, beq_iff_eq] at hd
    obtain ⟨rfl, rfl⟩ := hd
    exact fun hmem => h.expired hs hr (List.mem_of_mem_tail hmem)
  · rename_i i k value initial hr
    simp only [Bool.and_eq_true, beq_iff_eq] at hd
    obtain ⟨rfl, rfl⟩ := hd
    obtain ⟨outer, hc, hno⟩ := h.announced hs hr
    rw [hc]
    exact hno
  · rename_i handler k' value running k i outer hr hc
    simp only [Bool.and_eq_true, beq_iff_eq] at hd
    obtain ⟨rfl, rfl⟩ := hd
    have hnews : l.NewsLawful handler k' value running before := h.chronicle.lawful hs hr
    obtain ⟨g', initial, start, rest, told, answers, more, hstart, hcalls, -, -, -, hsince⟩ := hnews
    have hss : start :: rest <:+ journal := hsince.suffix.trans ((List.suffix_cons _ _).trans hs)
    obtain ⟨outer', hc', hno⟩ := h.announced hss hstart
    rw [← hcalls, hc'] at hc
    cases hc
    rw [← hcalls, hc']
    exact hno
  · cases hd

end Credible

/-- What is new was written inside of work that has begun since, or belongs to no dispatch. -/
structure Deepens (w v : World ν η μ) : Prop where
  calls : v.calls = w.calls
  lines : ∃ seg, v.journal = seg ++ w.journal ∧ ∀ l ∈ seg, (∃ a, a :: w.calls <:+ l.calls) ∨
    ∀ key g, l.dispatches key g = false

/-- What stands around work that a program begins belongs to no dispatch. -/
theorem Line.dispatches_of_concludes {l : Line ν η} (h : l.concludes = true) (key : Key) (g : Nat) :
    l.dispatches key g = false := by
  unfold Line.concludes at h
  unfold Line.dispatches
  split at h <;> simp_all

theorem Skirts.deepens {w v : World ν η μ} (h : Skirts w v) : Deepens w v := by
  obtain ⟨seg, hj, hseg⟩ := h.lines
  refine ⟨h.calls, seg, hj, fun l hl => ?_⟩
  rcases hseg l hl with ⟨a, -, hin⟩ | ⟨-, hends⟩
  · exact Or.inl ⟨a, hin⟩
  · exact Or.inr (Line.dispatches_of_concludes hends)

theorem Act.perform_deepens (host : Host ν η μ) (depth : Nat) (op : Operation ν η) :
    (Act.perform host depth op).Follows Deepens :=
  fun w => (Act.perform_skirts host depth op w).mono fun _ _ h => h.deepens

/-! ## Operations that call nobody -/

/-- Nobody is called and nothing that is stored changes; the counters change as `f` says. -/
structure Aloof (f : Stats → Stats) (w v : World ν η μ) : Prop where
  now : v.now = w.now
  calls : v.calls = w.calls
  entries : v.cache.entries = w.cache.entries
  stats : v.cache.stats = f w.cache.stats
  handle : v.cache.handle = w.cache.handle
  lines : ∃ seg, v.journal = seg ++ w.journal ∧ ∀ l ∈ seg, ∀ c, l.record ≠ .entered c

namespace Aloof

variable {f : Stats → Stats} {w v : World ν η μ}

theorem nothing (w : World ν η μ) : Aloof id w w := ⟨rfl, rfl, rfl, rfl, rfl, [], rfl, by simp⟩

theorem hit (key : Key) (w : World ν η μ) :
    Aloof Stats.hit w ((w.change (.count Stats.hit)).note (.read key true)) :=
  ⟨rfl, rfl, rfl, rfl, rfl, [_], rfl, by simp⟩

theorem inquiry {r : Except Halt α} (h : Inquiry r w v) : Aloof id w v := by
  obtain ⟨asked, hj, hasked, -⟩ := h.lines
  refine ⟨h.now, h.calls, by rw [h.cache], by rw [h.cache]; rfl, by rw [h.cache], asked, hj, ?_⟩
  intro l hl c hr
  have hconsults := (hasked l hl).1
  unfold Line.consults at hconsults
  rw [hr] at hconsults
  cases hconsults

theorem finished {op : Operation ν η} (h : Aloof f (w.push (.operation op)) v) :
    Aloof f w (v.pop.note (.finished op)) := by
  obtain ⟨seg, hj, hseg⟩ := h.lines
  refine ⟨h.now, ?_, h.entries, h.stats, h.handle, v.pop.line (.finished op) :: seg, ?_, ?_⟩
  · show v.calls.tail = w.calls
    rw [h.calls]
    rfl
  · exact congrArg (List.cons _) hj
  · intro l hl
    rcases List.mem_cons.mp hl with rfl | hl
    · exact fun c hr => nomatch hr
    · exact hseg l hl

theorem held {key : Key} {slot : Nat} {acquired : Admission}
    (h : Aloof f ((w.change ({ · with admission := acquired })).push (.fetching key slot)) v) :
    Aloof f w ((v.change fun c => { c with admission := c.admission.release key slot }).pop) := by
  refine ⟨h.now, ?_, h.entries, h.stats, h.handle, h.lines⟩
  show v.calls.tail = w.calls
  rw [h.calls]
  rfl

end Aloof

namespace Act

variable {host : Host ν η μ} {invoke : Invoke ν η μ} {w : World ν η μ} {key : Key} {e : Entry ν η}
  {policy : Policy η}

/-- An operation that leaves the cache with its owner closes nothing at its end. -/
theorem operate_ends {op : Operation ν η} {retries : Nat}
    {Q : Except Halt (Answer ν) → World ν η μ → Prop}
    (h : (carryOut host invoke retries op).Ends (w.push (.operation op)) fun r v =>
      r ≠ .error .exhausted ∧ v.cache.handle = .held ∧ Q r (v.pop.note (.finished op))) :
    (operate host invoke retries op).Ends w Q := by
  apply operate_closes
  apply h.mono
  rintro r v ⟨hr, hh, hq⟩
  unfold Closes
  rw [if_neg (by rw [cutShort_eq_false hr]; decide)]
  apply (closeUnused_returns (w := v.pop) hh).ends.mono
  rintro _ _ ⟨_, rfl, rfl⟩
  exact hq

/-- An expired entry that is marked is read as it is. -/
theorem lookup_marked {Q : Option ν → World ν η μ → Prop} {access : Access} {retries : Nat}
    (hf : w.cache.find? key = some e) (hm : e.pending = true) (hp : e.policy = some policy)
    (ht : policy.isTimed = true) (hdue : e.due w.now = true)
    (h : (readEnds access key (some e.value)).Returns w Q) :
    (lookup host invoke access key (retries + 1)).Returns w Q := by
  unfold lookup
  refine .cache ?_
  rw [hf]
  refine .bind (expired_timed host hp ht w) ?_
  rintro found v ⟨rfl, rfl⟩
  rw [hdue]
  simp only [hm]
  exact h

theorem occupied_marked (hf : w.cache.find? key = some e) (hm : e.pending = true) :
    (occupied host key).Returns w fun taken v => taken = true ∧ v = w := by
  unfold occupied
  refine .cache ?_
  rw [hf]
  simp only [hm, if_true]
  exact .pure ⟨rfl, rfl⟩

theorem fetch_marked (hs : Sound w.calls w.cache) (ha : host.accepts key = true)
    (hf : w.cache.find? key = some e) (hm : e.pending = true) (hp : e.policy = some policy)
    (ht : policy.isTimed = true) (hdue : e.due w.now = true) (factory : η)
    (given : Option (Policy η)) (retries : Nat) :
    (fetch host invoke key factory ⟨given, false⟩ (retries + 1)).Returns w fun r v =>
      (∀ slot, .fetching key slot ∈ w.calls → r = .refused .waitsForItself ∧ Aloof id w v) ∧
      ((∀ slot, .fetching key slot ∉ w.calls) → r = .value e.value ∧ Aloof Stats.hit w v) := by
  have hinside : (w.cache.admission.acquire? key).isSome = true ↔
      ∀ slot, .fetching key slot ∉ w.calls := by
    rw [hs.admission.acquire?_isSome_iff]
    exact forall_congr' fun slot => not_congr mem_inside
  unfold fetch
  refine .cache ?_
  cases hacq : w.cache.admission.acquire? key with
  | none =>
    rw [hacq] at hinside
    refine .pure ⟨fun _ _ => ⟨rfl, .nothing w⟩, ?_⟩
    intro hno
    cases hinside.mpr hno
  | some entered =>
    rw [hacq] at hinside
    have hno := hinside.mp rfl
    obtain ⟨acquired, slot⟩ := entered
    simp only [ha, if_true]
    have hread : (fetchInside host invoke key factory ⟨given, false⟩ (retries + 1)).Returns
        ((w.change ({ · with admission := acquired })).push (.fetching key slot)) fun r v =>
          r = .value e.value ∧ Aloof Stats.hit
            ((w.change ({ · with admission := acquired })).push (.fetching key slot)) v := by
      unfold fetchInside
      refine .bind (P := fun found v => found = some e.value ∧ Aloof Stats.hit
        ((w.change ({ · with admission := acquired })).push (.fetching key slot)) v) ?_ ?_
      · exact lookup_marked (w := (w.change ({ · with admission := acquired })).push
          (.fetching key slot)) hf hm hp ht hdue (.change (.note (.pure ⟨rfl, .hit key _⟩)))
      · rintro found v ⟨rfl, hv⟩
        exact .pure ⟨rfl, hv⟩
    refine .bracket (hread.mono ?_)
    rintro r v ⟨rfl, hv⟩
    exact ⟨fun slot hslot => absurd hslot (hno slot), fun _ => ⟨rfl, hv.held⟩⟩

end Act

/-! ## Operations on a marked entry -/

namespace Act

variable {host : Host ν η μ} {v : World ν η μ} {key : Key} {e : Entry ν η} {policy : Policy η}

section

variable (hh : v.cache.handle = .held) (ha : host.accepts key = true)
  (hf : v.cache.find? key = some e) (hm : e.pending = true) (hp : e.policy = some policy)
  (ht : policy.isTimed = true) (hdue : e.due v.now = true)

include hh ha hf hm hp ht hdue

theorem get_marked (n : Nat) : (perform host (n + 2) (.get key)).Returns v fun answer u =>
    answer = .found (some e.value) ∧ Aloof Stats.hit v u := by
  have hwork : (carryOut host (call host (n + 1)) (n + 1) (.get key)).Returns
      (v.push (.operation (.get key))) fun answer u => (answer = .found (some e.value) ∧
        Aloof Stats.hit (v.push (.operation (.get key))) u) ∧ u.cache.handle = .held := by
    simp only [carryOut, keyed, ha, if_true]
    refine .bind (lookup_marked (w := v.push (.operation (.get key))) (Q := fun found u =>
      found = some e.value ∧ Aloof Stats.hit (v.push (.operation (.get key))) u)
      hf hm hp ht hdue (.change (.note (.pure ⟨rfl, .hit key _⟩)))) ?_
    rintro found u ⟨rfl, hu⟩
    exact .pure ⟨⟨rfl, hu⟩, hu.handle.trans hh⟩
  apply (perform_finishes hh hwork).mono
  rintro answer u ⟨u₁, ⟨rfl, hu⟩, rfl⟩
  exact ⟨rfl, hu.finished⟩

theorem contains_marked (n : Nat) : (perform host (n + 2) (.contains key)).Returns v
    fun answer u => answer = .flag true ∧ Aloof id v u := by
  have hwork : (carryOut host (call host (n + 1)) (n + 1) (.contains key)).Returns
      (v.push (.operation (.contains key))) fun answer u => (answer = .flag true ∧
        Aloof id (v.push (.operation (.contains key))) u) ∧ u.cache.handle = .held := by
    simp only [carryOut, keyed, ha, if_true]
    refine .bind (lookup_marked (w := v.push (.operation (.contains key))) (Q := fun found u =>
      found = some e.value ∧ Aloof id (v.push (.operation (.contains key))) u)
      hf hm hp ht hdue (.pure ⟨rfl, .nothing _⟩)) ?_
    rintro found u ⟨rfl, hu⟩
    exact .pure ⟨⟨rfl, hu⟩, hu.handle.trans hh⟩
  apply (perform_finishes hh hwork).mono
  rintro answer u ⟨u₁, ⟨rfl, hu⟩, rfl⟩
  exact ⟨rfl, hu.finished⟩

theorem perform_fetch_marked (hs : Sound v.calls v.cache) (n : Nat) (factory : η)
    (given : Option (Policy η)) :
    (perform host (n + 2) (.fetch key factory ⟨given, false⟩)).Returns v fun answer u =>
      (∀ slot, .fetching key slot ∈ v.calls → answer = .refused .waitsForItself ∧ Aloof id v u) ∧
      ((∀ slot, .fetching key slot ∉ v.calls) →
        answer = .fetched e.value ∧ Aloof Stats.hit v u) := by
  let op : Operation ν η := .fetch key factory ⟨given, false⟩
  have hin : ∀ slot, .fetching key slot ∈ (v.push (.operation op)).calls ↔
      .fetching key slot ∈ v.calls := by
    intro slot
    simp
  have hwork : (carryOut host (call host (n + 1)) (n + 1) op).Returns (v.push (.operation op))
      fun answer u => ((∀ slot, .fetching key slot ∈ v.calls →
          answer = .refused .waitsForItself ∧ Aloof id (v.push (.operation op)) u) ∧
        ((∀ slot, .fetching key slot ∉ v.calls) →
          answer = .fetched e.value ∧ Aloof Stats.hit (v.push (.operation op)) u)) ∧
        u.cache.handle = .held := by
    refine .bind (fetch_marked (w := v.push (.operation op)) ((Sound.plain_iff rfl).mpr hs) ha hf hm
      hp ht hdue factory given n) ?_
    rintro r u ⟨hwait, hread⟩
    by_cases hno : ∀ slot, .fetching key slot ∉ v.calls
    · obtain ⟨rfl, hu⟩ := hread fun slot hslot => hno slot ((hin slot).mp hslot)
      exact .pure ⟨⟨fun slot hslot => absurd hslot (hno slot), fun _ => ⟨rfl, hu⟩⟩,
        hu.handle.trans hh⟩
    · obtain ⟨slot, hslot⟩ := Classical.not_forall_not.mp hno
      obtain ⟨rfl, hu⟩ := hwait slot ((hin slot).mpr hslot)
      exact .pure ⟨⟨fun _ _ => ⟨rfl, hu⟩, fun h => absurd h hno⟩, hu.handle.trans hh⟩
  apply (perform_finishes hh hwork).mono
  rintro answer u ⟨u₁, ⟨hwait, hread⟩, rfl⟩
  refine ⟨?_, ?_⟩
  · intro slot hslot
    obtain ⟨rfl, hu⟩ := hwait slot hslot
    exact ⟨rfl, hu.finished⟩
  · intro hno
    obtain ⟨rfl, hu⟩ := hread hno
    exact ⟨rfl, hu.finished⟩

end

theorem perform_insert_marked {n : Nat} {value : ν} {given asked : Option (Policy η)}
    {u : World ν η μ} (hh : v.cache.handle = .held) (ha : host.accepts key = true)
    (hgiven : policyFor (call host n) key given
      (v.push (.operation (.insert key value ⟨given, false⟩))) = .ok asked u)
    (hheld : u.cache.handle = .held) (hf : u.cache.find? key = some e) (hm : e.pending = true) :
    perform host (n + 1) (.insert key value ⟨given, false⟩) v =
      .ok .done (u.pop.note (.finished (.insert key value ⟨given, false⟩))) := by
  have hwork : (carryOut host (call host n) n (.insert key value ⟨given, false⟩)).Returns
      (v.push (.operation (.insert key value ⟨given, false⟩))) fun answer u' =>
        (answer = .done ∧ u' = u) ∧ u'.cache.handle = .held := by
    simp only [carryOut, keyed, ha, if_true]
    refine .bind (P := fun _ u' => u' = u) (.bind (P := fun _ u' => u' = u) ⟨_, _, hgiven, rfl⟩ ?_) ?_
    · rintro _ _ rfl
      simp only [Bool.false_eq_true, if_false]
      refine .bind (occupied_marked hf hm) ?_
      rintro taken _ ⟨rfl, rfl⟩
      exact .pure rfl
    · rintro _ _ rfl
      exact .pure ⟨⟨rfl, rfl⟩, hheld⟩
  obtain ⟨answer, _, hrun, _, ⟨rfl, rfl⟩, rfl⟩ := perform_finishes hh hwork
  exact hrun

theorem perform_keys_marked (hh : v.cache.handle = .held) (hf : v.cache.find? key = some e)
    (hm : e.pending = true) (n : Nat) :
    (perform host (n + 1) .keys).Ends v fun r u => Aloof id v u ∧
      ((∃ ks, r = .ok (.keys ks) ∧ key ∈ ks) ∨ ∃ seg, u.journal = seg ++ v.journal ∧
        ∃ l ∈ seg, ∃ predicate, l.record = .consulted predicate none) := by
  have hwork : (carryOut host (call host n) n .keys).Ends (v.push (.operation .keys)) fun r u =>
      Inquiry r (v.push (.operation .keys)) u ∧ ∀ answer, r = .ok answer →
        ∃ ks, answer = .keys ks ∧ key ∈ ks := by
    apply (liveKeys_inquiry host (v.push (.operation .keys))).bind
    · rintro ks u ⟨hu, hks⟩
      refine ends_pure.mpr ⟨hu.answered _, ?_⟩
      intro answer h
      cases h
      exact ⟨ks, rfl, hks ks rfl key e hf hm⟩
    · rintro halt u ⟨hu, -⟩
      exact ⟨hu.failed, fun answer h => nomatch h⟩
  unfold perform
  apply ends_cache.mpr
  rw [if_pos hh]
  refine operate_ends (hwork.mono ?_)
  rintro r u ⟨hu, hks⟩
  have haloof : Aloof id v (u.pop.note (.finished .keys)) := (Aloof.inquiry hu).finished
  obtain ⟨asked, hj, -, hfail⟩ := hu.lines
  refine ⟨?_, by rw [hu.cache]; exact hh, haloof, ?_⟩
  · rintro rfl
    obtain ⟨⟨message, h⟩, -⟩ := hfail .exhausted rfl
    cases h
  · cases r with
    | ok answer =>
      obtain ⟨ks, rfl, hmem⟩ := hks answer rfl
      exact Or.inl ⟨ks, rfl, hmem⟩
    | error halt =>
      obtain ⟨-, l, hl, hrec⟩ := hfail halt rfl
      exact Or.inr ⟨u.pop.line (.finished .keys) :: asked, congrArg (List.cons _) hj, l,
        List.mem_cons_of_mem _ hl, hrec⟩

end Act

/-! ## The window -/

/-- What the cache does for whoever uses it in the world `v` while the insertion `g` of `key` is stored
there as `e`. -/
structure Shielded (host : Host ν η μ) (key : Key) (g : Nat) (e : Entry ν η)
    (v : World ν η μ) : Prop where
  get : ∀ n, (Act.perform host (n + 2) (.get key)).Returns v fun answer u =>
    answer = .found (some e.value) ∧ Aloof Stats.hit v u
  contains : ∀ n, (Act.perform host (n + 2) (.contains key)).Returns v fun answer u =>
    answer = .flag true ∧ Aloof id v u
  /-- A fetch reads the value, unless it would wait for a fetch that waits for it. -/
  fetch : ∀ n factory given,
    (Act.perform host (n + 2) (.fetch key factory ⟨given, false⟩)).Returns v fun answer u =>
      (∀ slot, .fetching key slot ∈ v.calls → answer = .refused .waitsForItself ∧ Aloof id v u) ∧
      ((∀ slot, .fetching key slot ∉ v.calls) → answer = .fetched e.value ∧ Aloof Stats.hit v u)
  /-- Once it has its policy, for which a function of the host may have been called, an insertion that
  is not to overwrite changes nothing if it still finds the stored one. -/
  insert : ∀ n value given policy u, Act.policyFor (Act.call host n) key given
      (v.push (.operation (.insert key value ⟨given, false⟩))) = .ok policy u →
    u.cache.handle = .held → (u.cache.insertion? key g).isSome = true →
    Act.perform host (n + 1) (.insert key value ⟨given, false⟩) v =
      .ok .done (u.pop.note (.finished (.insert key value ⟨given, false⟩)))
  /-- The key is listed, unless a predicate of another entry panics. -/
  keys : ∀ n, (Act.perform host (n + 1) .keys).Ends v fun r u => Aloof id v u ∧
    ((∃ ks, r = .ok (.keys ks) ∧ key ∈ ks) ∨ ∃ seg, u.journal = seg ++ v.journal ∧
      ∃ l ∈ seg, ∃ predicate, l.record = .consulted predicate none)
  /-- No operation dispatches the insertion, and as long as it stays nothing about it changes. -/
  others : ∀ n op, (Act.perform host n op).Ends v fun _ u =>
    (∃ seg, u.journal = seg ++ v.journal ∧ ∀ l ∈ seg, l.dispatches key g = false) ∧
      ∀ e', u.cache.insertion? key g = some e' → e' = e

namespace Midway

variable {host : Host ν η μ} {settings : Settings η} {hosting : Hosting} {v : World ν η μ}
  {key : Key} {g : Nat} {e : Entry ν η} {policy : Policy η}

theorem credible (h : Midway host settings hosting v) : Credible v.journal := by
  obtain ⟨t, memory, hm⟩ := h.moves
  exact .of_moves hm

theorem ran_perform (h : Midway host settings hosting v) (n : Nat) (op : Operation ν η) :
    Midway host settings hosting ((Act.perform host n op).after v) := by
  have hends : ((Program.perform op .done).run (Act.perform host n)).Ends v fun _ u =>
      u = (Act.perform host n op).after v := by
    have hself : (Act.perform host n op).Ends v fun _ u => u = (Act.perform host n op).after v :=
      Act.ends_of_after rfl
    exact Act.Ends.bind (P := fun _ u => u = (Act.perform host n op).after v)
      (Act.ends_attempt hself) (fun _ _ hu => hu) fun _ _ hu => hu
  rw [← hends.after]
  exact h.ran n (.perform op .done)

theorem not_dispatched (h : Midway host settings hosting v) (hd : .deciding key g ∈ v.calls)
    (n : Nat) (op : Operation ν η) : (Act.perform host n op).Ends v fun _ u =>
      ∃ seg, u.journal = seg ++ v.journal ∧ ∀ l ∈ seg, l.dispatches key g = false := by
  apply Act.ends_of_after
  have hc := (h.ran_perform n op).credible
  obtain ⟨seg, hj, hseg⟩ := (Act.perform_deepens host n op v).after.lines
  refine ⟨seg, hj, ?_⟩
  intro l hl
  rcases hseg l hl with ⟨a, hin⟩ | hno
  · refine Bool.eq_false_iff.mpr fun hdis => ?_
    have hmem : l ∈ ((Act.perform host n op).after v).journal := by
      rw [hj]
      exact List.mem_append_left _ hl
    refine hc.dispatched_once hmem hdis ?_
    obtain ⟨outer, ho⟩ := hin
    rw [← ho]
    cases outer with
    | nil => exact hd
    | cons b outer => exact List.mem_append_right _ (List.mem_cons_of_mem _ hd)
  · exact hno key g

theorem unchanged (h : Midway host settings hosting v) (hd : .deciding key g ∈ v.calls)
    (he : v.cache.insertion? key g = some e) (hp : e.policy = some policy)
    (ht : policy.isTimed = true) (n : Nat) (op : Operation ν η) :
    (Act.perform host n op).Ends v fun _ u => ∀ e', u.cache.insertion? key g = some e' → e' = e := by
  apply Act.ends_of_after
  intro e' he'
  obtain ⟨hm, -, hdue⟩ := h.marked hd he
  obtain ⟨hf, hg⟩ := Cache.insertion?_eq_some.mp he
  obtain ⟨hf', hg'⟩ := Cache.insertion?_eq_some.mp he'
  obtain ⟨hcalls, hs⟩ := ((Passes.governs host).perform n op v).after
  have hlt : e'.generation < v.cache.nextGeneration := by
    rw [hg', ← hg]
    exact h.poised.below key e hf
  obtain ⟨e₀, he₀, hg₀, hv₀, hc₀, hkeep⟩ := hs.endures.stored key e' hf' hlt
  rw [hf] at he₀
  obtain rfl := Option.some.inj he₀
  obtain ⟨hp₀, hl₀⟩ := hkeep (hdue policy hp ht)
  -- both are marked, because the decision is in progress in the end as in the beginning
  rw [← hcalls] at hd
  have hm' : e'.pending = true := (h.ran_perform n op).recorded.sound.pending_of_deciding hd he'
  cases e
  cases e'
  simp_all

theorem shielded (h : Midway host settings hosting v) (hh : v.cache.handle = .held)
    (hd : .deciding key g ∈ v.calls) (he : v.cache.insertion? key g = some e)
    (hp : e.policy = some policy) (ht : policy.isTimed = true) : Shielded host key g e v := by
  obtain ⟨hm, ha, hdue⟩ := h.marked hd he
  obtain ⟨hf, -⟩ := Cache.insertion?_eq_some.mp he
  have hdue := hdue policy hp ht
  have hs := h.recorded.sound
  refine ⟨?_, ?_, ?_, ?_, ?_, ?_⟩
  · exact fun n => Act.get_marked hh ha hf hm hp ht hdue n
  · exact fun n => Act.contains_marked hh ha hf hm hp ht hdue n
  · exact fun n factory given => Act.perform_fetch_marked hh ha hf hm hp ht hdue hs n factory given
  · intro n value given asked u hgiven hheld hstored
    obtain ⟨e', he'⟩ := Option.isSome_iff_exists.mp hstored
    -- the decision is in progress still when the insertion has its policy
    have hsu : Sound u.calls u.cache ∧ u.calls = .operation (.insert key value ⟨given, false⟩) ::
        v.calls := by
      obtain ⟨seg, hrun, -⟩ := (Act.policyFor_runs (Act.call_invokes host n)
        (Nat.zero_le _) given).of_ok hgiven
      refine ⟨?_, hrun.calls⟩
      exact Moves.sound hrun.moves ((Sound.plain_iff rfl).mpr hs)
    have hdu : .deciding key g ∈ u.calls := by
      rw [hsu.2]
      exact List.mem_cons_of_mem _ hd
    exact Act.perform_insert_marked hh ha hgiven hheld (Cache.insertion?_eq_some.mp he').1
      (hsu.1.pending_of_deciding hdu he')
  · exact fun n => Act.perform_keys_marked hh hf hm n
  · intro n op
    exact (h.not_dispatched hd n op).and (h.unchanged hd he hp ht n op)

end Midway

variable {host : Host ν η μ} {settings : Settings η} {hosting : Hosting}

/-- Wherever the host's functions use the cache while handlers decide about an insertion with a
deadline, however deeply nested, they find it there as long as it is stored: reads return its value,
insertions that are not to overwrite leave it, it is listed, and no operation at all dispatches it or
changes anything about it. Only a fetch that would wait for a fetch in progress is refused. Hence no
insertion is dispatched while a dispatch of it has its handlers decide. -/
theorem what_is_decided_about_is_shielded :
    (∀ v key g e policy, Midway host settings hosting v → v.cache.handle = .held →
      .deciding key g ∈ v.calls → v.cache.insertion? key g = some e → e.policy = some policy →
      policy.isTimed = true → Shielded host key g e v) ∧
    ∀ w, Reachable host settings hosting w → ∀ l ∈ w.journal, ∀ key g,
      l.dispatches key g = true → .deciding key g ∉ l.calls.tail := by
  refine ⟨?_, ?_⟩
  · intro v key g e policy hv hh hd he hp ht
    exact hv.shielded hh hd he hp ht
  · intro w hw l hl key g hdis
    obtain ⟨t, memory, hrun⟩ := hw.run
    exact (Credible.of_moves hrun.moves).dispatched_once hl hdis

/-- The line notes the start of a callback. -/
def Line.enters (l : Line ν η) : Bool :=
  match l.record with
  | .entered _ => true
  | _ => false

/-- The world in which the handler is asked about the expired entry. -/
def World.asked : World Nat String Unit :=
  match World.expiredRead.journal.drop 17 with
  | [] => .expiredRead
  | l :: before => ⟨l.now, l.cache, (), l.calls, l :: before⟩

theorem asked_midway : Midway .reentrant .keeping .task World.asked := by
  have hs : World.expiredRead.journal.drop 17 <:+ World.expiredRead.journal := List.drop_suffix ..
  have hr : (World.expiredRead.journal.drop 17).head?.any Line.enters = true := by decide +kernel
  unfold World.asked
  cases hj : World.expiredRead.journal.drop 17 with
  | nil =>
    rw [hj] at hr
    cases hr
  | cons l before =>
    rw [hj] at hs hr
    cases hl : l.record with
    | entered c => exact .entered (.between expiredRead_between) hs hl ()
    | _ =>
      simp only [List.head?_cons, Option.any_some, Line.enters, hl] at hr
      cases hr

theorem asked_is_shielded : .deciding "k" 0 ∈ World.asked.calls ∧
    ∃ e, World.asked.cache.insertion? "k" 0 = some e ∧ e.value = 1 ∧
      Shielded .reentrant "k" 0 e World.asked := by
  obtain ⟨e, he⟩ := Option.isSome_iff_exists.mp
    (show (World.asked.cache.insertion? "k" 0).isSome = true by decide +kernel)
  have hentry : (World.asked.cache.insertion? "k" 0).any (fun e =>
      e.value == 1 && e.policy.any (·.isTimed)) = true := by decide +kernel
  rw [he] at hentry
  simp only [Option.any_some, Bool.and_eq_true, beq_iff_eq] at hentry
  obtain ⟨policy, hp, ht⟩ := (Option.any_eq_true _ _).mp hentry.2
  have hd : .deciding "k" 0 ∈ World.asked.calls := by decide +kernel
  exact ⟨hd, e, he, hentry.1, what_is_decided_about_is_shielded.1 _ _ _ e policy asked_midway
    (by decide +kernel) hd he hp ht⟩

/-- Its handler fetches the key that it is asked about, and remembers what it got. -/
def Host.fetching : Host Nat String (List (Answer Nat)) where
  accepts _ := true
  consult _ _ memory := (.ok true, memory)
  respond
    | .expiring _ key _ _ => .perform (.fetch key "make" .default) fun
      | .ok answer => .load fun got => .store (answer :: got) (.done .cancel)
      | .error message => .panic message
    | .expired _ _ _ running => .done running
    | .release .. => .done ()
    | .factory .. => .done (.ok 2)
    | .defaultPolicy .. => .done none

/-- The world after an entry that is expired at once was fetched. -/
def World.fetched : World Nat String (List (Answer Nat)) :=
  (Act.turn .fetching 6 (.perform (.onExpiring "ask") fun _ =>
    .perform (.insert "k" 1 ⟨some (.duration .zero none), false⟩) fun _ =>
    .perform (.fetch "k" "make" .default) fun _ => .done ())).after
      (.fresh .keeping .task .zero [])

/-- The entry is stored, and has been offered to the handler, but the fetch in which that happens keeps
the handler from fetching it. -/
theorem fetch_from_within_a_fetch_is_refused :
    Reachable .fetching .keeping .task World.fetched ∧
    World.fetched.memory = [.refused .waitsForItself] ∧
    World.fetched.journal.any (fun l => match l.record with
      | .finished (.fetch "k" _ _) => l.calls.contains (.deciding "k" 0) &&
        (l.cache.insertion? "k" 0).any fun e => e.value == 1 && e.policy.any (·.isTimed)
      | _ => false) = true :=
  ⟨.after 6 _ (.fresh .zero []), by decide +kernel, by decide +kernel⟩

end ExpiringCache
