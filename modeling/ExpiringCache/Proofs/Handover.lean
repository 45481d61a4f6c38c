import ExpiringCache.Proofs.Excerpts

/-!
# Handing over what is cleared away

Clearing takes all entries out at once and then hands their values over one by one. A function that
panics over a value keeps those that come after it from ever being handed over: they have left, and
nobody holds them any more. So a clearing loses nothing only if nothing panics before the last value.
-/

namespace ExpiringCache

variable {ν η μ α : Type}

/-- A value goes to the host: the insertion it came with, and the call. -/
abbrev Handover (ν η : Type) := Nat × Callback ν η

/-- What the line hands over, if it is work at this depth that does it. -/
def Line.handover? (depth : Nat) (l : Line ν η) : Option (Handover ν η) :=
  match l.record, l.calls with
  | .entered (.release handler key value), .releasing _ g :: outer =>
    if outer.length = depth then some (g, .release handler key value) else none
  | _, _ => none

def handovers (depth : Nat) (seg : List (Line ν η)) : List (Handover ν η) :=
  excerpt (·.handover? depth) seg

/-- The value of the row goes to `handler`. -/
def handoverOf (handler : η) (r : Key × Entry ν η) : Handover ν η :=
  (r.2.generation, .release handler r.1 r.2.value)

/-- How the values of these rows are handed over: all of them in turn, or all up to the first one with
which the call of the host does not return. -/
inductive HandsOver (invoke : Invoke ν η μ) (handler : η) (rows : List (Key × Entry ν η)) :
    Except Halt α → List (Handover ν η) → Prop
  | whole (a : α) : HandsOver invoke handler rows (.ok a) (rows.map (handoverOf handler))
  | cut (done : List (Key × Entry ν η)) (last : Key × Entry ν η) (lost : List (Key × Entry ν η))
      (halt : Halt) (hrows : rows = done ++ last :: lost)
      (h : ∃ u u', invoke (.release handler last.1 last.2.value) u = .error halt u') :
      HandsOver invoke handler rows (.error halt) ((done ++ [last]).map (handoverOf handler))

namespace HandsOver

variable {invoke : Invoke ν η μ} {handler : η} {rows : List (Key × Entry ν η)}
  {r : Except Halt α} {hs : List (Handover ν η)}

/-- If nothing but the last value can stop it, all values are handed over. -/
theorem all (h : HandsOver invoke handler rows r hs)
    (hcalm : ∀ row ∈ rows.dropLast, ∀ u halt u',
      invoke (.release handler row.1 row.2.value) u ≠ .error halt u') :
    hs = rows.map (handoverOf handler) := by
  cases h with
  | whole a => rfl
  | cut done last lost halt hrows hlast =>
    cases lost with
    | nil => rw [hrows]
    | cons next lost =>
      -- something comes after the value that stopped it
      have hmem : last ∈ rows.dropLast := by
        rw [hrows, List.dropLast_append_of_ne_nil (List.cons_ne_nil _ _), List.dropLast_cons_cons]
        exact List.mem_append_right _ (List.mem_cons_self ..)
      obtain ⟨u, u', hu⟩ := hlast
      exact absurd hu (hcalm last hmem u halt u')

end HandsOver

/-! ## Handing over one by one -/

theorem handover?_of_fringe {key : Key} {g : Nat} {calls : List (Activity ν η)} {l : Line ν η}
    (h : l.IsFringe (.releasing key g :: calls)) : l.handover? calls.length = none := by
  unfold Line.handover?
  split
  · rename_i handler k value i g' outer hr hc
    rcases h with ⟨a, -, hs⟩ | ⟨-, hends⟩
    · -- too deep
      have hlen := hs.length_le
      rw [hc] at hlen
      simp only [List.length_cons] at hlen
      rw [if_neg (by omega)]
    · simp [Line.concludes, hr] at hends
  · rfl

namespace Act

variable {host : Host ν η μ} {w : World ν η μ} {handler : η}

theorem releaseIfSet_hands_over (depth : Nat) (key : Key) (e : Entry ν η)
    (hd : w.cache.settings.dispose = true) (hr : w.cache.settings.release = some handler) :
    (releaseIfSet (call host depth) key e).Ends w fun r v =>
      v.cache.settings = w.cache.settings ∧
      Writes (·.handover? w.calls.length) w (fun _ hs => hs = [handoverOf handler (key, e)]) r v ∧
      ∀ halt, r = .error halt →
        ∃ u u', call host depth (.release handler key e.value) u = .error halt u' := by
  have hstretch := releaseIfSet_follows Stretch.paths (fun c _ => call_stretches host depth c) key e w
  refine Ends.and (hstretch.mono fun _ _ hs => hs.settings) ?_
  apply ends_cache.mpr
  rw [if_pos hd]
  apply ends_cache.mpr
  rw [hr]
  refine Ends.and (writes_during ?_) (ends_bracket ?_)
  · apply Ends.writes (call_writes depth _ fun l hl => handover?_of_fringe hl)
    rintro r _ rfl
    simp [Line.handover?, World.line, World.push, handoverOf]
  · apply (ends_self _ _).mono
    rintro r v hv halt rfl
    rcases hv with ⟨a, hr, -⟩ | ⟨halt', hr, hx⟩
    · cases hr
    · cases hr
      exact ⟨_, v, hx⟩

theorem releaseAll_hands_over (host : Host ν η μ) (depth : Nat) (rows : List (Key × Entry ν η)) :
    ∀ w : World ν η μ, w.cache.settings.dispose = true → w.cache.settings.release = some handler →
      (rows.forM fun r => releaseIfSet (call host depth) r.1 r.2).Ends w
        (Writes (·.handover? w.calls.length) w (HandsOver (call host depth) handler rows)) := by
  induction rows with
  | nil => exact fun w _ _ => writes_pure (.whole ())
  | cons row rows ih =>
    intro w hd hr
    apply (releaseIfSet_hands_over depth row.1 row.2 hd hr).bind
    · rintro _ v ⟨hset, ⟨hc, seg, hj, hfirst⟩, -⟩
      refine Ends.onward hc hj ?_
      rw [← hset] at hd hr
      have hrest := ih v hd hr
      rw [hc] at hrest
      apply hrest.writes
      intro r hs hrows
      rw [hfirst]
      cases hrows with
      | whole a => exact .whole a
      | cut done last lost halt hrows hlast =>
        exact .cut (row :: done) last lost halt (congrArg (row :: ·) hrows) hlast
    · rintro halt v ⟨-, ⟨hc, seg, hj, hfirst⟩, hhalt⟩
      refine ⟨hc, seg, hj, ?_⟩
      rw [hfirst]
      exact .cut [] row rows halt rfl (hhalt halt rfl)

theorem clear_hands_over (host : Host ν η μ) (depth : Nat) (hd : w.cache.settings.dispose = true)
    (hr : w.cache.settings.release = some handler) :
    (clear (call host depth)).Ends w fun s v => v.calls = w.calls ∧
      ∃ new, v.journal = new ++ w.emptied.journal ∧
        HandsOver (call host depth) handler w.cache.entries.rows s (handovers w.calls.length new) := by
  have hset : w.emptied.cache.settings = w.cache.settings := by
    rw [World.emptied_eq]
    rfl
  have hcalls : w.emptied.calls = w.calls := by
    rw [World.emptied_eq]
    rfl
  apply ends_takeAll
  have hall := releaseAll_hands_over host depth w.cache.entries.rows w.emptied
    (hset ▸ hd) (hset ▸ hr)
  rw [hcalls] at hall
  apply hall.mono
  rintro s v ⟨hc, new, hj, hs⟩
  exact ⟨hc.trans hcalls, new, hj, hs⟩

end Act

/-! ## Clearing and dropping a cache -/

/-- After the lines `before` the values of these rows were handed over by work at this depth. The caller
hears of it if that was cut off, and it can be cut off only before the last value. -/
def Disperses (invoke : Invoke ν η μ) (handler : η) (rows : List (Key × Entry ν η)) (depth : Nat)
    (before : List (Line ν η)) (r : Except Halt (Answer ν)) (v : World ν η μ) : Prop :=
  ∃ (s : Except Halt Unit) (new after : List (Line ν η)), v.journal = after ++ (new ++ before) ∧
    HandsOver invoke handler rows s (handovers depth new) ∧
    (∀ halt, s = .error halt → ∃ halt', r = .error halt') ∧
    ((∀ row ∈ rows.dropLast, ∀ u halt u',
        invoke (.release handler row.1 row.2.value) u ≠ .error halt u') →
      handovers depth new = rows.map (handoverOf handler))

namespace Disperses

variable {invoke : Invoke ν η μ} {handler : η} {rows : List (Key × Entry ν η)} {depth : Nat}
  {before : List (Line ν η)} {r r' : Except Halt (Answer ν)} {v v' : World ν η μ}

theorem onward (h : Disperses invoke handler rows depth before r v)
    (hj : ∃ seg, v'.journal = seg ++ v.journal)
    (hr : ∀ halt, r = .error halt → ∃ halt', r' = .error halt') :
    Disperses invoke handler rows depth before r' v' := by
  obtain ⟨s, new, after, hv, hs, hhalt, hall⟩ := h
  obtain ⟨seg, hj⟩ := hj
  refine ⟨s, new, seg ++ after, ?_, hs, ?_, hall⟩
  · rw [hj, hv, List.append_assoc]
  · intro halt h
    obtain ⟨halt', hr'⟩ := hhalt halt h
    exact hr halt' hr'

end Disperses

namespace Act

variable {host : Host ν η μ} {w : World ν η μ} {handler : η}

theorem clear_disperses (host : Host ν η μ) (depth : Nat) (hd : w.cache.settings.dispose = true)
    (hr : w.cache.settings.release = some handler) :
    (clear (call host depth)).Ends w fun s v => v.calls = w.calls ∧
      Disperses (call host depth) handler w.cache.entries.rows w.calls.length w.emptied.journal
        (s.map fun _ => .done) v := by
  apply (clear_hands_over host depth hd hr).mono
  rintro s v ⟨hc, new, hj, hs⟩
  refine ⟨hc, s, new, [], hj, hs, ?_, hs.all⟩
  rintro halt rfl
  exact ⟨halt, rfl⟩

/-- What is done after the work of an operation only adds to the journal, and ends in a panic if that
did. -/
theorem closes_disperses {op : Operation ν η} {rows : List (Key × Entry ν η)} {level depth : Nat}
    {before : List (Line ν η)} {s : Except Halt (Answer ν)} {u : World ν η μ}
    (h : Disperses (call host depth) handler rows level before s u) :
    Closes (call host depth) op (Disperses (call host depth) handler rows level before) s u := by
  unfold Closes
  split
  · exact h
  · apply (closeUnused_follows Stretch.paths (fun c _ => call_stretches host depth c) u).mono
    intro t v hv
    obtain ⟨seg, hj, -⟩ := hv.segment
    have hhalt : ∀ halt, s = .error halt → ∃ halt', t.bind (fun _ => s) = .error halt' := by
      rintro halt rfl
      cases t with
      | ok _ => exact ⟨halt, rfl⟩
      | error halt' => exact ⟨halt', rfl⟩
    split
    · exact h.onward ⟨seg, hj⟩ hhalt
    · refine h.onward ⟨v.line (.finished op) :: seg, ?_⟩ hhalt
      rw [World.journal_note, hj]
      rfl

theorem perform_clear_disperses (depth : Nat) (hh : w.cache.handle = .held)
    (hd : w.cache.settings.dispose = true) (hr : w.cache.settings.release = some handler) :
    (perform host (depth + 1) .clear).Ends w
      (Disperses (call host depth) handler w.cache.entries.rows (w.calls.length + 1)
        (w.push (.operation .clear)).emptied.journal) := by
  apply ends_cache.mpr
  rw [if_pos hh]
  apply operate_closes
  have hclear := clear_disperses (w := w.push (.operation .clear)) host depth hd hr
  refine Ends.bind hclear ?_ ?_
  · rintro _ v ⟨-, hv⟩
    exact ends_pure.mpr (closes_disperses (hv.onward ⟨[], rfl⟩ fun _ h => nomatch h))
  · rintro halt v ⟨-, hv⟩
    exact closes_disperses (hv.onward ⟨[], rfl⟩ fun _ _ => ⟨halt, rfl⟩)

end Act

/-- The cache is closed, with its entries still in it. -/
def World.shut (w : World ν η μ) : World ν η μ :=
  w.change fun c => { c.setTimer none with handle := .closed }

namespace Act

variable {host : Host ν η μ} {w : World ν η μ} {handler : η}

theorem perform_drop_disperses (depth : Nat) (hh : w.cache.handle = .held) (hb : w.busy = false)
    (hd : w.cache.settings.dispose = true) (hr : w.cache.settings.release = some handler) :
    (perform host (depth + 1) .drop).Ends w
      (Disperses (call host depth) handler w.cache.entries.rows w.calls.length
        w.shut.emptied.journal) := by
  apply ends_cache.mpr
  rw [if_pos hh]
  apply operate_closes
  show Closes _ _ _ (.ok (.flag true)) (w.change .giveUp)
  unfold Closes
  rw [if_neg (by simp [cutShort])]
  apply ends_get.mpr
  rw [if_pos ⟨rfl, hb⟩]
  apply ends_change.mpr
  have hclear := clear_disperses (w := w.shut) host depth hd hr
  apply hclear.mono
  rintro s v ⟨-, hv⟩
  have hhalt : ∀ halt, s.map (fun _ => Answer.done (ν := ν)) = .error halt →
      ∃ halt', s.bind (fun _ => Except.ok (Answer.flag (ν := ν) true)) = .error halt' := by
    intro halt hs
    cases s with
    | ok _ => cases hs
    | error halt => exact ⟨halt, rfl⟩
  split
  · exact hv.onward ⟨[], rfl⟩ hhalt
  · exact hv.onward ⟨[_], rfl⟩ hhalt

end Act

/-- A function that panics over a value loses all that come after it. Clearing a cache takes out its
entries, and then hands their values over, each exactly once, in the order in which they were stored; but
it ends with the first one with which the call does not return. Dropping a cache that nobody works on does
the same. Only if nothing can stop it before the last value, all values are handed over before a panic
reaches the caller. -/
theorem clearing_hands_over_up_to_a_panic (host : Host ν η μ) (depth : Nat) (w : World ν η μ)
    {handler : η} (hh : w.cache.handle = .held) (hd : w.cache.settings.dispose = true)
    (hr : w.cache.settings.release = some handler) :
    (Act.perform host (depth + 1) .clear).Ends w
      (Disperses (Act.call host depth) handler w.cache.entries.rows (w.calls.length + 1)
        (w.push (.operation .clear)).emptied.journal) ∧
    (w.busy = false → (Act.perform host (depth + 1) .drop).Ends w
      (Disperses (Act.call host depth) handler w.cache.entries.rows w.calls.length
        w.shut.emptied.journal)) :=
  ⟨Act.perform_clear_disperses depth hh hd hr,
    fun hb => Act.perform_drop_disperses depth hh hb hd hr⟩

/-! ## A function that takes nothing over -/

/-- What is handed over to it makes it panic. -/
def Host.brittle : Host Nat String Unit where
  accepts _ := true
  consult _ _ memory := (.ok true, memory)
  respond
    | .expiring .. => .done .proceed
    | .expired _ _ _ running => .done running
    | .release .. => .panic "full"
    | .factory .. => .done (.ok 3)
    | .defaultPolicy .. => .done none

def Settings.disposing : Settings String := ⟨.ofMillis 60000, true, none, some "take"⟩

def Program.addTwo : Program Nat String Unit Unit :=
  .perform (.add "a" 1) fun _ => .perform (.add "b" 2) fun _ => .done ()

/-- Two values are stored. -/
def World.twoEntries : World Nat String Unit :=
  (Act.turn .brittle 6 .addTwo).after (.fresh .disposing .task .zero ())

theorem twoEntries_between : Between .brittle .disposing .task World.twoEntries :=
  .turn 6 .addTwo (.ok ()) (.fresh .zero ()) rfl

/-- The first value is handed over, and the call panics. -/
theorem two_entries_are_cleared_up_to_a_panic :
    World.twoEntries.cache.handle = .held ∧ World.twoEntries.busy = false ∧
    (Act.perform .brittle 6 .clear).Ends World.twoEntries fun r v => r = .error (.panic "full") ∧
      v.journal.countP (·.handsOver 0) = 1 ∧ v.journal.countP (·.handsOver 1) = 0 ∧
      Disperses (Act.call .brittle 5) "take" World.twoEntries.cache.entries.rows 1
        (World.twoEntries.push (.operation .clear)).emptied.journal r v := by
  have hr : World.twoEntries.cache.settings.release = some "take" := by decide +kernel
  have hclear := (clearing_hands_over_up_to_a_panic .brittle 5 World.twoEntries (by decide +kernel)
    (by decide +kernel) hr).1
  have hlost : (Act.perform .brittle 6 .clear).Ends World.twoEntries fun r v =>
      r = .error (.panic "full") ∧ v.journal.countP (·.handsOver 0) = 1 ∧
        v.journal.countP (·.handsOver 1) = 0 := by
    refine ⟨rfl, ?_, ?_⟩ <;> decide +kernel
  refine ⟨by decide +kernel, by decide +kernel, (hlost.and hclear).mono ?_⟩
  rintro r v ⟨⟨h1, h2, h3⟩, hv⟩
  exact ⟨h1, h2, h3, hv⟩

/-- Two entries are cleared away, and only the value of one of them is ever handed over; the same when
the cache is dropped. -/
theorem panicking_release_loses_the_rest :
    Between .brittle .disposing .task World.twoEntries ∧
    World.twoEntries.cache.entries.rows.map (fun r => (r.1, r.2.generation)) = [("a", 0), ("b", 1)] ∧
    ∀ op ∈ [Operation.clear, Operation.drop], (Act.perform .brittle 6 op).Ends World.twoEntries fun r v =>
      r = .error (.panic "full") ∧ v.cache.entries.size = 0 ∧ v.cache.stats.removals = 2 ∧
        v.journal.countP (·.handsOver 0) = 1 ∧ v.journal.countP (·.handsOver 1) = 0 := by
  refine ⟨twoEntries_between, by decide +kernel, ?_⟩
  intro op hop
  simp only [List.mem_cons, List.not_mem_nil, or_false] at hop
  rcases hop with rfl | rfl <;>
    exact ⟨rfl, by decide +kernel, by decide +kernel, by decide +kernel, by decide +kernel⟩

end ExpiringCache
