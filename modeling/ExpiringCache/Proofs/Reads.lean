import ExpiringCache.Proofs.Eviction

/-!
# What reads find

A value that a read finds is stored when the read ends, on every path but one. A read that meets an
expired entry has handlers decide about it, and a veto lets it go on with the value that was offered
to them. The veto does not look at the cache again, so if one of the handlers took that insertion out
during the round, or put another one in its place, the read returns a value that is gone.
-/

namespace ExpiringCache

variable {ν η μ : Type} {host : Host ν η μ} {settings : Settings η} {hosting : Hosting}
  {w w' : World ν η μ} {key : Key} {value : ν}

/-- Between `w` and `w'` handlers vetoed the eviction of an insertion of `value` under `key` that had
left during their round; nothing has come in or left since. -/
def Overruled (key : Key) (value : ν) (w w' : World ν η μ) : Prop :=
  ∃ since decided during start earlier g policy answers exit,
    w'.journal = since ++ decided :: (during ++ start :: earlier) ∧ w.journal <:+ earlier ∧
    (∀ l ∈ since, l.record.isPassage = false) ∧
    start.record = .offered g key value policy ∧
    decided.record = .decided g key value answers ∧ Decision.cancel ∈ answers ∧
    ∃ l ∈ during, l.record = .left g key value exit

/-- An insertion that was offered is stored from then on, or has left since. -/
theorem Recorded.stored_or_left (h : Recorded w) {start : Line ν η} {since earlier : List (Line ν η)}
    {g : Nat} {policy : Policy η} (hj : w.journal = since ++ start :: earlier)
    (hr : start.record = .offered g key value policy) :
    (∃ e, w.cache.find? key = some e ∧ e.value = value) ∨
      ∃ l ∈ since, ∃ exit, l.record = .left g key value exit := by
  have hs : start :: earlier <:+ w.journal := ⟨since, hj.symm⟩
  have hlives := (h.chronicle.at hs).1
  obtain ⟨e, he, rfl, rfl, -⟩ := (h.chronicle.offer hs hr).stored
  obtain ⟨m, hm, hcame, -⟩ := hlives.stored key e he
  have hm' : m ∈ w.journal := hs.subset hm
  -- it is stored now, or a line says that it left, and no such line is from before the offer
  rcases h.complete m hm' e.generation key e.value hcame with ⟨e', he', hg⟩ | ⟨l, hl, hleaves⟩
  · obtain ⟨n, hn, hcame', -⟩ := h.lives.stored key e' he'
    rw [hg] at hcame'
    exact Or.inl ⟨e', he', (h.lives.inserted_unique hm' hn hcame hcame').2.symm⟩
  · obtain ⟨k, u, exit, hleft⟩ := Line.leaves_iff.mp hleaves
    obtain ⟨n, hn, hcame'⟩ := h.lives.came l hl e.generation k u exit hleft
    obtain ⟨rfl, rfl⟩ := h.lives.inserted_unique hm' hn hcame hcame'
    refine Or.inr ⟨l, ?_, exit, hleft⟩
    rw [hj] at hl
    rcases List.mem_append.mp hl with hl | hl
    · exact hl
    · have hstays := hlives.staying _ e he l hl
      rw [hleaves] at hstays
      cases hstays

theorem Act.Finds.current {level : Nat} {a b : Account} {seg : List (Line ν η)}
    {found : Option ν} (h : Finds key w' seg found) (hw : Recorded w)
    (hr : Run level a b True seg w w') (hv : found = some value) :
    (∃ e, w'.cache.find? key = some e ∧ e.value = value) ∨ Overruled key value w w' := by
  rcases h value hv with hstored | ⟨g, since, old, rfl, hquiet, hveto⟩
  · exact Or.inl hstored
  · obtain ⟨decided, during, start, earlier, answers, policy, rfl, hd, hcancel, hstart⟩ := hveto
    have hj : w'.journal = since ++ decided :: (during ++ start :: (earlier ++ w.journal)) := by
      rw [hr.journal]
      simp
    have hj' : w'.journal = (since ++ decided :: during) ++ start :: (earlier ++ w.journal) := by
      rw [hj]
      simp
    rcases (hw.moves hr.moves).stored_or_left hj' hstart with hstored | ⟨l, hl, exit, hleft⟩
    · exact Or.inl hstored
    · -- neither the decision itself nor what the read wrote after it is a departure
      have hround : l ∈ during := by
        rcases List.mem_append.mp hl with hl | hl
        · have hno := hquiet l hl
          rw [hleft] at hno
          cases hno
        · rcases List.mem_cons.mp hl with rfl | hl
          · rw [hd] at hleft
            cases hleft
          · exact hl
      exact Or.inr ⟨since, decided, during, start, earlier ++ w.journal, g, policy, answers, exit,
        hj, List.suffix_append _ _, hquiet, hstart, hd, hcancel, l, hround, hleft⟩

namespace Act

variable {invoke : Invoke ν η μ} {level : Nat}

theorem get_goes (hi : Invokes invoke) (host : Host ν η μ) (retries : Nat)
    (hl : level ≤ w.calls.length + 1) (hev : evicting key w.calls = true) :
    (carryOut host invoke retries (.get key)).Goes level .clear w (fun _ => .clear)
      fun answer w' seg => ∀ value, answer = .found (some value) →
        Finds key w' seg (some value) := by
  refine (keyed_goes (Q := fun answer w' seg => ∃ found, answer = .found found ∧
    Finds key w' seg found) fun _ => Goes.bind (lookup_goes hi host .full retries w hl hev)
    fun found _ _ _ hfound => .pure rfl ⟨found, rfl, hfound⟩).imp ?_
  rintro answer w' seg _ (⟨-, found, rfl, hfound⟩ | rfl) value h
  · cases h
    exact hfound
  · cases h

theorem contains_goes (hi : Invokes invoke) (host : Host ν η μ) (retries : Nat)
    (hl : level ≤ w.calls.length + 1) (hev : evicting key w.calls = true) :
    (carryOut host invoke retries (.contains key)).Goes level .clear w (fun _ => .clear)
      fun answer w' seg => answer = .flag true → ∃ value, Finds key w' seg (some value) := by
  refine (keyed_goes (Q := fun answer w' seg => ∃ found : Option ν, answer = .flag found.isSome ∧
    Finds key w' seg found) fun _ => Goes.bind (lookup_goes hi host .peek retries w hl hev)
    fun found _ _ _ hfound => .pure rfl ⟨found, rfl, hfound⟩).imp ?_
  rintro answer w' seg _ (⟨-, found, rfl, hfound⟩ | rfl) h
  · cases found with
    | none => cases h
    | some value => exact ⟨value, hfound⟩
  · cases h

end Act

/-- Wherever on the way of a run `key` is read, the value that is found is stored when the read ends,
or else handlers have overruled its eviction after it was gone; and if the key is said to be there,
then an entry is stored under it, or else handlers have so overruled. -/
theorem reads_find_what_is_stored_or_overruled {t : Instant} {memory : μ} {bound retries : Nat}
    {outer : List (Activity ν η)} (hw : Moves 0 (World.fresh settings hosting t memory) w) :
    (∀ value w', w.calls = .operation (.get key) :: outer →
      Act.carryOut host (Act.call host bound) retries (.get key) w = .ok (.found (some value)) w' →
      (∃ e, w'.cache.find? key = some e ∧ e.value = value) ∨ Overruled key value w w') ∧
    ∀ w', w.calls = .operation (.contains key) :: outer →
      Act.carryOut host (Act.call host bound) retries (.contains key) w = .ok (.flag true) w' →
      (∃ e, w'.cache.find? key = some e) ∨ ∃ value, Overruled key value w w' := by
  have hrec : Recorded w := Recorded.moves (.fresh settings hosting t memory) hw
  have hi := Act.call_invokes host bound
  constructor
  · intro value w' hcalls hok
    have hev : evicting key w.calls = true := by
      rw [hcalls]
      simp [evicting, Operation.evicts]
    obtain ⟨seg, hrun, hfinds⟩ := (Act.get_goes hi host retries (Nat.zero_le _) hev).of_ok hok
    exact (hfinds value rfl).current hrec hrun rfl
  · intro w' hcalls hok
    have hev : evicting key w.calls = true := by
      rw [hcalls]
      simp [evicting, Operation.evicts]
    obtain ⟨seg, hrun, hfinds⟩ := (Act.contains_goes hi host retries (Nat.zero_le _) hev).of_ok hok
    obtain ⟨value, hfound⟩ := hfinds rfl
    rcases hfound.current hrec hrun rfl with ⟨e, he, -⟩ | hover
    · exact Or.inl ⟨e, he⟩
    · exact Or.inr ⟨value, hover⟩

/-! ## A read of what is gone -/

/-- A handler that removes the entry it is asked about, and then vetoes its eviction. -/
def Host.removing : Host Nat String Unit where
  accepts _ := true
  consult _ _ memory := (.ok true, memory)
  respond
    | .expiring _ key _ _ => .perform (.remove key) fun _ => .done .cancel
    | .expired _ _ _ running => .done running
    | .release .. => .done ()
    | .factory .. => .done (.ok 3)
    | .defaultPolicy .. => .done none

/-- An entry comes in that is expired at once. -/
def Program.insertExpired : Program Nat String Unit Unit :=
  .perform (.onExpiring "ask") fun _ =>
  .perform (.insert "k" 1 ⟨some (.duration (.ofMillis 0) none), false⟩) fun _ => .done ()

namespace World

def expiredInserted : World Nat String Unit :=
  (Act.turn .removing 6 .insertExpired).after (.fresh .keeping .task .zero ())

theorem expiredInserted_between : Between .removing .keeping .task expiredInserted :=
  .turn 6 .insertExpired (.ok ()) (.fresh .zero ()) rfl

def asking : World Nat String Unit := expiredInserted.push (.operation (.get "k"))

theorem asking_moves : Moves 0 (World.fresh .keeping .task .zero ()) asking := by
  have hok : Act.turn .removing 6 .insertExpired (World.fresh .keeping .task .zero ()) =
      .ok (.ok ()) expiredInserted := rfl
  obtain ⟨seg, hrun, -⟩ := (Act.turn_runs .removing 6 .insertExpired _ rfl).of_ok hok
  exact hrun.moves.tail (.enter _ rfl)

def removedAndRead : World Nat String Unit :=
  (Act.carryOut .removing (Act.call .removing 6) 6 (.get "k")).after asking

theorem asking_removedAndRead : Act.carryOut .removing (Act.call .removing 6) 6 (.get "k") asking =
    .ok (.found (some 1)) removedAndRead := rfl

end World

theorem removedAndRead_was_overruled :
    Moves 0 (World.fresh .keeping .task .zero ()) World.asking ∧
      Overruled "k" 1 World.asking World.removedAndRead := by
  have hreads : (∃ e, World.removedAndRead.cache.find? "k" = some e ∧ e.value = 1) ∨
      Overruled "k" 1 World.asking World.removedAndRead :=
    (reads_find_what_is_stored_or_overruled World.asking_moves).1 1 World.removedAndRead rfl
      World.asking_removedAndRead
  have hgone : World.removedAndRead.cache.find? "k" = none := rfl
  refine ⟨World.asking_moves, ?_⟩
  rcases hreads with ⟨e, he, -⟩ | hover
  · rw [hgone] at he
    cases he
  · exact hover

/-- A value that a read finds need not be stored when the read ends, and a key that is said to be there
need not be there. -/
theorem reads_may_find_what_is_gone :
    Between .removing .keeping .task World.expiredInserted ∧
    (∃ w', Act.carryOut .removing (Act.call .removing 6) 6 (.get "k")
        (World.expiredInserted.push (.operation (.get "k"))) = .ok (.found (some 1)) w' ∧
      w'.cache.find? "k" = none) ∧
    ∃ w', Act.carryOut .removing (Act.call .removing 6) 6 (.contains "k")
        (World.expiredInserted.push (.operation (.contains "k"))) = .ok (.flag true) w' ∧
      w'.cache.find? "k" = none :=
  ⟨World.expiredInserted_between, ⟨_, rfl, rfl⟩, ⟨_, rfl, rfl⟩⟩

end ExpiringCache
