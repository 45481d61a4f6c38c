import ExpiringCache.Engine.Session
import ExpiringCache.Proofs.Rounds

/-!
# Operations and sessions run

Every operation of the cache runs, by induction on how deep callbacks are nested; so do programs of
the host, ticks of the timer and whole turns of the owner.
-/

namespace ExpiringCache.Act

variable {ν η μ α β : Type} {host : Host ν η μ} {invoke : Invoke ν η μ} {w : World ν η μ}
  {level : Nat} {key : Key}

theorem Runs.bind {x : Act ν η μ α} {f : α → Act ν η μ β} (h : x.Runs level w)
    (hf : ∀ v w', w'.calls = w.calls → (f v).Runs level w') : (x >>= f).Runs level w :=
  Goes.bind h fun v w' _ hr _ => hf v w' hr.calls

theorem Runs.pure {v : α} : (Pure.pure v : Act ν η μ α).Runs level w := Goes.pure rfl trivial

theorem Runs.cache {g : Cache ν η → Act ν η μ β} (h : (g w.cache).Runs level w) :
    (Act.cache >>= g).Runs level w := Goes.cache h

theorem Runs.expired (host : Host ν η μ) (e : Entry ν η) :
    (expired host e).Runs level w := (expired_goes host w level e).runs

theorem Runs.change {t : Cache ν η → Cache ν η} {g : Unit → Act ν η μ β}
    (hb : w.cache.Beside (t w.cache)) (h : (g ()).Runs level (w.change t)) :
    (Act.change t >>= g).Runs level w := Goes.change (.tune t hb) h

theorem Runs.foldlM {f : β → α → Act ν η μ β} (xs : List α) (b : β) (w : World ν η μ)
    (hf : ∀ b x (w' : World ν η μ), w'.calls = w.calls → (f b x).Runs level w') :
    (xs.foldlM f b).Runs level w := by
  induction xs generalizing b w with
  | nil => exact .pure
  | cons x xs ih =>
    rw [List.foldlM_cons]
    refine (hf b x w rfl).bind ?_
    intro b' w' hc
    refine ih b' w' ?_
    intro b x w'' hc'
    exact hf b x w'' (hc'.trans hc)

theorem Runs.filterM {p : α → Act ν η μ Bool} (xs : List α) (w : World ν η μ)
    (hp : ∀ x (w' : World ν η μ), w'.calls = w.calls → (p x).Runs level w') :
    (xs.filterM p).Runs level w := by
  have loop : ∀ acc (w : World ν η μ),
      (∀ x (w' : World ν η μ), w'.calls = w.calls → (p x).Runs level w') →
      (xs.filterAuxM p acc).Runs level w := by
    induction xs with
    | nil =>
      intro acc w _
      exact .pure
    | cons x xs ih =>
      intro acc w hp
      refine (hp x w rfl).bind ?_
      intro b w' hc
      refine ih _ w' ?_
      intro x w'' hc'
      exact hp x w'' (hc'.trans hc)
  refine (loop [] w hp).bind ?_
  intro ys w' _
  exact .pure

theorem readEnds_goes (access : Access) (key : Key) (found : Option ν) :
    (readEnds access key found : Act ν η μ (Option ν)).Goes level .clear w (fun _ => .clear)
      fun r w' seg => r = found ∧ w'.cache.entries = w.cache.entries ∧
        ∀ l ∈ seg, l.record.isPassage = false := by
  unfold readEnds
  split
  · refine .change (.tune _ ⟨rfl, rfl, rfl, rfl, rfl, rfl, ?_⟩) (.note rfl trivial (.plain rfl rfl)
      (.pure rfl ⟨rfl, rfl, ?_⟩))
    · cases found <;> rfl
    · intro l hl
      rw [List.nil_append] at hl
      rw [List.mem_singleton.mp hl]
      rfl
  · refine .pure rfl ⟨rfl, rfl, ?_⟩
    intro l hl
    cases hl

/-- A value that a read of `key` found is stored, or else handlers have just vetoed the eviction of
an insertion that had it. -/
def Finds (key : Key) (w' : World ν η μ) (seg : List (Line ν η)) (found : Option ν) : Prop :=
  ∀ value, found = some value → (∃ e, w'.cache.find? key = some e ∧ e.value = value) ∨
    ∃ g new old, seg = new ++ old ∧ (∀ l ∈ new, l.record.isPassage = false) ∧ Vetoed key g value old

theorem Finds.more {w' : World ν η μ} {seg : List (Line ν η)} {found : Option ν}
    (h : Finds key w' seg found) (old : List (Line ν η)) : Finds key w' (seg ++ old) found := by
  intro value hv
  rcases h value hv with hstored | ⟨g, new, mid, hseg, hnew, hveto⟩
  · exact Or.inl hstored
  · refine Or.inr ⟨g, new, mid ++ old, ?_, hnew, hveto.more old⟩
    rw [hseg, List.append_assoc]

theorem readEnds_finds (access : Access) {found : Option ν}
    (h : ∀ value, found = some value → ∃ e, w.cache.find? key = some e ∧ e.value = value)
    (old : List (Line ν η)) :
    (readEnds access key found : Act ν η μ (Option ν)).Goes level .clear w (fun _ => .clear)
      fun r w' seg => Finds key w' (seg ++ old) r := by
  refine (readEnds_goes access key found).imp ?_
  rintro r w' seg _ ⟨rfl, hentries, -⟩ value hv
  refine Or.inl ?_
  unfold Cache.find?
  rw [hentries]
  exact h value hv

theorem lookup_goes (hi : Invokes invoke) (host : Host ν η μ) (access : Access) (retries : Nat) :
    ∀ w : World ν η μ, level ≤ w.calls.length + 1 → evicting key w.calls = true →
      (lookup host invoke access key retries).Goes level .clear w (fun _ => .clear)
        fun found w' seg => Finds key w' seg found := by
  induction retries with
  | zero =>
    intro w _ _
    exact Goes.exhausted
  | succ retries ih =>
    intro w hl hev
    unfold lookup
    refine Goes.cache ?_
    cases hf : w.cache.find? key with
    | none =>
      refine (readEnds_finds access ?_ []).imp fun _ _ _ _ h => by rwa [List.append_nil] at h
      intro value h
      cases h
    | some e =>
      refine Goes.bind (expired_goes host w level e) ?_
      rintro found w1 seg1 hr1 ⟨hc1, -, -, -⟩
      have hstored : ∀ value, some e.value = some value →
          ∃ e, w1.cache.find? key = some e ∧ e.value = value := by
        intro value h
        rw [hc1]
        exact ⟨e, hf, Option.some.inj h⟩
      cases found with
      | false =>
        cases access with
        | peek => exact readEnds_finds .peek hstored seg1
        | full =>
          refine Goes.now (Goes.change (.touch key) (readEnds_finds .full ?_ seg1))
          intro value h
          obtain ⟨e', he', hv⟩ := hstored value h
          refine ⟨e'.touch w1.now, ?_, hv⟩
          rw [World.cache_change, Cache.find?_touch, if_pos rfl, he']
          rfl
      | true =>
        cases hp : e.pending with
        | true => exact readEnds_finds access hstored seg1
        | false =>
          have hl1 : level ≤ w1.calls.length + 1 := by
            rw [hr1.calls]
            exact hl
          have hev1 : evicting key w1.calls = true := by
            rw [hr1.calls]
            exact hev
          refine Goes.bind (expire_goes hi host hl1 hev1 e.generation) ?_
          intro fate w2 seg2 hr2 hfate
          cases fate with
          | evicted =>
            refine (readEnds_finds access ?_ (seg2 ++ seg1)).imp fun _ _ _ _ h => ?_
            · intro value h
              cases h
            · rwa [← List.append_assoc] at h
          | cancelled value =>
            have hveto : Vetoed key e.generation value seg2 := hfate
            refine (readEnds_goes access key (some value)).imp ?_
            rintro r w3 seg3 _ ⟨rfl, -, hplain⟩ u hu
            cases hu
            refine Or.inr ⟨e.generation, seg3, seg2 ++ seg1, ?_, hplain, hveto.more seg1⟩
            rw [List.append_assoc]
          | stale =>
            refine .note rfl trivial (.plain rfl rfl) ((ih _ ?_ ?_).imp ?_)
            · rw [World.calls_note, hr2.calls]
              exact hl1
            · rw [World.calls_note, hr2.calls]
              exact hev1
            · intro found w3 seg3 _ hfound
              have h := hfound.more ([w2.line (.retried key)] ++ (seg2 ++ seg1))
              simpa only [List.append_assoc] using h

theorem lookup_runs (hi : Invokes invoke) (host : Host ν η μ) (access : Access) (retries : Nat)
    (w : World ν η μ) (hl : level ≤ w.calls.length + 1) (hev : evicting key w.calls = true) :
    (lookup host invoke access key retries).Runs level w :=
  (lookup_goes hi host access retries w hl hev).runs

theorem policyFor_runs (hi : Invokes invoke) (hl : level ≤ w.calls.length + 1)
    (policy : Option (Policy η)) : (policyFor invoke key policy).Runs level w := by
  cases policy with
  | some policy => exact .pure
  | none =>
    unfold policyFor
    refine Runs.cache ?_
    cases w.cache.settings.defaultPolicy with
    | none => exact .pure
    | some handler =>
      exact (hi (.defaultPolicy handler key) w level .clear hl trivial).runs

theorem occupied_runs (host : Host ν η μ) (w : World ν η μ) (level : Nat) (key : Key) :
    (occupied host key).Runs level w := by
  unfold occupied
  refine Runs.cache ?_
  cases w.cache.find? key with
  | none => exact .pure
  | some e =>
    cases hp : e.pending with
    | true =>
      simp only [hp, if_true]
      exact .pure
    | false =>
      simp only [hp]
      refine (Runs.expired host e).bind ?_
      intro found w1 _
      exact .pure

/-- An expired insertion that nobody decides about is a candidate. -/
theorem candidate?_of_expired {host : Host ν η μ} {key : Key} {e : Entry ν η} {policy : Policy η}
    {P : World ν η μ → Prop} (hf : w.cache.find? key = some e) (hp : e.pending = false)
    (hq : e.policy = some policy)
    (hx : (expired host e).Returns w fun found v => found = true ∧ P v) :
    (candidate? host key e.generation).Returns w fun r v => r = some (e, policy) ∧ P v := by
  unfold candidate?
  refine .cache ?_
  rw [Cache.insertion?_eq_some.mpr ⟨hf, rfl⟩]
  simp only [hp, hq]
  refine .bind hx ?_
  rintro found v ⟨rfl, hv⟩
  exact .pure ⟨rfl, hv⟩

/-- An insertion that is still expired is taken out. -/
theorem commit_of_expired {host : Host ν η μ} {key : Key} {e : Entry ν η} {policy : Policy η}
    {P : World ν η μ → Prop} (hf : w.cache.find? key = some e) (hq : e.policy = some policy)
    (hx : (expired host e).Returns w fun found v => found = true ∧ P v) :
    (commit host key e.generation).Returns w fun r u => r = some e ∧ ∃ v, P v ∧
      u = (v.change (.takeOut key .expiration)).note (.left e.generation key e.value .expired) := by
  unfold commit
  refine .cache ?_
  rw [Cache.insertion?_eq_some.mpr ⟨hf, rfl⟩]
  simp only [hq]
  refine .bind hx ?_
  rintro found v ⟨rfl, hv⟩
  exact .change (.note (.pure ⟨rfl, v, hv, rfl⟩))

theorem place_eq (w : World ν η μ) (key : Key) (value : ν) (policy : Option (Policy η)) :
    place key value policy w = .ok (w.cache.find? key) (w.placed key value policy) := by
  have h : (place key value policy).Returns w fun old w' =>
      old = w.cache.find? key ∧ w' = w.placed key value policy := by
    unfold place World.placed
    refine .cache (.now (.change (.note ?_)))
    cases w.cache.find? key with
    | none => exact .pure ⟨rfl, rfl⟩
    | some old => exact .note (.pure ⟨rfl, rfl⟩)
  obtain ⟨old, w', hplace, rfl, rfl⟩ := h
  exact hplace

theorem placed_run (w : World ν η μ) (level : Nat) (key : Key) (value : ν)
    (policy : Option (Policy η)) :
    Run level .clear
      (.owing (w.cache.settings.owed ((w.cache.find? key).map (·.generation)).toList) .clear) True
      (w.placedLines key value policy) w ((w.placed key value policy).tended policy) := by
  refine ⟨.single (.place key value policy), ?_, ?_, ?_⟩
  · rw [World.calls_tended, World.calls_placed]
  · rw [World.journal_tended, World.journal_placed]
  · unfold World.placedLines
    have hcame : Ledger w.calls level w.cache.settings .clear .clear True
        [(w.change (.insert w.now key value policy)).line
          (.inserted w.cache.nextGeneration key value)] := .plain rfl rfl
    cases w.cache.find? key with
    | none => simpa using hcame
    | some old => exact hcame.append (.departure rfl rfl (by decide))

theorem releaseReplaced_goes (hi : Invokes invoke) (hl : level ≤ w.calls.length + 2) {key : Key}
    {old : Option (Entry ν η)} :
    (∀ e ∈ old, ∃ l ∈ w.journal, l.record = .left e.generation key e.value .replaced) →
    (match old with
      | none => Pure.pure ()
      | some e => releaseIfSet invoke key e : Act ν η μ Unit).Goes level
      (.owing (w.cache.settings.owed (old.map (·.generation)).toList) .clear) w (fun _ => .clear)
      fun _ _ _ => True := by
  intro hleft
  cases old with
  | none =>
    exact Goes.pure (by simp) trivial
  | some e => exact releaseIfSet_goes hi .clear hl (hleft e rfl)

theorem ends_place {key : Key} {value : ν} {policy : Option (Policy η)}
    {next : Option (Entry ν η) → Act ν η μ α} {Q : Except Halt α → World ν η μ → Prop}
    (h : (next (w.cache.find? key)).Ends (w.placed key value policy) Q) :
    (place key value policy >>= next).Ends w Q := by
  have hplace : (place key value policy).Ends w fun r w' =>
      r = .ok (w.cache.find? key) ∧ w' = w.placed key value policy := by
    unfold Ends
    rw [place_eq]
    exact ⟨rfl, rfl⟩
  refine Ends.bind hplace ?_ ?_
  · rintro old w' ⟨hold, rfl⟩
    cases hold
    exact h
  · rintro e w' ⟨hold, -⟩
    cases hold

/-- Storing ends with the release of what was under the key, if anything was. -/
theorem ends_store {key : Key} {value : ν} {policy : Option (Policy η)}
    {Q : Except Halt Unit → World ν η μ → Prop}
    (hnone : w.cache.find? key = none → Q (.ok ()) ((w.placed key value policy).tended policy))
    (hsome : ∀ old, w.cache.find? key = some old →
      (releaseIfSet invoke key old).Ends ((w.placed key value policy).tended policy) Q) :
    (store invoke key value policy).Ends w Q := by
  have tended : ∀ rest : Act ν η μ Unit, rest.Ends ((w.placed key value policy).tended policy) Q →
      (do if policy.isSome then change .ensureTimer
          rest).Ends (w.placed key value policy) Q := by
    intro rest hrest
    cases policy with
    | none => exact hrest
    | some policy => exact ends_change.mpr hrest
  apply ends_place
  cases hold : w.cache.find? key with
  | none => exact tended _ (ends_pure.mpr (hnone hold))
  | some old => exact tended _ (hsome old hold)

/-- What is under the key leaves as the value is stored. -/
theorem store_goes (hi : Invokes invoke) (hl : level ≤ w.calls.length + 2) (key : Key) (value : ν)
    (policy : Option (Policy η)) :
    (store invoke key value policy).Goes level .clear w (fun _ => .clear) fun _ _ seg =>
      ∀ old, w.cache.find? key = some old →
        ∃ l ∈ seg, l.record = .left old.generation key old.value .replaced := by
  have hrun := placed_run w level key value policy
  have hleft : ∀ e, w.cache.find? key = some e → ∃ l ∈ w.placedLines key value policy,
      l.record = .left e.generation key e.value .replaced := by
    intro e he
    unfold World.placedLines
    rw [he]
    exact ⟨_, List.mem_cons_self .., rfl⟩
  have hjournal : ∀ e ∈ w.cache.find? key,
      ∃ l ∈ ((w.placed key value policy).tended policy).journal,
        l.record = .left e.generation key e.value .replaced := by
    intro e he
    obtain ⟨l, hl, hr⟩ := hleft e he
    rw [hrun.journal]
    exact ⟨l, List.mem_append_left _ hl, hr⟩
  have hl1 : level ≤ ((w.placed key value policy).tended policy).calls.length + 2 := by
    rw [hrun.calls]
    exact hl
  have hrest := releaseReplaced_goes hi hl1 hjournal
  rw [hrun.moves.settings] at hrest
  have hends := Goes.after (Q := fun _ _ seg => ∀ old, w.cache.find? key = some old →
    ∃ l ∈ seg, l.record = .left old.generation key old.value .replaced) hrun (hrest.imp ?_)
  · -- a new insertion and the start of the timer are one move
    unfold store Goes
    refine ends_place ?_
    cases policy with
    | none => exact hends
    | some policy => exact ends_change.mpr hends
  · intro _ _ new _ _ old hold
    obtain ⟨l, hl, hr⟩ := hleft old hold
    exact ⟨l, List.mem_append_right _ hl, hr⟩

theorem store_runs (hi : Invokes invoke) (hl : level ≤ w.calls.length + 2) (key : Key) (value : ν)
    (policy : Option (Policy η)) : (store invoke key value policy).Runs level w :=
  (store_goes hi hl key value policy).runs

theorem insert_runs (hi : Invokes invoke) (hl : level ≤ w.calls.length + 1) (host : Host ν η μ)
    (key : Key) (value : ν) (options : Options η) :
    (insert host invoke key value options).Runs level w := by
  unfold insert
  refine (policyFor_runs hi hl options.policy).bind ?_
  intro policy w1 hc1
  have hl1 : level ≤ w1.calls.length + 2 := by
    rw [hc1]
    omega
  split
  · exact store_runs hi hl1 key value policy
  · refine (occupied_runs host w1 level key).bind ?_
    intro taken w2 hc2
    split
    · exact .pure
    · refine store_runs hi ?_ key value policy
      rw [hc2]
      exact hl1

theorem make_goes (hi : Invokes invoke) (hl : level ≤ w.calls.length + 1) (host : Host ν η μ)
    (key : Key) (factory : η) (options : Options η) :
    (make host invoke key factory options).Goes level .clear w (fun _ => .clear) fun _ _ seg =>
      ∃ l ∈ seg, l.record = .entered (.factory factory key) := by
  unfold make
  refine (hi (.factory factory key) w level .clear hl trivial).bind ?_
  rintro made w1 seg hr ⟨-, l, hl1, hentered⟩
  cases made with
  | error message => exact .pure rfl ⟨l, hl1, hentered⟩
  | ok value =>
    refine Goes.bind (insert_runs hi ?_ host key value _) ?_
    · rw [hr.calls]
      exact hl
    · intro _ w2 new _ _
      exact .pure rfl ⟨l, List.mem_append_right _ hl1, hentered⟩

theorem make_runs (hi : Invokes invoke) (hl : level ≤ w.calls.length + 1) (host : Host ν η μ)
    (key : Key) (factory : η) (options : Options η) :
    (make host invoke key factory options).Runs level w := (make_goes hi hl host key factory options).runs

theorem fetchInside_runs (hi : Invokes invoke) (hl : level ≤ w.calls.length + 1) (host : Host ν η μ)
    (hev : evicting key w.calls = true) (factory : η) (options : Options η) (retries : Nat) :
    (fetchInside host invoke key factory options retries).Runs level w := by
  unfold fetchInside
  split
  · exact make_runs hi hl host key factory options
  · refine (lookup_runs hi host .full retries w hl hev).bind ?_
    intro found w1 hc1
    cases found with
    | none =>
      refine make_runs hi ?_ host key factory options
      rw [hc1]
      exact hl
    | some value => exact .pure

/-- Work inside the key's slot runs if it does once the slot is held. -/
theorem holding_goes {α : Type} {acquired : Admission} {slot : Nat} {work : Act ν η μ α}
    {Q : α → World ν η μ → List (Line ν η) → Prop}
    (ha : w.cache.admission.acquire? key = some (acquired, slot))
    (h : work.Goes level .clear ((w.change ({ · with admission := acquired })).push (.fetching key slot))
      (fun _ => .clear) Q) :
    (holding key acquired slot work).Goes level .clear w (fun _ => .clear) fun r _ seg =>
      ∃ w1, Q r w1 seg := by
  unfold holding
  refine (Goes.bracket (w := w) (.fetching key slot) (.acquire key acquired slot ha) rfl rfl ?_
    h).imp ?_
  · intro v hv
    refine ⟨.dismiss key slot w.calls hv, ?_, rfl⟩
    rw [World.calls_pop, World.calls_change, hv]
    rfl
  · rintro r _ seg _ ⟨w1, -, -, hq⟩
    exact ⟨w1, hq⟩

/-- A fetch that returns a value was for a key that the host accepts, and its work was done inside. -/
theorem fetch_goes (host : Host ν η μ) {factory : η} {options : Options η} {retries : Nat}
    {Q : List (Line ν η) → Prop}
    (h : ∀ acquired slot, (fetchInside host invoke key factory options retries).Goes level .clear
      ((w.change ({ · with admission := acquired })).push (.fetching key slot)) (fun _ => .clear)
      fun _ _ seg => Q seg) :
    (fetch host invoke key factory options retries).Goes level .clear w (fun _ => .clear)
      fun r _ seg => ∀ value, r = .value value → host.accepts key = true ∧ Q seg := by
  have refused : ∀ cause, (Pure.pure (.refused cause) : Act ν η μ (Fetched ν)).Goes level .clear w
      (fun _ => .clear) fun r _ seg => ∀ value, r = .value value → host.accepts key = true ∧ Q seg := by
    intro cause
    refine .pure rfl ?_
    intro value hv
    cases hv
  unfold fetch
  refine Goes.cache ?_
  cases ha : w.cache.admission.acquire? key with
  | none => exact refused .waitsForItself
  | some entered =>
    obtain ⟨acquired, slot⟩ := entered
    show (if host.accepts key = true then _ else _ : Act ν η μ (Fetched ν)).Goes _ _ _ _ _
    split
    · rename_i haccepts
      refine (holding_goes ha (h acquired slot)).imp ?_
      rintro r _ seg _ ⟨_, hq⟩ value _
      exact ⟨haccepts, hq⟩
    · exact refused (.error (.forKey key))

theorem fetch_runs (hi : Invokes invoke) (hl : level ≤ w.calls.length + 1) (host : Host ν η μ)
    {op : Operation ν η} {rest : List (Activity ν η)} (hc : w.calls = .operation op :: rest)
    (hop : op.evicts key = true) (factory : η) (options : Options η) (retries : Nat) :
    (fetch host invoke key factory options retries).Runs level w := by
  refine (fetch_goes host (Q := fun _ => True) ?_).runs
  intro acquired slot
  refine fetchInside_runs hi ?_ host ?_ factory options retries
  · exact Nat.le_succ_of_le hl
  · rw [World.calls_push, World.calls_change, hc]
    simp [evicting, hop]

theorem race_runs (hi : Invokes invoke) (host : Host ν η μ) {op : Operation ν η}
    {rest : List (Activity ν η)} (hop : op.evicts key = true) (factory : η) (options : Options η)
    (retries callers : Nat) : ∀ w : World ν η μ, level ≤ w.calls.length + 1 →
      w.calls = .operation op :: rest →
      (race host invoke key factory options retries callers).Runs level w := by
  induction callers with
  | zero =>
    intro w _ _
    exact .pure
  | succ callers ih =>
    intro w hl hc
    unfold race
    refine (fetch_runs hi hl host hc hop factory options retries).bind ?_
    intro first w1 hc1
    refine (ih w1 (by rw [hc1]; exact hl) (hc1.trans hc)).bind ?_
    intro others w2 _
    exact .pure

theorem remove_runs (hi : Invokes invoke) (hl : level ≤ w.calls.length + 2) (key : Key) :
    (remove invoke key).Runs level w := by
  unfold remove
  refine Runs.cache ?_
  cases hf : w.cache.find? key with
  | none => exact .pure
  | some e =>
    refine Goes.takeOut (c := .owing (w.cache.settings.owed [e.generation]) .clear) hf trivial ?_ ?_
    · exact .departure rfl rfl (by decide)
    · have hleft : ∃ l ∈ ((w.change (.takeOut key (.removed 1))).note
          (.left e.generation key e.value .removed)).journal,
          l.record = .left e.generation key e.value .removed :=
        ⟨_, List.mem_cons_self .., rfl⟩
      refine Goes.bind (releaseIfSet_goes (w := (w.change (.takeOut key (.removed 1))).note
        (.left e.generation key e.value .removed)) hi .clear hl hleft) ?_
      intro _ w1 _ _ _
      exact .pure rfl trivial

theorem takeAll_eq (w : World ν η μ) :
    takeAll w = .ok w.cache.entries.rows w.emptied := by
  have loop : ∀ (rows : List (Key × Entry ν η)) (w : World ν η μ),
      (rows.forM fun r => note (.left r.2.generation r.1 r.2.value .cleared) :
        Act ν η μ Unit) w = .ok () (w.noteCleared rows) := by
    intro rows
    induction rows with
    | nil =>
      intro w
      rfl
    | cons r rows ih =>
      intro w
      exact ih (w.note (.left r.2.generation r.1 r.2.value .cleared))
  have h : takeAll w = (do
      w.cache.entries.rows.forM fun r => note (.left r.2.generation r.1 r.2.value .cleared)
      return w.cache.entries.rows : Act ν η μ (List (Key × Entry ν η))) (w.change .drain) := rfl
  rw [h]
  show EStateM.bind _ _ _ = _
  unfold EStateM.bind
  rw [loop]
  rfl

theorem clearedLines_ledger (rows : List (Key × Entry ν η)) (w : World ν η μ) (s : Settings η) :
    ∀ a : Account, Ledger w.calls level s a (a.owing (s.owed (rows.map (·.2.generation)))) True
      (w.clearedLines rows) := by
  induction rows with
  | nil =>
    intro a
    rw [List.map_nil, Settings.owed_nil, Account.owing_nil]
    exact .nil
  | cons r rows ih =>
    intro a
    have h1 : Ledger w.calls level s a (a.owing (s.owed [r.2.generation])) True
        [w.line (.left r.2.generation r.1 r.2.value .cleared)] := .departure rfl rfl (by decide)
    have h2 := h1.append (ih _)
    have heq : w.clearedLines (r :: rows) = w.clearedLines rows ++
        [w.line (.left r.2.generation r.1 r.2.value .cleared)] := by
      simp [World.clearedLines]
    have happ := s.owed_append [r.2.generation] (rows.map (·.2.generation))
    have hperm : (s.owed (rows.map (·.2.generation)) ++ (s.owed [r.2.generation] ++ a.due)).Perm
        (s.owed (([r.2.generation] : List Nat) ++ rows.map (·.2.generation)) ++ a.due) := by
      rw [happ, ← List.append_assoc]
      exact List.Perm.append_right _ List.perm_append_comm
    rw [heq]
    exact h2.reorder hperm (by rfl)

theorem ends_takeAll {next : List (Key × Entry ν η) → Act ν η μ α}
    {Q : Except Halt α → World ν η μ → Prop}
    (h : (next w.cache.entries.rows).Ends w.emptied Q) : (takeAll >>= next).Ends w Q := by
  have htaken : (takeAll : Act ν η μ (List (Key × Entry ν η))).Ends w fun r w' =>
      r = .ok w.cache.entries.rows ∧ w' = w.emptied := by
    unfold Ends
    rw [takeAll_eq]
    exact ⟨rfl, rfl⟩
  refine Ends.bind htaken ?_ ?_
  · rintro rows w' ⟨hrows, rfl⟩
    cases hrows
    exact h
  · rintro e w' ⟨hrows, -⟩
    cases hrows

theorem emptied_run {v : World ν η μ} (hm : Move level w v.emptied) (hc : v.calls = w.calls)
    (hj : v.journal = w.journal) : Run level .clear
      (.owing (w.cache.settings.owed (v.cache.entries.rows.map (·.2.generation))) .clear) True
      ((v.change .drain).clearedLines v.cache.entries.rows) w v.emptied := by
  refine ⟨.single hm, ?_, ?_, ?_⟩
  · rw [World.emptied_eq]
    exact hc
  · rw [World.emptied_eq, hj]
  · rw [← hc]
    exact clearedLines_ledger _ (v.change .drain) _ _

theorem releaseAll_goes (hi : Invokes invoke) (rows : List (Key × Entry ν η)) :
    ∀ w : World ν η μ, level ≤ w.calls.length + 2 →
      (∀ r ∈ rows, ∃ l ∈ w.journal, l.record = .left r.2.generation r.1 r.2.value .cleared) →
      (rows.forM fun r => releaseIfSet invoke r.1 r.2).Goes level
        (.owing (w.cache.settings.owed (rows.map (·.2.generation))) .clear) w (fun _ => .clear)
        fun _ _ _ => True := by
  induction rows with
  | nil =>
    intro w _ _
    exact .pure (by simp) trivial
  | cons r rows ih =>
    intro w hl hleft
    have happ := w.cache.settings.owed_append [r.2.generation] (rows.map (·.2.generation))
    simp only [List.cons_append, List.nil_append] at happ
    rw [List.map_cons, happ, Account.owing_append]
    refine Goes.bind (releaseIfSet_goes hi _ hl (hleft r (List.mem_cons_self ..))) ?_
    intro _ w1 seg hr _
    rw [← hr.moves.settings]
    refine ih w1 ?_ ?_
    · rw [hr.calls]
      exact hl
    · intro q hq
      obtain ⟨l, hm, hrec⟩ := hleft q (List.mem_cons_of_mem _ hq)
      exact ⟨l, hr.moves.journal.subset hm, hrec⟩

/-- The cache is cleared from `v`, which `w` turns into as the entries leave. -/
theorem clear_ends (hi : Invokes invoke) {v : World ν η μ} (hm : Move level w v.emptied)
    (hc : v.calls = w.calls) (hj : v.journal = w.journal) (hl : level ≤ w.calls.length + 2) :
    (clear invoke).Ends v fun r w' =>
      match r with
      | .ok _ => ∃ seg, Run level .clear .clear True seg w w' ∧ True
      | .error e => ∃ seg, Run level .clear .clear (e ≠ .exhausted) seg w w' := by
  have hrun := emptied_run hm hc hj
  have hleft : ∀ r ∈ v.cache.entries.rows, ∃ l ∈ v.emptied.journal,
      l.record = .left r.2.generation r.1 r.2.value .cleared := by
    intro r hr
    refine ⟨(v.change .drain).line (.left r.2.generation r.1 r.2.value .cleared), ?_, rfl⟩
    rw [World.emptied_eq]
    refine List.mem_append_left _ (List.mem_reverse.mpr ?_)
    exact List.mem_map_of_mem hr
  have hl1 : level ≤ v.emptied.calls.length + 2 := by
    rw [hrun.calls]
    exact hl
  have hrest := releaseAll_goes hi v.cache.entries.rows v.emptied hl1 hleft
  rw [hrun.moves.settings] at hrest
  unfold clear
  exact ends_takeAll (Goes.after (Q := fun _ _ _ => True) hrun hrest)

theorem clear_runs (hi : Invokes invoke) (hl : level ≤ w.calls.length + 2) :
    (clear invoke).Runs level w := clear_ends hi .empty rfl rfl hl

theorem closeUnused_runs (hi : Invokes invoke) (hl : level ≤ w.calls.length + 2) :
    (closeUnused invoke).Runs level w := by
  unfold closeUnused
  refine Goes.get ?_
  split
  · unfold close
    exact ends_change.mpr (clear_ends hi .close rfl rfl hl)
  · exact .pure rfl trivial

theorem candidates_runs (host : Host ν η μ) (w : World ν η μ) (level : Nat) :
    (candidates host).Runs level w := by
  unfold candidates
  refine Runs.cache ((Runs.filterM _ w ?_).bind ?_)
  · intro r w' _
    split
    · exact .pure
    · exact .expired host r.2
  · intro rows w' _
    exact .pure

theorem sweep_runs (hi : Invokes invoke) (hl : level ≤ w.calls.length + 1) (host : Host ν η μ)
    (hev : ∀ key, evicting key w.calls = true) : (sweep host invoke).Runs level w := by
  unfold sweep
  refine (candidates_runs host w level).bind ?_
  intro cs w1 hc1
  refine Runs.foldlM cs 0 w1 ?_
  intro n c w2 hc2
  have hc : w2.calls = w.calls := hc2.trans hc1
  refine (expire_runs hi host (by rw [hc]; exact hl) (by rw [hc]; exact hev c.1) c.2).bind ?_
  intro fate w3 _
  cases fate <;> exact .pure

theorem liveKeys_runs (host : Host ν η μ) (w : World ν η μ) (level : Nat) :
    (liveKeys host).Runs level w := by
  unfold liveKeys
  refine Runs.cache ((Runs.filterM _ w ?_).bind ?_)
  · intro r w' _
    split
    · exact .pure
    · refine (Runs.expired host r.2).bind ?_
      intro found w'' _
      exact .pure
  · intro rows w' _
    exact .pure

theorem tick_runs (hi : Invokes invoke) (hl : level ≤ w.calls.length + 1) (host : Host ν η μ)
    (hc : w.calls = []) : (tick host invoke).Runs level w := by
  unfold tick
  refine (sweep_runs hi hl host ?_).bind ?_
  · intro key
    rw [hc]
    rfl
  · intro _ w1 _
    refine .cache ?_
    split
    · rename_i hn
      exact Goes.change (g := fun _ => Pure.pure ()) (.retire (by simpa using hn)) Runs.pure
    · exact .pure

theorem keyed_goes {work : Act ν η μ (Answer ν)}
    {Q : Answer ν → World ν η μ → List (Line ν η) → Prop}
    (h : host.accepts key = true → work.Goes level .clear w (fun _ => .clear) Q) :
    (keyed host key work).Goes level .clear w (fun _ => .clear) fun answer w' seg =>
      (host.accepts key = true ∧ Q answer w' seg) ∨ answer = .refused (.error (.forKey key)) := by
  unfold keyed
  split
  · rename_i haccepts
    exact (h haccepts).imp fun _ _ _ _ hq => Or.inl ⟨haccepts, hq⟩
  · exact .pure rfl (Or.inr rfl)

theorem Runs.keyed {work : Act ν η μ (Answer ν)} (h : work.Runs level w) :
    (keyed host key work).Runs level w := (keyed_goes fun _ => h).runs

theorem carryOut_runs (hi : Invokes invoke) (hl : level ≤ w.calls.length + 1) (host : Host ν η μ)
    (retries : Nat) (op : Operation ν η) {rest : List (Activity ν η)}
    (hc : w.calls = .operation op :: rest) : (carryOut host invoke retries op).Runs level w := by
  have hev : ∀ key, op.evicts key = true → evicting key w.calls = true := by
    intro key h
    rw [hc]
    exact h
  cases op with
  | insert key value options =>
    refine Runs.keyed ((insert_runs hi hl host key value options).bind ?_)
    intro _ w1 _
    exact .pure
  | get key =>
    refine Runs.keyed ((lookup_runs hi host .full retries w hl (hev key ?_)).bind ?_)
    · simp [Operation.evicts]
    · intro _ w1 _
      exact .pure
  | contains key =>
    refine Runs.keyed ((lookup_runs hi host .peek retries w hl (hev key ?_)).bind ?_)
    · simp [Operation.evicts]
    · intro _ w1 _
      exact .pure
  | fetch key factory options =>
    refine Runs.bind (fetch_runs hi hl host hc ?_ factory options retries) ?_
    · simp [Operation.evicts]
    · intro fetched w1 _
      cases fetched <;> exact .pure
  | race key factory options callers =>
    refine Runs.cache ?_
    split
    · refine (race_runs hi host ?_ factory options retries callers w hl hc).bind ?_
      · simp [Operation.evicts]
      · intro _ w1 _
        exact .pure
    · exact .pure
  | remove key =>
    refine Runs.keyed ((remove_runs hi (Nat.le_succ_of_le hl) key).bind ?_)
    intro _ w1 _
    exact .pure
  | clear =>
    refine Runs.bind (clear_runs hi (Nat.le_succ_of_le hl)) ?_
    intro _ w1 _
    exact .pure
  | sweep =>
    refine Runs.bind (sweep_runs hi hl host fun key => hev key rfl) ?_
    intro _ w1 _
    exact .pure
  | length => exact Runs.cache .pure
  | keys =>
    refine Runs.bind (liveKeys_runs host w level) ?_
    intro _ w1 _
    exact .pure
  | statistics => exact Runs.cache .pure
  | timerRunning => exact Runs.cache .pure
  | onExpiring handler => exact Runs.change ⟨rfl, rfl, rfl, rfl, rfl, rfl, rfl⟩ .pure
  | onExpired handler => exact Runs.change ⟨rfl, rfl, rfl, rfl, rfl, rfl, rfl⟩ .pure
  | drop => exact Runs.change ⟨rfl, rfl, rfl, rfl, rfl, rfl, rfl⟩ .pure

theorem Runs.attempt {x : Act ν η μ α} (h : x.Runs level w) : (Act.attempt x).Runs level w :=
  (Goes.attempt h).runs

/-- `Q` held of the answer when it came, at some point of the segment. -/
def Answered (Q : α → World ν η μ → List (Line ν η) → Prop) (answer : α) (seg : List (Line ν η)) :
    Prop :=
  ∃ w1 old new, seg = new ++ old ∧ Q answer w1 old

theorem Answered.more {Q : α → World ν η μ → List (Line ν η) → Prop} {answer : α}
    {seg : List (Line ν η)} (h : Answered Q answer seg) (new : List (Line ν η)) :
    Answered Q answer (new ++ seg) := by
  obtain ⟨w1, old, mid, rfl, hq⟩ := h
  exact ⟨w1, old, new ++ mid, (List.append_assoc ..).symm, hq⟩

theorem resume_goes {Q : α → World ν η μ → List (Line ν η) → Prop} {result : Except String α}
    (seg : List (Line ν η)) (h : ∀ answer, result = .ok answer → Answered Q answer seg) :
    (resume result : Act ν η μ α).Goes level .clear w (fun _ => .clear) fun answer _ new =>
      Answered Q answer (new ++ seg) := by
  cases result with
  | ok answer => exact Goes.pure rfl (h answer rfl)
  | error message => exact Goes.panic message

/-- The bound was reached, which nothing that stands around the work waits for. -/
def cutShort : Except Halt α → Bool
  | .error .exhausted => true
  | _ => false

theorem caught_of_cutShort {r : Except Halt α} (h : cutShort r = true) :
    r = .error .exhausted ∧ caught r = .error .exhausted := by
  match r, h with
  | .error .exhausted, _ => exact ⟨rfl, rfl⟩

theorem cutShort_eq_false {r : Except Halt α} (h : r ≠ .error .exhausted) : cutShort r = false := by
  match r, h with
  | .ok _, _ => rfl
  | .error (.panic _), _ => rfl
  | .error .exhausted, h => exact absurd rfl h

theorem resume_caught {r : Except Halt α} (h : cutShort r = false) :
    ∃ result, caught r = .ok result ∧ ∀ v : World ν η μ,
      (resume result : Act ν η μ α).Ends v fun r' v' => r' = r ∧ v' = v := by
  match r, h with
  | .ok a, _ => exact ⟨.ok a, rfl, fun _ => ⟨rfl, rfl⟩⟩
  | .error (.panic message), _ => exact ⟨.error message, rfl, fun _ => ⟨rfl, rfl⟩⟩

/-- Work that is waited for, be it with an answer or with a panic, is followed by `g`, and only then goes
on as it ended. -/
theorem ends_afterwards {x : Act ν η μ α} {g : Act ν η μ β}
    {Q : Except Halt α → World ν η μ → Prop}
    (h : x.Ends w fun s v =>
      if cutShort s then Q s v else g.Ends v fun t u => Q (t.bind fun _ => s) u) :
    (attempt x >>= fun result => g >>= fun _ => resume result).Ends w Q := by
  refine Ends.bind (P := fun r v => ∃ s, r = caught s ∧
    if cutShort s then Q s v else g.Ends v fun t u => Q (t.bind fun _ => s) u)
    (ends_attempt (h.mono fun s _ hs => ⟨s, rfl, hs⟩)) ?_ ?_
  · rintro r v ⟨s, hr, hs⟩
    cases hcut : cutShort s with
    | true =>
      rw [(caught_of_cutShort hcut).2] at hr
      cases hr
    | false =>
      obtain ⟨result, hc, hresume⟩ := resume_caught (ν := ν) (η := η) (μ := μ) hcut
      cases hr.trans hc
      rw [if_neg (by simp [hcut])] at hs
      refine hs.bind ?_ fun _ _ hq => hq
      intro _ u hq
      apply (hresume u).mono
      rintro _ _ ⟨rfl, rfl⟩
      exact hq
  · rintro halt v ⟨s, hr, hs⟩
    cases hcut : cutShort s with
    | true =>
      obtain ⟨rfl, -⟩ := caught_of_cutShort hcut
      cases hr
      exact hs
    | false =>
      obtain ⟨result, hc, -⟩ := resume_caught (ν := ν) (η := η) (μ := μ) hcut
      cases hr.trans hc

/-- Once its work has ended with `s`, an operation ends as `Q` says: the cache is closed if nobody uses
it any more, and the end is noted. A panic waits for all this. -/
def Closes (invoke : Invoke ν η μ) (op : Operation ν η)
    (Q : Except Halt (Answer ν) → World ν η μ → Prop) (s : Except Halt (Answer ν))
    (w : World ν η μ) : Prop :=
  if cutShort s then Q s w
  else (closeUnused invoke).Ends w fun t v =>
    if cutShort t then Q (t.bind fun _ => s) v
    else Q (t.bind fun _ => s) (v.note (.finished op))

theorem operate_closes {retries : Nat} {op : Operation ν η}
    {Q : Except Halt (Answer ν) → World ν η μ → Prop}
    (h : (carryOut host invoke retries op).Ends (w.push (.operation op)) fun s u =>
      Closes invoke op Q s u.pop) : (operate host invoke retries op).Ends w Q := by
  have closed : (attempt (during (.operation op) (carryOut host invoke retries op)) >>= fun result =>
      closeUnused invoke >>= fun _ => resume result).Ends w fun s v =>
        if cutShort s then Q s v else Q s (v.note (.finished op)) := by
    refine ends_afterwards (ends_bracket (h.mono ?_))
    intro s u hs
    unfold Closes at hs
    cases hcut : cutShort s with
    | true => simpa [hcut] using hs
    | false =>
      rw [if_neg (by simp [hcut])] at hs
      rw [if_neg Bool.false_ne_true]
      apply hs.mono
      intro t v ht
      -- what cuts the closing short cuts the operation short, and nothing else does
      cases t with
      | ok _ =>
        rw [if_neg (by simp [cutShort])] at ht
        show if cutShort s then Q s v else Q s (v.note (.finished op))
        rw [if_neg (by simp [hcut])]
        exact ht
      | error halt => cases halt <;> exact ht
  refine ends_afterwards (closed.mono ?_)
  intro s v hs
  split
  · rwa [if_pos ‹_›] at hs
  · rwa [if_neg ‹_›] at hs

/-- An operation as a whole answers what it came to, once the rest of its work is done. -/
theorem operate_goes (hi : Invokes invoke) (hl : level ≤ w.calls.length + 2) (host : Host ν η μ)
    (retries : Nat) (op : Operation ν η) {Q : Answer ν → World ν η μ → List (Line ν η) → Prop}
    (h : (carryOut host invoke retries op).Goes level .clear (w.push (.operation op))
      (fun _ => .clear) Q) :
    (operate host invoke retries op).Goes level .clear w (fun _ => .clear) fun answer _ seg =>
      Answered Q answer seg := by
  unfold operate
  refine Goes.bind (Goes.attempt (Goes.bind (Goes.attempt (Goes.during rfl h))
    (R := fun answer _ seg => Answered Q answer seg) ?_)) ?_
  · intro result w1 seg1 hr1 hq1
    have hcame : ∀ answer, result = .ok answer → Answered Q answer seg1 := by
      intro answer ha
      obtain ⟨w0, -, -, hq⟩ := hq1 answer ha
      exact ⟨w0, seg1, [], rfl, hq⟩
    refine Goes.bind (closeUnused_runs hi (by rw [hr1.calls]; exact hl)) ?_
    intro _ w2 seg2 _ _
    refine (resume_goes (seg2 ++ seg1) fun answer ha => (hcame answer ha).more seg2).imp ?_
    intro answer _ new _ hq
    simpa only [List.append_assoc] using hq
  · intro result w1 seg1 _ hcame
    refine .note rfl trivial (.plain rfl rfl) ((resume_goes ([w1.line (.finished op)] ++ seg1)
      fun answer ha => (hcame answer ha).more _).imp ?_)
    intro answer _ new _ hq
    simpa only [List.append_assoc] using hq

theorem operate_runs (hi : Invokes invoke) (hl : level ≤ w.calls.length + 2) (host : Host ν η μ)
    (retries : Nat) (op : Operation ν η) : (operate host invoke retries op).Runs level w :=
  (operate_goes hi hl host retries op (carryOut_runs hi hl host retries op rfl)).runs

theorem closeUnused_returns (hh : w.cache.handle = .held) :
    (closeUnused invoke).Returns w fun _ w' => w' = w := by
  unfold closeUnused
  refine .get ?_
  rw [if_neg ?_]
  · exact .pure rfl
  · rintro ⟨h, -⟩
    rw [hh] at h
    cases h

/-- An operation whose work returns, with the handle held still, returns too: nothing is closed at
the end. -/
theorem operate_finishes {P : Answer ν → World ν η μ → Prop} {retries : Nat} {op : Operation ν η}
    (h : (carryOut host invoke retries op).Returns (w.push (.operation op)) fun answer w1 =>
      P answer w1 ∧ w1.cache.handle = .held) :
    (operate host invoke retries op).Returns w fun answer w' =>
      ∃ w1, P answer w1 ∧ w' = w1.pop.note (.finished op) := by
  have carried : (attempt (during (.operation op) (carryOut host invoke retries op))).Returns w
      fun r w' => ∃ answer w1, r = .ok answer ∧ P answer w1 ∧ w1.cache.handle = .held ∧
        w' = w1.pop := by
    refine .attempt (.bracket (h.mono ?_))
    rintro answer w1 ⟨hp, hh⟩
    exact ⟨answer, w1, rfl, hp, hh, rfl⟩
  unfold operate
  refine .bind (P := fun r w' => ∃ answer w1, r = .ok answer ∧ P answer w1 ∧ w' = w1.pop)
    (.attempt (.bind carried ?_)) ?_
  · rintro r w' ⟨answer, w1, rfl, hp, hh, rfl⟩
    refine .bind (closeUnused_returns hh) ?_
    rintro _ w2 rfl
    exact .pure ⟨answer, w1, rfl, hp, rfl⟩
  · rintro r w' ⟨answer, w1, rfl, hp, rfl⟩
    exact .note (.pure ⟨w1, hp, rfl⟩)

/-- Operations run, with their callbacks and whatever these perform in turn. -/
def Performs (perform : Operation ν η → Act ν η μ (Answer ν)) : Prop :=
  ∀ op (w : World ν η μ) (level : Nat), level ≤ w.calls.length + 2 → (perform op).Runs level w

theorem run_runs {perform : Operation ν η → Act ν η μ (Answer ν)} (hp : Performs perform)
    (p : Program ν η μ α) : ∀ w : World ν η μ, level ≤ w.calls.length + 2 →
      (p.run perform).Runs level w := by
  induction p with
  | done a =>
    intro w _
    exact .pure
  | panic message =>
    intro w _
    exact Goes.panic message
  | clock next ih =>
    intro w hl
    exact Goes.now (ih w.now w hl)
  | wait span next ih =>
    intro w hl
    have hle : w.now ≤ w.now.advance span := w.now.le_advance span
    exact Goes.modify (.clock _ hle) rfl rfl (ih _ hl)
  | load next ih =>
    intro w hl
    exact Goes.get (ih w.memory w hl)
  | store m next ih =>
    intro w hl
    exact Goes.modify (.memory m) rfl rfl (ih _ hl)
  | perform op next ih =>
    intro w hl
    refine (Runs.attempt (hp op w level hl)).bind ?_
    intro r w1 hc1
    refine ih r w1 ?_
    rw [hc1]
    exact hl

/-- Entering a callback is what hands a value over. -/
theorem entered_ledger (c : Callback ν η) (w : World ν η μ) (level : Nat) (s : Settings η)
    (frame : Account) : Ledger w.calls level s (frame.owing (duty c w.calls)) frame True
      [w.line (.entered c)] := by
  have hcount : ∀ g, (Line.handsOver g (w.line (.entered c))).toNat = (duty c w.calls).count g := by
    intro g
    unfold Line.handsOver duty World.line
    cases c with
    | release handler key value =>
      cases w.calls with
      | nil => rfl
      | cons a rest =>
        cases a with
        | releasing k h => exact (count_one h g).symm
        | _ => rfl
    | _ => rfl
  refine .single rfl (fun _ _ => rfl) ?_ ?_ ?_ ?_
  · intro g
    rw [hcount, Account.due_owing, List.count_append]
    omega
  · intro _ g
    have howes : Line.owes s g (w.line (.entered c)) = false := by
      simp [Line.owes, Line.withdraws, Line.condemns, World.line]
    rw [hcount, howes, Account.due_owing, List.count_append, Bool.toNat_false, Nat.zero_add]
  · intro g
    simp [World.line, Line.disposes, Line.expires]
  · intro _ g
    simp [World.line, Line.disposes, Line.expires]

theorem callVia_invokes (host : Host ν η μ) {perform : Operation ν η → Act ν η μ (Answer ν)}
    (hp : Performs perform) : Invokes (callVia host perform) := by
  intro c w level frame hl hlaw
  unfold callVia
  refine Goes.note rfl hlaw (entered_ledger c w level _ frame) ?_
  -- whatever the program performs replies one level deeper at least, so that the one reply at
  -- this depth is the callback's own
  have hrun : ((host.respond c).run perform).Goes (w.calls.length + 2) .clear (w.note (.entered c))
      (fun _ => .clear) fun _ _ seg => replies w.calls.length seg = [] :=
    (run_runs hp (host.respond c) (w.note (.entered c)) (Nat.le_refl _)).imp fun _ _ seg hr _ =>
      hr.ledger.replies_eq_nil (Nat.lt_succ_self _)
  refine Goes.bind (Goes.attempt (hrun.lower (Nat.le_succ_of_le hl))) ?_
  intro r w1 seg hr hq
  have hc1 : w1.calls = w.calls := hr.calls
  cases r with
  | ok answer =>
    have hreply : (w1.line (.returned c answer)).reply? w.calls.length = some ⟨c, answer⟩ := by
      simp [World.line, Line.reply?, hc1]
    refine Goes.note rfl trivial (.single rfl ?_ ?_ ?_ ?_ ?_) (.pure rfl ⟨?_, ?_⟩)
    · intro depth hd
      have hne : w1.calls.length ≠ depth := by
        rw [hc1]
        omega
      simp [World.line, Line.reply?, hne]
    · intro g
      simp [World.line, Line.handsOver, Line.claims, Line.withdraws, Line.disposes]
    · intro _ g
      simp [World.line, Line.handsOver, Line.owes, Line.withdraws, Line.condemns]
    · intro g
      simp [World.line, Line.disposes, Line.expires]
    · intro _ g
      simp [World.line, Line.disposes, Line.expires]
    · rw [List.nil_append, replies_append, replies_append, hq answer rfl]
      simp only [replies, List.filterMap_cons, List.filterMap_nil, hreply]
      rfl
    · refine ⟨w.line (.entered c), ?_, rfl⟩
      simp
  | error message =>
    -- an unwound callback may leave values behind that were to be handed over
    refine ends_note.mpr (ends_throw.mpr ⟨[w1.line (.unwound c)], ?_⟩)
    refine Run.line (.unwound c) rfl trivial (Ledger.forget ?_ (.plain rfl rfl))
    intro _
    exact ⟨_, List.mem_singleton_self _, rfl⟩

theorem perform_performs (host : Host ν η μ) (depth : Nat) : Performs (perform host depth) := by
  induction depth with
  | zero =>
    intro op w level _
    exact Goes.exhausted
  | succ depth ih =>
    intro op w level hl
    unfold perform
    refine Runs.cache ?_
    split
    · exact operate_runs (callVia_invokes host ih) hl host depth op
    · exact .pure

theorem call_invokes (host : Host ν η μ) (depth : Nat) : Invokes (call host depth) :=
  callVia_invokes host (perform_performs host depth)

/-- What is performed is carried out if the handle is held, and refused if it was given up. -/
theorem perform_goes (host : Host ν η μ) (depth : Nat) (op : Operation ν η)
    {Q : Answer ν → World ν η μ → List (Line ν η) → Prop}
    (h : (carryOut host (call host depth) depth op).Goes 0 .clear (w.push (.operation op))
      (fun _ => .clear) Q) :
    (perform host (depth + 1) op).Goes 0 .clear w (fun _ => .clear) fun answer _ seg =>
      (w.cache.handle = .held ∧ Answered Q answer seg) ∨ answer = afterDrop op := by
  unfold perform
  refine Goes.cache ?_
  split
  · rename_i hh
    exact (operate_goes (call_invokes host depth) (Nat.zero_le _) host depth op h).imp
      fun _ _ _ _ hq => Or.inl ⟨hh, hq⟩
  · exact .pure rfl (Or.inr rfl)

theorem perform_finishes {P : Answer ν → World ν η μ → Prop} {host : Host ν η μ} {depth : Nat}
    {op : Operation ν η} (hh : w.cache.handle = .held)
    (h : (carryOut host (call host depth) depth op).Returns (w.push (.operation op))
      fun answer w1 => P answer w1 ∧ w1.cache.handle = .held) :
    (perform host (depth + 1) op).Returns w fun answer w' =>
      ∃ w1, P answer w1 ∧ w' = w1.pop.note (.finished op) := by
  unfold perform
  refine .cache ?_
  rw [if_pos hh]
  exact operate_finishes h

/-- The timer's task sets the timer. -/
theorem Runs.beat {timer : Option Timer} {g : Unit → Act ν η μ β}
    (h : (g ()).Runs 0 (w.change (.setTimer timer))) :
    (Act.change (.setTimer timer) >>= g).Runs 0 w := Goes.change (.beat rfl timer) h

theorem guardedTick_runs (hi : Invokes invoke) (host : Host ν η μ) (hc : w.calls = []) :
    (guardedTick host invoke).Runs 0 w := by
  unfold guardedTick
  refine (Runs.attempt (tick_runs hi (Nat.zero_le _) host hc)).bind ?_
  intro r w1 _
  cases r with
  | ok _ => exact .pure
  | error _ =>
    exact Goes.change (g := fun _ => Pure.pure ()) (.beat rfl (w1.cache.timer.map fun _ => .ended))
      Runs.pure

theorem runDue_runs (hi : Invokes invoke) (host : Host ν η μ) (moment : Instant) (bound : Nat) :
    ∀ w : World ν η μ, w.calls = [] → (runDue host invoke moment bound).Runs 0 w := by
  induction bound with
  | zero =>
    intro w _
    exact Goes.exhausted
  | succ bound ih =>
    intro w hc
    unfold runDue
    refine Runs.cache ?_
    split
    · exact .beat (ih _ hc)
    · split
      · refine .beat (Runs.bind (guardedTick_runs hi host hc) ?_)
        intro _ w1 hc1
        exact ih w1 (hc1.trans hc)
      · exact .pure
    · exact .pure

theorem catchUp_runs (hi : Invokes invoke) (host : Host ν η μ) (bound : Nat) :
    ∀ w : World ν η μ, w.calls = [] → (catchUp host invoke bound).Runs 0 w := by
  induction bound with
  | zero =>
    intro w _
    exact Goes.exhausted
  | succ bound ih =>
    intro w hc
    unfold catchUp
    refine Goes.now (Runs.bind (runDue_runs hi host w.now bound w hc) ?_)
    intro _ w1 hc1
    refine Goes.now ?_
    split
    · exact ih w1 (hc1.trans hc)
    · exact Runs.pure

theorem settle_runs (host : Host ν η μ) (bound : Nat) (w : World ν η μ) (hc : w.calls = []) :
    (settle host bound).Runs 0 w := by
  unfold settle
  refine Runs.cache ?_
  split
  · exact catchUp_runs (call_invokes host bound) host bound w hc
  · exact .pure

theorem turn_runs (host : Host ν η μ) (bound : Nat) (p : Program ν η μ α) (w : World ν η μ)
    (hc : w.calls = []) : (turn host bound p).Runs 0 w := by
  unfold turn
  refine (Runs.attempt (run_runs (perform_performs host bound) p w (Nat.zero_le _))).bind ?_
  intro result w1 hc1
  refine (settle_runs host bound w1 (hc1.trans hc)).bind ?_
  intro _ w2 _
  exact .pure

end ExpiringCache.Act
