import ExpiringCache.Proofs.Excerpts
import ExpiringCache.Proofs.Inheritance
import ExpiringCache.Proofs.Likeness

/-!
# What a fetch in progress changes

Whether a fetch of some key is in progress further out, other work cannot tell, unless it fetches that key
as well: it goes the same way with it and without it, and all that it leaves but slots is the same, line by
line. This is shown for work that begins in any world; work that fetches the key betrays itself by the line
with which the fetch ends.
-/

namespace ExpiringCache

variable {ν η μ α β : Type}

def Operation.fetches (key : Key) : Operation ν η → Bool
  | fetch k _ _ => k = key
  | race k _ _ _ => k = key
  | _ => false

namespace Line

/-- A fetch of `key` ended. -/
def fetches (key : Key) (l : Line ν η) : Bool :=
  match l.record with
  | .finished op => op.fetches key
  | _ => false

/-- All but the work in progress. -/
def told (l : Line ν η) : Record ν η × Instant × Cache ν η :=
  (l.record, l.now, { l.cache with admission := .empty })

end Line

namespace World

/-- How many fetches of `key` have ended. -/
def fetches (key : Key) (w : World ν η μ) : Nat := w.journal.countP (·.fetches key)

/-- The two agree on everything but who is admitted where. -/
structure AgreesButForAdmission (w w' : World ν η μ) : Prop where
  now : w'.now = w.now
  memory : w'.memory = w.memory
  cache : ∃ a, w'.cache = { w.cache with admission := a }
  journal : w'.journal.map (·.told) = w.journal.map (·.told)

end World

/-- The same work, and a fetch of `key` somewhere on the way. -/
inductive WithFetchOf (key : Key) : List (Activity ν η) → List (Activity ν η) → Prop
  | here (slot : Nat) (calls : List (Activity ν η)) :
      WithFetchOf key calls (.fetching key slot :: calls)
  | inside {a a' : Activity ν η} {calls calls' : List (Activity ν η)}
      (ha : a'.unnumbered = a.unnumbered) (h : WithFetchOf key calls calls') :
      WithFetchOf key (a :: calls) (a' :: calls')

namespace WithFetchOf

variable {key k : Key} {calls calls' : List (Activity ν η)}

theorem busy (h : WithFetchOf key calls calls') :
    calls'.any (·.isOperation) = calls.any (·.isOperation) := by
  induction h with
  | here slot calls => rfl
  | @inside a a' _ _ ha _ ih =>
    rw [List.any_cons, List.any_cons, ih, ← isOperation_unnumbered a', ha, isOperation_unnumbered]

theorem fetching_iff (h : WithFetchOf key calls calls') (hk : k ≠ key) :
    (∃ slot, .fetching k slot ∈ calls') ↔ ∃ slot, .fetching k slot ∈ calls := by
  induction h with
  | here slot calls => simp [hk]
  | @inside a a' calls calls' ha _ ih =>
    have hhead : (∃ slot, .fetching k slot = a') ↔ ∃ slot, .fetching k slot = a := by
      cases a <;> cases a' <;> cases ha <;> simp
    simp only [List.mem_cons, exists_or, hhead, ih]

end WithFetchOf

/-- `w'` is `w`, but a fetch of `key` is in progress further out. -/
structure World.Beside (key : Key) (w w' : World ν η μ) : Prop where
  agrees : w.AgreesButForAdmission w'
  calls : WithFetchOf key w.calls w'.calls
  slots : w.Slotted
  slots' : w'.Slotted

namespace World.AgreesButForAdmission

variable {w w' : World ν η μ}

theorem change {f f' : Cache ν η → Cache ν η} (h : w.AgreesButForAdmission w')
    (hf : ∃ a, f' w'.cache = { f w.cache with admission := a }) :
    (w.change f).AgreesButForAdmission (w'.change f') := { h with cache := hf }

theorem note (h : w.AgreesButForAdmission w') (r : Record ν η) :
    (w.note r).AgreesButForAdmission (w'.note r) := by
  refine { h with journal := ?_ }
  obtain ⟨a, ha⟩ := h.cache
  have hline : Line.told ⟨r, w'.now, w'.calls, w'.cache⟩ = Line.told ⟨r, w.now, w.calls, w.cache⟩ := by
    unfold Line.told
    rw [h.now, ha]
  show List.map _ (_ :: w'.journal) = List.map _ (_ :: w.journal)
  rw [List.map_cons, List.map_cons, hline, h.journal]

theorem push (h : w.AgreesButForAdmission w') (a a' : Activity ν η) :
    (w.push a).AgreesButForAdmission (w'.push a') := { h with }

theorem pop (h : w.AgreesButForAdmission w') : w.pop.AgreesButForAdmission w'.pop := { h with }

end World.AgreesButForAdmission

namespace World.Beside

variable {key k : Key} {w w' v v' : World ν η μ}

theorem resembles (h : w.Beside key w') : w.Resembles w' :=
  ⟨h.agrees.now, h.agrees.memory, h.agrees.cache, h.calls.busy⟩

/-- Another key is admitted in both or in neither. -/
theorem acquire?_isSome (h : w.Beside key w') (hk : k ≠ key) :
    (w'.cache.admission.acquire? k).isSome = (w.cache.admission.acquire? k).isSome := by
  rw [Bool.eq_iff_iff, h.slots'.acquire?_isSome_iff, h.slots.acquire?_isSome_iff,
    h.calls.fetching_iff hk]

theorem change {f f' : Cache ν η → Cache ν η} (h : w.Beside key w')
    (hf : ∃ a, f' w'.cache = { f w.cache with admission := a })
    (ha : (f w.cache).admission = w.cache.admission)
    (ha' : (f' w'.cache).admission = w'.cache.admission) :
    (w.change f).Beside key (w'.change f') :=
  ⟨h.agrees.change hf, h.calls, h.slots.change ha, h.slots'.change ha'⟩

theorem note (h : w.Beside key w') (r : Record ν η) : (w.note r).Beside key (w'.note r) :=
  ⟨h.agrees.note r, h.calls, h.slots, h.slots'⟩

theorem push (h : w.Beside key w') {a : Activity ν η} (ha : a.admitted? = none) :
    (w.push a).Beside key (w'.push a) :=
  ⟨h.agrees.push a a, .inside rfl h.calls, h.slots.push ha, h.slots'.push ha⟩

theorem pop (h : w.Beside key w') (hv : v.Beside key v') {a : Activity ν η} (ha : a.admitted? = none)
    (hc : v.calls = a :: w.calls) (hc' : v'.calls = a :: w'.calls) : v.pop.Beside key v'.pop := by
  refine ⟨hv.agrees.pop, ?_, hv.slots.pop hc ha, hv.slots'.pop hc' ha⟩
  rw [World.calls_pop, World.calls_pop, hc, hc']
  exact h.calls

theorem acquire (h : w.Beside key w') {acquired acquired' : Admission} {slot slot' : Nat}
    (ha : w.cache.admission.acquire? k = some (acquired, slot))
    (ha' : w'.cache.admission.acquire? k = some (acquired', slot')) :
    ((w.change ({ · with admission := acquired })).push (.fetching k slot)).Beside key
      ((w'.change ({ · with admission := acquired' })).push (.fetching k slot')) := by
  obtain ⟨a, hcache⟩ := h.agrees.cache
  exact ⟨(h.agrees.change ⟨acquired', by rw [hcache]⟩).push _ _, .inside rfl h.calls,
    h.slots.acquire ha, h.slots'.acquire ha'⟩

end World.Beside

/-! ## Work that cannot tell -/

theorem World.fetches_le_of_journal (key : Key) {w v : World ν η μ}
    (h : ∃ seg, v.journal = seg ++ w.journal) : w.fetches key ≤ v.fetches key := by
  obtain ⟨seg, hj⟩ := h
  unfold World.fetches
  rw [hj, List.countP_append]
  exact Nat.le_add_left ..

namespace Act

/-- In `w'` the work ends as it does beside it, with `r` and in a world beside `v`. -/
def FallsIn (key : Key) (x : Act ν η μ α) (w : World ν η μ) (r : Except Halt α) (v w' : World ν η μ) :
    Prop :=
  x.Ends w' fun r' v' => r' = r ∧ v.Beside key v' ∧ v.calls = w.calls ∧ v'.calls = w'.calls

/-- The work goes the same way beside a fetch of `key`, unless it is cut short or fetches `key`. -/
def Unaware (key : Key) (x : Act ν η μ α) : Prop :=
  ∀ w, x.Ends w fun r v => w.fetches key ≤ v.fetches key ∧ (r ≠ .error .exhausted →
    v.fetches key = w.fetches key → ∀ w', w.Beside key w' → x.FallsIn key w r v w')

variable {key : Key} {x : Act ν η μ α} {w w' v : World ν η μ} {r : Except Halt α}

theorem FallsIn.bind {f : α → Act ν η μ β} {a : α} {s : Except Halt β} {u : World ν η μ}
    (h : x.FallsIn key w (.ok a) v w') (hf : ∀ v', v.Beside key v' → (f a).FallsIn key v s u v') :
    (x >>= f).FallsIn key w s u w' := by
  apply Ends.bind h
  · rintro b v' ⟨hb, hv, hc, hc'⟩
    cases hb
    apply (hf v' hv).mono
    rintro s' u' ⟨hs, hu, hk, hk'⟩
    exact ⟨hs, hu, hk.trans hc, hk'.trans hc'⟩
  · rintro halt v' ⟨he, -⟩
    cases he

theorem FallsIn.halt {f : α → Act ν η μ β} {halt : Halt} (h : x.FallsIn key w (.error halt) v w') :
    (x >>= f).FallsIn key w (.error halt) v w' := by
  apply Ends.bind h
  · rintro b v' ⟨hb, -⟩
    cases hb
  · rintro halt v' ⟨he, hv⟩
    cases he
    exact ⟨rfl, hv⟩

theorem FallsIn.bracket (enter leave : World ν η μ → World ν η μ)
    {enter' leave' : World ν η μ → World ν η μ} {a a' : Activity ν η}
    (hc : (enter w).calls = a :: w.calls) (hc' : (enter' w').calls = a' :: w'.calls)
    (hl : ∀ v, (leave v).calls = v.calls.tail) (hl' : ∀ v, (leave' v).calls = v.calls.tail)
    (hleave : ∀ v', v.calls = a :: w.calls → v'.calls = a' :: w'.calls → v.Beside key v' →
      (leave v).Beside key (leave' v'))
    (h : x.FallsIn key (enter w) r v (enter' w')) :
    (bracket enter' leave' x).FallsIn key w r (leave v) w' := by
  apply ends_bracket
  apply Ends.mono h
  rintro r' v' ⟨hr, hv, hk, hk'⟩
  rw [hc] at hk
  rw [hc'] at hk'
  refine ⟨hr, hleave v' hk hk' hv, ?_, ?_⟩
  · rw [hl, hk]
    rfl
  · rw [hl', hk']
    rfl

theorem FallsIn.holding {k : Key} {acquired acquired' : Admission} {slot slot' : Nat}
    (hw : w.Beside key w') (h : x.FallsIn key
      ((w.change ({ · with admission := acquired })).push (.fetching k slot)) r v
      ((w'.change ({ · with admission := acquired' })).push (.fetching k slot'))) :
    (holding k acquired' slot' x).FallsIn key w r
      (v.change fun c => { c with admission := c.admission.release k slot }).pop w' := by
  refine FallsIn.bracket
    (fun w => (w.change ({ · with admission := acquired })).push (.fetching k slot))
    (fun v => (v.change fun c => { c with admission := c.admission.release k slot }).pop)
    rfl rfl (fun _ => rfl) (fun _ => rfl) (fun v' hc hc' hv => ?_) h
  obtain ⟨a, ha⟩ := hv.agrees.cache
  refine ⟨(hv.agrees.change ⟨_, by rw [ha]⟩).pop, ?_, hv.slots.dismiss hc, hv.slots'.dismiss hc'⟩
  rw [World.calls_pop, World.calls_pop, World.calls_change, World.calls_change, hc, hc']
  exact hw.calls

theorem unaware_bind {f : α → Act ν η μ β} (hx : x.Unaware key) (hf : ∀ a, (f a).Unaware key) :
    (x >>= f).Unaware key := by
  intro w
  apply (hx w).bind
  · rintro a v ⟨hle, hgo⟩
    apply (hf a v).mono
    rintro s u ⟨hle', hgo'⟩
    refine ⟨Nat.le_trans hle hle', fun hs hu w' hw => ?_⟩
    have hstart := hgo (fun h => nomatch h) (by omega) w' hw
    exact hstart.bind (hgo' hs (by omega))
  · rintro halt v ⟨hle, hgo⟩
    refine ⟨hle, fun hs hv w' hw => ?_⟩
    exact (hgo (fun h => hs (by cases h; rfl)) hv w' hw).halt

theorem unaware_bracket {enter leave : World ν η μ → World ν η μ} {a : Activity ν η}
    (hc : ∀ w, (enter w).calls = a :: w.calls) (hl : ∀ v, (leave v).calls = v.calls.tail)
    (he : ∀ w, (enter w).fetches key = w.fetches key) (he' : ∀ v, (leave v).fetches key = v.fetches key)
    (henter : ∀ w w' : World ν η μ, w.Beside key w' → (enter w).Beside key (enter w'))
    (hleave : ∀ w w' v v' : World ν η μ, w.Beside key w' → v.Beside key v' → v.calls = a :: w.calls →
      v'.calls = a :: w'.calls → (leave v).Beside key (leave v'))
    (hx : x.Unaware key) : (bracket enter leave x).Unaware key := by
  intro w
  apply ends_bracket
  apply (hx (enter w)).mono
  rintro r v ⟨hle, hgo⟩
  rw [he w] at hle hgo
  rw [he' v]
  refine ⟨hle, fun hr heq w' hb => ?_⟩
  exact FallsIn.bracket enter leave (hc w) (hc w') hl hl (fun v' hk hk' hv' => hleave w w' v v' hb hv' hk hk')
    (hgo hr heq _ (henter w w' hb))

theorem unaware_note (r : Record ν η) : (note r : Act ν η μ Unit).Unaware key := by
  refine fun w => ⟨World.fetches_le_of_journal key ⟨[w.line r], rfl⟩, fun _ _ w' hw => ?_⟩
  exact ⟨rfl, hw.note r, rfl, rfl⟩

/-- Changes that do not touch the admission. -/
theorem unaware_modify {t : World ν η μ → World ν η μ} (hj : ∀ w, (t w).journal = w.journal)
    (hc : ∀ w, (t w).calls = w.calls) (ht : ∀ w w', w.Beside key w' → (t w).Beside key (t w')) :
    (modify t : Act ν η μ Unit).Unaware key := by
  refine fun w => ⟨World.fetches_le_of_journal key ⟨[], hj w⟩, fun _ _ w' hw => ?_⟩
  exact ⟨rfl, ht w w' hw, hc w, hc w'⟩

theorem Unaware.inherited (key : Key) (host : Host ν η μ) : Inherited host (Unaware key) where
  pure a w := ⟨Nat.le_refl _, fun _ _ _ hw => ⟨rfl, hw, rfl, rfl⟩⟩
  throw halt w := ⟨Nat.le_refl _, fun _ _ _ hw => ⟨rfl, hw, rfl, rfl⟩⟩
  bind := unaware_bind
  get {_ g} hg hx w := by
    apply ends_get.mpr
    apply (hx w w).mono
    rintro r v ⟨hle, hgo⟩
    refine ⟨hle, fun hr hv w' hw => ?_⟩
    refine ends_get.mpr ?_
    rw [hg w w' hw.resembles]
    exact hgo hr hv w' hw
  consult predicate t w := by
    have asked : ∀ (m : μ) (answer : Option Bool) (w' : World ν η μ), w.Beside key w' →
        (({ w with memory := m } : World ν η μ).note (.consulted predicate answer)).Beside key
          (({ w' with memory := m } : World ν η μ).note (.consulted predicate answer)) := by
      intro m answer w' hw
      have hm : World.Beside key { w with memory := m } { w' with memory := m } :=
        { hw with agrees := { hw.agrees with memory := rfl } }
      exact hm.note _
    have more : ∀ (m : μ) (answer : Option Bool), w.fetches key ≤
        (({ w with memory := m } : World ν η μ).note (.consulted predicate answer)).fetches key :=
      fun m answer => World.fetches_le_of_journal key ⟨[_], rfl⟩
    unfold FallsIn Ends consult
    cases hq : host.consult predicate t w.memory with
    | mk answer m =>
      cases answer with
      | ok b =>
        refine ⟨more m (some b), fun _ _ w' hw => ?_⟩
        rw [hw.agrees.memory, hq]
        exact ⟨rfl, asked m (some b) w' hw, rfl, rfl⟩
      | error message =>
        refine ⟨more m none, fun _ _ w' hw => ?_⟩
        rw [hw.agrees.memory, hq]
        exact ⟨rfl, asked m none w' hw, rfl, rfl⟩
  change {t} ht := by
    have hadm : ∀ c : Cache ν η, (t c).admission = c.admission := by
      intro c
      have hsame := congrArg Cache.admission (ht c c.admission)
      exact hsame
    refine unaware_modify (fun _ => rfl) (fun _ => rfl) fun w w' hw => ?_
    obtain ⟨a, ha⟩ := hw.agrees.cache
    exact hw.change ⟨a, by rw [ha, ht]⟩ (hadm _) (hadm _)
  wait span := by
    refine unaware_modify (fun _ => rfl) (fun _ => rfl) fun w w' hw => ?_
    exact { hw with agrees := { hw.agrees with now := congrArg (·.advance span) hw.agrees.now } }
  remember m := by
    refine unaware_modify (fun _ => rfl) (fun _ => rfl) fun w w' hw => ?_
    exact { hw with agrees := { hw.agrees with memory := rfl } }
  note r _ := unaware_note r
  attempt hx w := by
    apply ends_attempt
    apply (hx w).mono
    rintro r v ⟨hle, hgo⟩
    refine ⟨hle, fun hr hv w' hw => ends_attempt ?_⟩
    have hhalt : r ≠ .error .exhausted := by
      rintro rfl
      exact hr rfl
    apply Ends.mono (hgo hhalt hv w' hw)
    rintro r' v' ⟨rfl, hrest⟩
    exact ⟨rfl, hrest⟩
  during a ha hx := by
    have hadm : a.admitted? = none := by
      cases a <;> first | rfl | exact absurd rfl (ha _ _)
    exact unaware_bracket (fun _ => rfl) (fun _ => rfl) (fun _ => rfl) (fun _ => rfl)
      (fun w w' hw => hw.push hadm) (fun w w' v v' hw hv hc hc' => hw.pop hv hadm hc hc') hx
  deciding k g hx := by
    have marked : ∀ (b : Bool) (w w' : World ν η μ), w.Beside key w' →
        (w.change (.mark b k g)).Beside key (w'.change (.mark b k g)) := by
      intro b w w' hw
      obtain ⟨a, ha⟩ := hw.agrees.cache
      exact hw.change ⟨a, by rw [ha]; rfl⟩ rfl rfl
    exact unaware_bracket (fun _ => rfl) (fun _ => rfl) (fun _ => rfl) (fun _ => rfl)
      (fun w w' hw => (marked true w w' hw).push rfl)
      (fun w w' v v' hw hv hc hc' => hw.pop (marked false v v' hv) rfl hc hc') hx

/-! ## Reads and fetches -/

variable {host : Host ν η μ} {invoke : Invoke ν η μ}

theorem readEnds_unaware (host : Host ν η μ) (access : Access) (key k : Key) (found : Option ν) :
    (readEnds access k found : Act ν η μ _).Unaware key := by
  have h := Unaware.inherited key host
  unfold readEnds
  split
  · exact h.bind (h.change fun _ _ => rfl) fun _ => unaware_bind (unaware_note _) fun _ => h.pure found
  · exact h.pure found

section

variable (hi : ∀ c, (invoke c).Unaware key)

include hi

theorem lookup_unaware (host : Host ν η μ) (access : Access) (k : Key) (retries : Nat) :
    (lookup host invoke access k retries).Unaware key :=
  (Unaware.inherited key host).lookup (fun c _ => hi c) access k (readEnds_unaware host access key k)
    retries

theorem fetchInside_unaware (k : Key) (factory : η) (options : Options η) (retries : Nat) :
    (fetchInside host invoke k factory options retries).Unaware key := by
  have h := Unaware.inherited key host
  have made : (make host invoke k factory options).Unaware key := by
    refine unaware_bind (hi (.factory factory k)) fun made => ?_
    cases made with
    | error message => exact h.pure _
    | ok value => exact h.bind (h.woven.insert (fun c _ => hi c) h.ensureTimer k value _) fun _ => h.pure _
  unfold fetchInside
  split
  · exact made
  · refine unaware_bind (lookup_unaware hi host .full k retries) fun found => ?_
    cases found with
    | some value => exact h.pure _
    | none => exact made

/-- Another key is fetched beside it just the same, if through another slot. -/
theorem fetch_unaware {k : Key} (hk : k ≠ key) (factory : η) (options : Options η) (retries : Nat) :
    (fetch host invoke k factory options retries).Unaware key := by
  have h := Unaware.inherited key host
  intro w
  unfold FallsIn fetch
  apply ends_cache.mpr
  cases ha : w.cache.admission.acquire? k with
  | none =>
    refine ⟨Nat.le_refl _, fun _ _ w' hw => ends_cache.mpr ?_⟩
    have hsome := hw.acquire?_isSome hk
    rw [ha] at hsome
    rw [Option.isSome_eq_false_iff.mp hsome |> Option.isNone_iff_eq_none.mp]
    exact ⟨rfl, hw, rfl, rfl⟩
  | some entered =>
    obtain ⟨acquired, slot⟩ := entered
    dsimp only
    cases hok : host.accepts k with
    | false =>
      refine ⟨Nat.le_refl _, fun _ _ w' hw => ends_cache.mpr ?_⟩
      have hsome := hw.acquire?_isSome hk
      rw [ha] at hsome
      obtain ⟨entered', ha'⟩ := Option.isSome_iff_exists.mp hsome
      rw [ha']
      exact ⟨rfl, hw, rfl, rfl⟩
    | true =>
      apply ends_bracket
      apply (fetchInside_unaware hi k factory options retries _).mono
      rintro r v ⟨hle, hgo⟩
      refine ⟨hle, fun hr hv w' hw => ends_cache.mpr ?_⟩
      have hsome := hw.acquire?_isSome hk
      rw [ha] at hsome
      obtain ⟨⟨acquired', slot'⟩, ha'⟩ := Option.isSome_iff_exists.mp hsome
      rw [ha']
      exact (hgo hr hv _ (hw.acquire ha ha')).holding hw

theorem race_unaware {k : Key} (hk : k ≠ key) (factory : η) (options : Options η)
    (retries callers : Nat) : (race host invoke k factory options retries callers).Unaware key := by
  have h := Unaware.inherited key host
  induction callers with
  | zero => exact h.pure _
  | succ callers ih =>
    exact unaware_bind (fetch_unaware hi hk factory options retries) fun _ =>
      unaware_bind ih fun _ => h.pure _

theorem carryOut_unaware (host : Host ν η μ) (retries : Nat) {op : Operation ν η}
    (hop : op.fetches key = false) : (carryOut host invoke retries op).Unaware key := by
  have h := Unaware.inherited key host
  cases op with
  | get k =>
    exact h.keyed (unaware_bind (lookup_unaware hi host .full k retries) fun _ => h.pure _)
  | fetch k factory options =>
    have hk : k ≠ key := by simpa [Operation.fetches] using hop
    refine unaware_bind (fetch_unaware hi hk factory options retries) fun fetched => ?_
    cases fetched <;> exact h.pure _
  | race k factory options callers =>
    have hk : k ≠ key := by simpa [Operation.fetches] using hop
    have raced : (race host invoke k factory options retries callers >>= fun fetched =>
        Pure.pure (Answer.raced fetched)).Unaware key :=
      unaware_bind (race_unaware hi hk factory options retries callers) fun _ => h.pure _
    intro w
    unfold FallsIn
    apply ends_cache.mpr
    have hadmits : ∀ w', w.Beside key w' →
        w'.cache.admission.admits k = w.cache.admission.admits k := fun w' hw => hw.acquire?_isSome hk
    cases ha : w.cache.admission.admits k with
    | true =>
      apply (raced w).mono
      rintro r v ⟨hle, hgo⟩
      refine ⟨hle, fun hr hv w' hw => ends_cache.mpr ?_⟩
      rw [hadmits w' hw, ha]
      exact hgo hr hv w' hw
    | false =>
      refine ⟨Nat.le_refl _, fun _ _ w' hw => ends_cache.mpr ?_⟩
      rw [hadmits w' hw, ha]
      exact ⟨rfl, hw, rfl, rfl⟩
  | _ => exact h.carryOut (fun c _ => hi c) retries rfl

end

/-! ## Operations and programs -/

/-- An operation that fetches `key` writes that it does. -/
theorem operate_fetches (hi : ∀ c, (invoke c).Stretches) (host : Host ν η μ) (retries : Nat)
    {op : Operation ν η} (hop : op.fetches key = true) (w : World ν η μ) :
    (operate host invoke retries op).Ends w fun r v => w.fetches key ≤ v.fetches key ∧
      (r ≠ .error .exhausted → w.fetches key < v.fetches key) := by
  apply operate_closes
  apply (carryOut_follows Stretch.paths (fun c _ => hi c) host retries (Stretch.permits host op) _).mono
  intro s u hs
  have hu : w.fetches key ≤ u.pop.fetches key := by
    obtain ⟨seg, hj, -⟩ := hs.segment
    exact World.fetches_le_of_journal key ⟨seg, hj⟩
  unfold Closes
  split
  · rename_i hcut
    obtain ⟨rfl, -⟩ := caught_of_cutShort hcut
    exact ⟨hu, fun h => absurd rfl h⟩
  · apply (closeUnused_skirts hi u.pop).mono
    intro t v hv
    have hle : w.fetches key ≤ v.fetches key := by
      obtain ⟨seg, hj, -⟩ := hv.lines
      exact Nat.le_trans hu (World.fetches_le_of_journal key ⟨seg, hj⟩)
    split
    · rename_i hcut
      obtain ⟨rfl, -⟩ := caught_of_cutShort hcut
      exact ⟨hle, fun h => absurd rfl h⟩
    · have hmore : (v.note (.finished op)).fetches key = v.fetches key + 1 :=
        List.countP_cons_of_pos hop
      beta_reduce
      rw [hmore]
      exact ⟨Nat.le_succ_of_le hle, fun _ => Nat.lt_succ_of_le hle⟩

theorem perform_unaware (host : Host ν η μ) (key : Key) (depth : Nat) :
    ∀ op, (perform host depth op).Unaware key := by
  have h := Unaware.inherited key host
  induction depth with
  | zero => exact fun op => h.throw _
  | succ depth ih =>
    have hi : ∀ c, (callVia host (perform host depth) c).Unaware key :=
      h.callVia ih fun c => unaware_note _
    refine fun op => h.woven.cache (fun _ _ => rfl) fun c => ?_
    split
    · cases hop : op.fetches key with
      | false =>
        exact h.operate (fun c _ => hi c)
          (h.during _ (fun _ _ ha => nomatch ha) (carryOut_unaware hi host depth hop))
      | true =>
        intro w
        apply (operate_fetches (call_stretches host depth) host depth hop w).mono
        rintro r v ⟨hle, hlt⟩
        refine ⟨hle, fun hr hv => ?_⟩
        have hless := hlt hr
        omega
    · exact h.pure _

theorem call_unaware (host : Host ν η μ) (key : Key) (depth : Nat) (c : Callback ν η) :
    (call host depth c).Unaware key :=
  (Unaware.inherited key host).callVia (perform_unaware host key depth) (fun _ => unaware_note _) c

end Act

end ExpiringCache
