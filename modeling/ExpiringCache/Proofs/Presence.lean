import ExpiringCache.Proofs.Deciding
import ExpiringCache.Proofs.Eviction

/-!
# Two notions of presence

A fetch and an insertion that is not to overwrite both ask whether something is there already. The
fetch reads: an expired entry goes through its round, and a veto lets it be served. The insertion asks
nobody: an expired entry is out of its way. With a host that only decides the two agree but for an
expired entry whose eviction a handler would veto, which a fetch serves and an insertion replaces.
-/

namespace ExpiringCache

variable {ν η μ : Type}

/-- Performed now, a fetch returns the value that is stored and its factory is not called. -/
def Serves (host : Host ν η μ) (bound : Nat) (key : Key) (factory : η) (policy : Option (Policy η))
    (w : World ν η μ) : Prop :=
  ∃ e w' seg, w.cache.find? key = some e ∧
    Act.perform host bound (.fetch key factory ⟨policy, false⟩) w = .ok (.fetched e.value) w' ∧
    w'.journal = seg ++ w.journal ∧ ∀ l ∈ seg, l.record ≠ .entered (.factory factory key)

/-- Performed now, an insertion that is not to overwrite leaves the stored entry in its place. -/
def Keeps (host : Host ν η μ) (bound : Nat) (key : Key) (value : ν) (policy : Option (Policy η))
    (w : World ν η μ) : Prop :=
  ∃ e e' w', w.cache.find? key = some e ∧
    Act.perform host bound (.insert key value ⟨policy, false⟩) w = .ok .done w' ∧
    w'.cache.find? key = some e' ∧ e'.generation = e.generation ∧ e'.value = e.value

/-- The cache can be asked for the key. -/
def Usable (host : Host ν η μ) (key : Key) (w : World ν η μ) : Prop :=
  w.cache.handle = .held ∧ host.accepts key = true

/-- The stored entry is expired, but its eviction would be vetoed. -/
def Spared (host : Host ν η μ) (holds : η → Instant → Bool) (key : Key) (w : World ν η μ) : Prop :=
  Usable host key w ∧ ∃ e, w.cache.find? key = some e ∧ e.past holds w.now = true ∧
    host.Vetoes w key e

namespace Act

variable {host : Host ν η μ} {holds : η → Instant → Bool} {settings : Settings η}
  {hosting : Hosting} {perform : Operation ν η → Act ν η μ (Answer ν)} {invoke : Invoke ν η μ}
  {w : World ν η μ} {key : Key} {e : Entry ν η} {value : ν} {level : Nat}

/-! ## Fetching -/

/-- Once a fetch is let in it serves what a read finds. -/
theorem fetchInside_serves (hd : host.Deciding holds) (hf : w.cache.find? key = some e)
    (hp : e.pending = false) (hv : e.past holds w.now = false ∨ host.Vetoes w key e)
    (factory : η) (policy : Option (Policy η)) (retries : Nat) :
    (fetchInside host (callVia host perform) key factory ⟨policy, false⟩ (retries + 1)).Returns w
      fun r w' => r = .value e.value ∧ Idly w w' := by
  unfold fetchInside
  refine .bind (lookup_served hd hf hp hv retries) ?_
  rintro found w1 ⟨rfl, hi⟩
  exact .pure ⟨rfl, hi⟩

theorem fetch_serves (hd : host.Deciding holds) (hadm : w.cache.admission.Held [])
    (haccepts : host.accepts key = true) (hf : w.cache.find? key = some e)
    (hp : e.pending = false) (hv : e.past holds w.now = false ∨ host.Vetoes w key e)
    (factory : η) (policy : Option (Policy η)) (retries : Nat) :
    (fetch host (callVia host perform) key factory ⟨policy, false⟩ (retries + 1)).Returns w
      fun r w' => r = .value e.value ∧ Idly w w' := by
  obtain ⟨⟨acquired, slot⟩, hacq⟩ := Option.isSome_iff_exists.mp (hadm.acquire?_isSome key)
  unfold fetch
  refine .cache ?_
  rw [hacq]
  simp only [haccepts, if_true]
  unfold holding
  refine .bracket ((fetchInside_serves (w := (w.change ({ · with admission := acquired })).push
    (.fetching key slot)) hd hf hp hv factory policy retries).mono ?_)
  rintro r w1 ⟨rfl, hi⟩
  have h1 : Idly w (w.change ({ · with admission := acquired })) := .same rfl rfl rfl rfl
  exact ⟨rfl, (h1.trans hi.inside).trans (.same rfl rfl rfl rfl)⟩

/-- A fetch that finds nothing calls the factory. -/
theorem fetchInside_makes (hi : Invokes invoke) (hl : level ≤ w.calls.length + 1)
    (hev : evicting key w.calls = true) {retries : Nat}
    (hlook : (lookup host invoke .full key retries).Ends w fun r _ =>
      ∀ found, r = .ok found → found = none) (factory : η) (policy : Option (Policy η)) :
    (fetchInside host invoke key factory ⟨policy, false⟩ retries).Goes level .clear w
      (fun _ => .clear) fun _ _ seg => ∃ l ∈ seg, l.record = .entered (.factory factory key) := by
  unfold fetchInside
  refine Goes.bind ((lookup_goes hi host .full retries w hl hev).and hlook) ?_
  rintro found w1 seg hr ⟨-, hnone⟩
  rw [hnone found rfl]
  refine (make_goes hi ?_ host key factory _).imp ?_
  · rw [hr.calls]
    exact hl
  · rintro _ _ new _ ⟨l, hl, hentered⟩
    exact ⟨l, List.mem_append_left _ hl, hentered⟩

/-- If the entry is expired and nobody vetoes its eviction, then the factory is called. -/
def MakesUnlessServed (host : Host ν η μ) (holds : η → Instant → Bool) (w : World ν η μ) (key : Key)
    (e : Entry ν η) (factory : η) (seg : List (Line ν η)) : Prop :=
  e.past holds w.now = true → ¬ host.Vetoes w key e →
    ∃ l ∈ seg, l.record = .entered (.factory factory key)

theorem fetchInside_goes (hd : host.Deciding holds) (hf : w.cache.find? key = some e)
    (hp : e.pending = false) (hev : evicting key w.calls = true) (factory : η)
    (policy : Option (Policy η)) (depth retries : Nat) :
    (fetchInside host (call host depth) key factory ⟨policy, false⟩ (retries + 1)).Goes 0 .clear w
      (fun _ => .clear) fun _ _ seg => MakesUnlessServed host holds w key e factory seg := by
  have hi := call_invokes host depth
  by_cases hx : e.past holds w.now = true ∧ ¬ host.Vetoes w key e
  · exact (fetchInside_makes hi (Nat.zero_le _) hev (lookup_refused hd hf hp hx.1 hx.2 retries)
      factory policy).imp fun _ _ _ _ h _ _ => h
  · exact Goes.imp (fetchInside_runs hi (Nat.zero_le _) host hev factory _ _)
      fun _ _ _ _ _ h1 h2 => (hx ⟨h1, h2⟩).elim

theorem carryOut_fetch_goes (hd : host.Deciding holds) {factory : η} {policy : Option (Policy η)}
    {outer : List (Activity ν η)}
    (hcalls : w.calls = .operation (.fetch key factory ⟨policy, false⟩) :: outer)
    (hf : w.cache.find? key = some e) (hp : e.pending = false) (depth retries : Nat) :
    (carryOut host (call host depth) (retries + 1) (.fetch key factory ⟨policy, false⟩)).Goes 0 .clear w
      (fun _ => .clear) fun answer _ seg => ∀ value, answer = .fetched value →
        host.accepts key = true ∧ MakesUnlessServed host holds w key e factory seg := by
  have hwork : ∀ acquired slot,
      (fetchInside host (call host depth) key factory ⟨policy, false⟩ (retries + 1)).Goes 0 .clear
        ((w.change ({ · with admission := acquired })).push (.fetching key slot)) (fun _ => .clear)
        fun _ _ seg => MakesUnlessServed host holds w key e factory seg := by
    intro acquired slot
    refine fetchInside_goes (w := (w.change ({ · with admission := acquired })).push
      (.fetching key slot)) hd hf hp ?_ factory policy depth retries
    simp [hcalls, evicting, Operation.evicts]
  refine Goes.bind (fetch_goes host hwork) ?_
  intro fetched w1 seg _ hq
  cases fetched with
  | value v =>
    refine .pure rfl ?_
    intro value hv
    cases hv
    exact hq v rfl
  | refused cause =>
    refine .pure rfl ?_
    intro value hv
    cases hv

theorem perform_fetch_goes (hd : host.Deciding holds) (hf : w.cache.find? key = some e)
    (hp : e.pending = false) (factory : η) (policy : Option (Policy η)) (bound : Nat) :
    (Act.perform host (bound + 2) (.fetch key factory ⟨policy, false⟩)).Goes 0 .clear w
      (fun _ => .clear) fun answer _ seg => ∀ value, answer = .fetched value →
        Usable host key w ∧ MakesUnlessServed host holds w key e factory seg := by
  refine (perform_goes host (bound + 1) _
    (carryOut_fetch_goes (w := w.push _) hd rfl hf hp (bound + 1) bound)).imp ?_
  rintro answer w' seg _ (⟨hheld, _, old, new, rfl, hq⟩ | rfl) value hv
  · obtain ⟨haccepts, hmade⟩ := hq value hv
    refine ⟨⟨hheld, haccepts⟩, ?_⟩
    intro hx hveto
    obtain ⟨l, hl, hentered⟩ := hmade hx hveto
    exact ⟨l, List.mem_append_right _ hl, hentered⟩
  · cases hv

theorem perform_serves (hd : host.Deciding holds) (hu : Usable host key w)
    (hadm : w.cache.admission.Held []) (hf : w.cache.find? key = some e) (hp : e.pending = false)
    (hv : e.past holds w.now = false ∨ host.Vetoes w key e) (factory : η)
    (policy : Option (Policy η)) (bound : Nat) :
    (Act.perform host (bound + 2) (.fetch key factory ⟨policy, false⟩)).Returns w fun answer w' =>
      answer = .fetched e.value ∧ Idly w w' := by
  obtain ⟨hheld, haccepts⟩ := hu
  have hwork : (carryOut host (call host (bound + 1)) (bound + 1)
      (.fetch key factory ⟨policy, false⟩)).Returns
      (w.push (.operation (.fetch key factory ⟨policy, false⟩))) fun answer w1 =>
        (answer = .fetched e.value ∧
          Idly (w.push (.operation (.fetch key factory ⟨policy, false⟩))) w1) ∧
            w1.cache.handle = .held := by
    refine .bind (fetch_serves (w := w.push _) hd hadm haccepts hf hp hv factory policy bound) ?_
    rintro fetched w1 ⟨rfl, hi⟩
    exact .pure ⟨⟨rfl, hi⟩, hi.handle.trans hheld⟩
  refine (perform_finishes hheld hwork).mono ?_
  rintro answer w' ⟨w1, ⟨rfl, hi⟩, rfl⟩
  exact ⟨rfl, hi.inside.trans (.note rfl)⟩

/-! ## Inserting -/

theorem insert_keeps (hd : host.Deciding holds) (hf : w.cache.find? key = some e)
    (hp : e.pending = false) (hx : e.past holds w.now = false) (value : ν)
    (policy : Option (Policy η)) :
    (insert host (callVia host perform) key value ⟨policy, false⟩).Returns w fun _ w' =>
      w'.cache = w.cache := by
  unfold insert
  refine .bind (policyFor_decides hd policy w) ?_
  rintro _ w1 ⟨hc1, hi1⟩
  rw [← hc1] at hf
  refine .bind (occupied_decides hd hf hp) ?_
  rintro taken w2 ⟨rfl, hc2, -⟩
  rw [hi1.now, hx]
  exact .pure (hc2.trans hc1)

theorem insert_replaces (hd : host.Deciding holds) (hf : w.cache.find? key = some e)
    (hp : e.pending = false) (hx : e.past holds w.now = true) (value : ν)
    (policy : Option (Policy η)) (depth : Nat) :
    (insert host (call host depth) key value ⟨policy, false⟩).Goes 0 .clear w (fun _ => .clear)
      fun _ _ seg => ∃ l ∈ seg, l.record = .left e.generation key e.value .replaced := by
  have hi := call_invokes host depth
  unfold insert
  -- neither the choice of a policy nor the check changes the cache, so `e` is what is replaced
  refine Goes.bind (Goes.and (policyFor_runs hi (Nat.zero_le _) policy)
    (policyFor_decides hd policy w).ends) ?_
  rintro given w1 seg1 hr1 ⟨-, _, -, hc1, hi1⟩
  rw [← hc1] at hf
  refine Goes.bind (Goes.and (occupied_runs host w1 0 key) (occupied_decides hd hf hp).ends) ?_
  rintro taken w2 seg2 hr2 ⟨-, _, htaken, rfl, hc2, -⟩
  cases htaken
  rw [← hc2] at hf
  rw [hi1.now, hx]
  refine (store_goes hi (Nat.zero_le _) key value given).imp ?_
  intro _ w3 seg3 _ hleft
  obtain ⟨l, hl, hrec⟩ := hleft e hf
  exact ⟨l, List.mem_append_left _ (List.mem_append_left _ hl), hrec⟩

theorem perform_keeps (hd : host.Deciding holds) (hu : Usable host key w)
    (hf : w.cache.find? key = some e) (hp : e.pending = false) (hx : e.past holds w.now = false)
    (value : ν) (policy : Option (Policy η)) (bound : Nat) :
    (Act.perform host (bound + 2) (.insert key value ⟨policy, false⟩)).Returns w fun answer w' =>
      answer = .done ∧ w'.cache = w.cache := by
  obtain ⟨hheld, haccepts⟩ := hu
  have hwork : (carryOut host (call host (bound + 1)) (bound + 1)
      (.insert key value ⟨policy, false⟩)).Returns
      (w.push (.operation (.insert key value ⟨policy, false⟩))) fun answer w1 =>
        (answer = .done ∧ w1.cache = w.cache) ∧ w1.cache.handle = .held := by
    show (keyed host key _).Returns _ _
    unfold keyed
    rw [if_pos haccepts]
    refine .bind (insert_keeps (w := w.push _) hd hf hp hx value policy) ?_
    intro _ w1 hc
    refine .pure ⟨⟨rfl, hc⟩, ?_⟩
    rw [hc]
    exact hheld
  refine (perform_finishes hheld hwork).mono ?_
  rintro answer w' ⟨w1, ⟨rfl, hc⟩, rfl⟩
  exact ⟨rfl, hc⟩

theorem carryOut_insert_goes (hd : host.Deciding holds) (hf : w.cache.find? key = some e)
    (hp : e.pending = false) (value : ν) (policy : Option (Policy η)) (depth retries : Nat) :
    (carryOut host (call host depth) retries (.insert key value ⟨policy, false⟩)).Goes 0 .clear w
      (fun _ => .clear) fun answer _ seg => answer = .done → host.accepts key = true ∧
        (e.past holds w.now = true → ∃ l ∈ seg, l.leaves e.generation = true) := by
  have hinsert : (insert host (call host depth) key value ⟨policy, false⟩).Goes 0 .clear w
      (fun _ => .clear) fun _ _ seg => e.past holds w.now = true →
        ∃ l ∈ seg, l.leaves e.generation = true := by
    by_cases hx : e.past holds w.now = true
    · refine (insert_replaces hd hf hp hx value policy depth).imp ?_
      rintro _ _ seg _ ⟨l, hl, hrec⟩ _
      exact ⟨l, hl, Line.leaves_iff.mpr ⟨_, _, _, hrec⟩⟩
    · exact Goes.imp (insert_runs (call_invokes host depth) (Nat.zero_le _) host key value _)
        fun _ _ _ _ _ h => (hx h).elim
  refine (keyed_goes (Q := fun _ _ seg => e.past holds w.now = true →
    ∃ l ∈ seg, l.leaves e.generation = true) fun _ => Goes.bind hinsert
    fun _ _ _ _ hq => .pure rfl hq).imp ?_
  rintro answer w' seg _ (h | rfl) hdone
  · exact h
  · cases hdone

theorem perform_insert_goes (hd : host.Deciding holds) (hf : w.cache.find? key = some e)
    (hp : e.pending = false) (value : ν) (policy : Option (Policy η)) (bound : Nat) :
    (Act.perform host (bound + 2) (.insert key value ⟨policy, false⟩)).Goes 0 .clear w
      (fun _ => .clear) fun answer _ seg => answer = .done → Usable host key w ∧
        (e.past holds w.now = true → ∃ l ∈ seg, l.leaves e.generation = true) := by
  refine (perform_goes host (bound + 1) _ (carryOut_insert_goes (w := w.push _) hd hf hp value policy
    (bound + 1) (bound + 1))).imp ?_
  rintro answer w' seg _ (⟨hheld, _, old, new, rfl, hq⟩ | rfl) hdone
  · obtain ⟨haccepts, hleft⟩ := hq hdone
    refine ⟨⟨hheld, haccepts⟩, ?_⟩
    intro hx
    obtain ⟨l, hl, hg⟩ := hleft hx
    exact ⟨l, List.mem_append_right _ hl, hg⟩
  · cases hdone

end Act

section

variable {host : Host ν η μ} {holds : η → Instant → Bool} {settings : Settings η}
  {hosting : Hosting} {w : World ν η μ}

/-- A fetch serves what is stored if it is live or its eviction would be vetoed. -/
theorem serves_iff (hd : host.Deciding holds) (h : Between host settings hosting w) (key : Key)
    (factory : η) (policy : Option (Policy η)) (bound : Nat) :
    Serves host (bound + 2) key factory policy w ↔ Usable host key w ∧
      ∃ e, w.cache.find? key = some e ∧ (e.past holds w.now = false ∨ host.Vetoes w key e) := by
  have hs := (Reachable.between h).recorded.sound
  rw [(Reachable.between h).calls] at hs
  have hidle := hs.coherent.idle.1
  constructor
  · rintro ⟨e, w', seg, hf, hok, hj, hno⟩
    obtain ⟨new, hrun, hq⟩ :=
      (Act.perform_fetch_goes hd hf (hidle key e hf) factory policy bound).of_ok hok
    obtain ⟨hu, hmade⟩ := hq e.value rfl
    refine ⟨hu, e, hf, ?_⟩
    -- an expired entry that nobody vetoes is evicted, and its factory leaves a line
    by_cases hveto : host.Vetoes w key e
    · exact Or.inr hveto
    · refine Or.inl (Bool.eq_false_iff.mpr fun hx => ?_)
      obtain ⟨l, hl, hentered⟩ := hmade hx hveto
      have hseg : new = seg := List.append_cancel_right (hrun.journal.symm.trans hj)
      exact hno l (hseg ▸ hl) hentered
  · rintro ⟨hu, e, hf, hv⟩
    obtain ⟨answer, w', hok, rfl, hi⟩ :=
      Act.perform_serves hd hu hs.admission hf (hidle key e hf) hv factory policy bound
    obtain ⟨seg, hj, hno⟩ := hi.journal
    refine ⟨e, w', seg, hf, hok, hj, ?_⟩
    intro l hl hentered
    have hquiet := hno l hl
    unfold Line.entersFactory at hquiet
    rw [hentered] at hquiet
    cases hquiet

theorem keeps_iff (hd : host.Deciding holds) (h : Between host settings hosting w) (key : Key)
    (value : ν) (policy : Option (Policy η)) (bound : Nat) :
    Keeps host (bound + 2) key value policy w ↔ Usable host key w ∧
      ∃ e, w.cache.find? key = some e ∧ e.past holds w.now = false := by
  have hrec := (Reachable.between h).recorded
  have hs := hrec.sound
  rw [(Reachable.between h).calls] at hs
  have hidle := hs.coherent.idle.1
  constructor
  · rintro ⟨e, e', w', hf, hok, hf', hg, -⟩
    obtain ⟨seg, hrun, hq⟩ :=
      (Act.perform_insert_goes hd hf (hidle key e hf) value policy bound).of_ok hok
    obtain ⟨hu, hleft⟩ := hq rfl
    refine ⟨hu, e, hf, Bool.eq_false_iff.mpr fun hx => ?_⟩
    -- a replaced insertion has left, and one that has left is not stored
    obtain ⟨l, hl, hleaves⟩ := hleft hx
    have hstays := (hrec.moves hrun.moves).lives.staying key e' hf' l (by
      rw [hrun.journal]
      exact List.mem_append_left _ hl)
    rw [hg, hleaves] at hstays
    cases hstays
  · rintro ⟨hu, e, hf, hx⟩
    obtain ⟨answer, w', hok, rfl, hc⟩ :=
      Act.perform_keeps hd hu hf (hidle key e hf) hx value policy bound
    refine ⟨e, e, w', hf, hok, ?_, rfl, rfl⟩
    rw [hc]
    exact hf

/-- Between turns, with a host that only decides, a fetch serves what is stored if and only if an
insertion that is not to overwrite leaves it in its place, unless what is stored is expired and a
handler would veto its eviction. -/
theorem fetch_and_insertion_agree_unless_spared (hd : host.Deciding holds)
    (h : Between host settings hosting w) (key : Key) (value : ν) (factory : η)
    (policy policy' : Option (Policy η)) (bound : Nat) :
    (Serves host (bound + 2) key factory policy w ↔ Keeps host (bound + 2) key value policy' w) ↔
      ¬ Spared host holds key w := by
  rw [serves_iff hd h, keeps_iff hd h]
  constructor
  · rintro hagree ⟨hu, e, hf, hx, hveto⟩
    obtain ⟨-, e', hf', hlive⟩ := hagree.mp ⟨hu, e, hf, Or.inr hveto⟩
    rw [hf] at hf'
    cases hf'
    rw [hx] at hlive
    cases hlive
  · intro hspared
    constructor
    · rintro ⟨hu, e, hf, hlive | hveto⟩
      · exact ⟨hu, e, hf, hlive⟩
      · exact ⟨hu, e, hf, Bool.eq_false_iff.mpr fun hx => hspared ⟨hu, e, hf, hx, hveto⟩⟩
    · rintro ⟨hu, e, hf, hlive⟩
      exact ⟨hu, e, hf, Or.inl hlive⟩

end

/-! ## An entry that is pinned -/

/-- A handler that vetoes every eviction. -/
def Host.pinning : Host Nat String Unit where
  accepts _ := true
  consult _ _ memory := (.ok true, memory)
  respond
    | .expiring .. => .done .cancel
    | .expired _ _ _ running => .done running
    | .release .. => .done ()
    | .factory .. => .done (.ok 3)
    | .defaultPolicy .. => .done none

theorem Host.pinning_deciding : Host.pinning.Deciding fun _ _ => true :=
  ⟨fun _ _ _ => rfl, fun _ _ _ _ _ _ => rfl, fun _ _ _ _ => rfl⟩

/-- Two entries come in, of which the first is expired at once and the other never expires. -/
def Program.pin : Program Nat String Unit Unit :=
  .perform (.onExpiring "pin") fun _ =>
  .perform (.insert "old" 1 ⟨some (.duration (.ofMillis 0) none), false⟩) fun _ =>
  .perform (.insert "new" 2 ⟨none, false⟩) fun _ => .done ()

def World.pinned : World Nat String Unit :=
  (Act.turn .pinning 6 .pin).after (.fresh .keeping .task .zero ())

theorem World.pinned_between : Between .pinning .keeping .task World.pinned :=
  .turn 6 .pin (.ok ()) (.fresh .zero ()) rfl

theorem World.pinned_spared : Spared .pinning (fun _ _ => true) "old" World.pinned :=
  ⟨⟨rfl, rfl⟩, _, rfl, by decide +kernel, _, rfl, by decide +kernel⟩

theorem pinned_agrees_but_for_the_spared :
    (Serves .pinning 6 "new" "make" none World.pinned ↔ Keeps .pinning 6 "new" 3 none World.pinned) ∧
      ¬ (Serves .pinning 6 "old" "make" none World.pinned ↔
        Keeps .pinning 6 "old" 3 none World.pinned) := by
  constructor
  · refine (fetch_and_insertion_agree_unless_spared Host.pinning_deciding World.pinned_between
      "new" 3 "make" none none 4).mpr ?_
    rintro ⟨-, e, hf, hx, -⟩
    have hlive : (World.pinned.cache.find? "new").any (·.past (fun _ _ => true) World.pinned.now) =
        false := by decide +kernel
    rw [hf, Option.any_some, hx] at hlive
    cases hlive
  · intro hagree
    exact (fetch_and_insertion_agree_unless_spared Host.pinning_deciding World.pinned_between
      "old" 3 "make" none none 4).mp hagree World.pinned_spared

/-- What a fetch serves need not be in the way of an insertion. -/
theorem served_entry_may_be_replaced :
    Between .pinning .keeping .task World.pinned ∧
      Serves .pinning 6 "old" "make" none World.pinned ∧
      ¬ Keeps .pinning 6 "old" 3 none World.pinned := by
  obtain ⟨hu, e, hf, hx, hveto⟩ := World.pinned_spared
  refine ⟨World.pinned_between, ?_, ?_⟩
  · exact (serves_iff Host.pinning_deciding World.pinned_between "old" "make" none 4).mpr
      ⟨hu, e, hf, Or.inr hveto⟩
  · intro hkeeps
    obtain ⟨-, e', hf', hlive⟩ :=
      (keeps_iff Host.pinning_deciding World.pinned_between "old" 3 none 4).mp hkeeps
    rw [hf] at hf'
    cases hf'
    rw [hx] at hlive
    cases hlive

end ExpiringCache
