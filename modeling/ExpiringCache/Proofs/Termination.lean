import ExpiringCache.Proofs.Fuel
import ExpiringCache.Proofs.Nesting

/-!
# Every operation comes to its end

If callbacks use the cache without storing anything, and entries have no policies but those that carry
deadlines, then no operation calls back for ever, whatever handlers decide and whoever panics; and the
attempts to evict that are in progress at once are never more than there were entries. An operation that
stores a value itself brings in one entry, in the place of another or else at its very end.
-/

namespace ExpiringCache

variable {ν η μ α β : Type}

/-- The program ends with no other answers. -/
def Program.Yields (P : α → Prop) : Program ν η μ α → Prop
  | .done a => P a
  | .panic _ => True
  | .clock next => ∀ t, (next t).Yields P
  | .wait _ next => next.Yields P
  | .load next => ∀ m, (next m).Yields P
  | .store _ next => next.Yields P
  | .perform _ next => ∀ r, (next r).Yields P

/-- The host gives no policies but those that carry deadlines. -/
def Host.Dated (host : Host ν η μ) : Prop :=
  ∀ handler key, (host.respond (.defaultPolicy handler key)).Yields
    fun given => ∀ policy, given = some policy → policy.isTimed = true

def Options.Dated (options : Options η) : Prop :=
  ∀ policy, options.policy = some policy → policy.isTimed = true

/-- The operation gives no policies but those that carry deadlines. -/
def Operation.Dated : Operation ν η → Prop
  | .insert _ _ options => options.Dated
  | .fetch _ _ options => options.Dated
  | .race _ _ options _ => options.Dated
  | _ => True

/-- How many entries may come in before the last caller's turn. -/
def Operation.earlier : Operation ν η → Nat
  | .race _ _ _ callers => callers - 1
  | _ => 0

/-- There are at most `k` entries more. -/
structure Grows (k : Nat) (w v : World ν η μ) : Prop where
  size : v.cache.entries.size ≤ w.cache.entries.size + k
  dated : w.cache.Dated → v.cache.Dated

namespace Grows

variable {j k : Nat} {w v u : World ν η μ}

theorem of_shrinks (h : Shrinks w v) : Grows k w v :=
  ⟨Nat.le_trans h.size_le (Nat.le_add_right _ k), h.dated⟩

theorem trans (h : Grows j w v) (h' : Grows k v u) : Grows (j + k) w u := by
  refine ⟨?_, h'.dated ∘ h.dated⟩
  have h1 := h.size
  have h2 := h'.size
  omega

end Grows

theorem World.fits_of_size {n : Nat} {w : World ν η μ} (hs : w.cache.entries.size ≤ n)
    (hd : w.cache.Dated) : w.Fits (2 * n + 1) n := by
  have hf := w.cache.free_le_size
  refine ⟨?_, Nat.le_trans hf hs, hd⟩
  unfold Cache.charge
  omega

namespace Act

/-- The work is not cut short, keeps within its room and brings in at most `k` entries. -/
def Manages (journal : List (Line ν η)) (b k : Nat) (x : Act ν η μ α) (w : World ν η μ) : Prop :=
  x.Ends w fun r v => r ≠ .error .exhausted ∧ Grows k w v ∧ Nests journal b w v

section

variable {journal : List (Line ν η)} {b j k : Nat} {x : Act ν η μ α} {f : α → Act ν η μ β}
  {w v : World ν η μ}

theorem Completes.manages (h : x.Completes journal b w) : x.Manages journal b k w :=
  Ends.mono h fun _ _ ⟨hr, hs, hn⟩ => ⟨hr, .of_shrinks hs, hn⟩

namespace Manages

theorem pure {a : α} : (Pure.pure a : Act ν η μ α).Manages journal b k w := Completes.pure.manages

theorem after (hg : Grows j w v) (hn : Nests journal b w v) (h : x.Manages journal b k v) :
    x.Ends v fun r u => r ≠ .error .exhausted ∧ Grows (j + k) w u ∧ Nests journal b w u :=
  Ends.mono h fun _ _ ⟨hr, hg', hn'⟩ => ⟨hr, hg.trans hg', hn.trans hn'⟩

theorem bind (h : x.Manages journal b j w)
    (hf : ∀ a v, Grows j w v → (f a).Manages journal b k v) :
    (x >>= f).Manages journal b (j + k) w := by
  apply Ends.bind h
  · rintro a v ⟨-, hg, hn⟩
    exact after hg hn (hf a v hg)
  · rintro e v ⟨hr, hg, hn⟩
    refine ⟨fun h => hr (congrArg Except.error (Except.error.inj h)), ?_, hn⟩
    exact ⟨by have := hg.size; omega, hg.dated⟩

end Manages

end

/-! ## Answers -/

theorem run_yields {P : α → Prop} {perform : Operation ν η → Act ν η μ (Answer ν)}
    (p : Program ν η μ α) (h : p.Yields P) :
    ∀ w, (p.run perform).Ends w fun r _ => ∀ a, r = .ok a → P a := by
  induction p with
  | done a =>
    intro w
    apply ends_pure.mpr
    intro b hb
    cases hb
    exact h
  | panic message => exact fun w => ends_throw.mpr fun b hb => nomatch hb
  | clock next ih => exact fun w => ih w.now (h w.now) w
  | wait span next ih => exact fun w => ih h { w with now := w.now.advance span }
  | load next ih => exact fun w => ih w.memory (h w.memory) w
  | store m next ih => exact fun w => ih h { w with memory := m }
  | perform op next ih =>
    intro w
    apply Ends.bind (P := fun _ _ => True) ((ends_self _ w).mono fun _ _ _ => trivial)
    · exact fun r v _ => ih r (h r) v
    · exact fun e v _ a ha => nomatch ha

theorem call_yields (host : Host ν η μ) (depth : Nat) (c : Callback ν η) {P : c.Answer → Prop}
    (h : (host.respond c).Yields P) (w : World ν η μ) :
    (call host depth c).Ends w fun r _ => ∀ a, r = .ok a → P a := by
  refine ends_note.mpr (Ends.bind (P := fun r _ => ∀ a, r = .ok (.ok a) → P a) ?_ ?_ ?_)
  · refine ends_attempt ((run_yields _ h _).mono ?_)
    intro r v hr a ha
    match r, ha with
    | .ok _, ha =>
      cases ha
      exact hr _ rfl
    | .error (.panic message), ha => cases ha
    | .error .exhausted, ha => cases ha
  · intro r v hr
    cases r with
    | ok answer =>
      refine ends_note.mpr (ends_pure.mpr ?_)
      intro a ha
      cases ha
      exact hr answer rfl
    | error message => exact fun a ha => nomatch ha
  · exact fun e v _ a ha => nomatch ha

/-! ## Operations that store -/

section

variable {host : Host ν η μ} {invoke : Invoke ν η μ} {journal : List (Line ν η)} {n : Nat}
  {w : World ν η μ}
  (hi : ∀ c (w : World ν η μ) b, w.Fits (2 * n + 1) b → (invoke c).Completes journal b w)
  (hleft : ∀ g, journal.countP (·.leaves g) ≤ 1)

/-- A new insertion takes the place of another, or makes one entry more. -/
theorem placed_grows (key : Key) (value : ν) {policy : Option (Policy η)}
    (hp : ∀ p, policy = some p → p.isTimed = true) (w : World ν η μ) :
    Grows 1 w ((w.placed key value policy).tended policy) ∧ ∀ old, w.cache.find? key = some old →
      Grows 0 w ((w.placed key value policy).tended policy) := by
  obtain ⟨timer, ht⟩ := (w.placed key value policy).tended_eq policy
  rw [ht]
  have hentries : ((w.placed key value policy).change (.setTimer timer)).cache.entries =
      w.cache.entries.put key (.insertedAt w.now value policy w.cache.nextGeneration) := by
    rw [World.cache_change, World.cache_placed]
    rfl
  have hdated : w.cache.Dated →
      ((w.placed key value policy).change (.setTimer timer)).cache.Dated := by
    intro hd j e he
    unfold Cache.find? at he
    rw [hentries, Table.get?_put] at he
    split at he
    · obtain rfl := Option.some.inj he
      intro p hq
      obtain ⟨q, hgiven, rfl⟩ := Option.map_eq_some_iff.mp hq
      rw [Policy.isTimed_startingAt]
      exact hp q hgiven
    · exact hd j e he
  cases hold : w.cache.find? key with
  | none =>
    refine ⟨⟨?_, hdated⟩, fun _ h => by cases h⟩
    rw [hentries]
    exact Nat.le_of_eq (Table.size_put_of_none hold _)
  | some old =>
    have hsize := Table.size_put_of_some hold
      (.insertedAt w.now value policy w.cache.nextGeneration)
    refine ⟨⟨?_, hdated⟩, fun _ _ => ⟨?_, hdated⟩⟩
    · rw [hentries, hsize]
      omega
    · rw [hentries, hsize]
      omega

theorem placed_nests (key : Key) (value : ν) (policy : Option (Policy η)) (w : World ν η μ) :
    Nests journal n w ((w.placed key value policy).tended policy) := by
  refine .here ((World.calls_tended ..).trans (World.calls_placed ..))
    ((World.journal_tended ..).trans (World.journal_placed ..)) ?_
  intro l hl
  refine ⟨World.calls_of_mem_placedLines l hl, ?_⟩
  unfold World.placedLines at hl
  cases hold : w.cache.find? key with
  | none =>
    rw [hold] at hl
    rw [List.mem_singleton.mp hl]
    exact Nat.zero_le n
  | some old =>
    rw [hold] at hl
    rcases List.mem_cons.mp hl with rfl | hl
    · exact Nat.zero_le n
    · rw [List.mem_singleton.mp hl]
      exact Nat.zero_le n

include hi hleft

theorem store_manages (hs : w.cache.entries.size ≤ n) (hd : w.cache.Dated) (key : Key) (value : ν)
    {policy : Option (Policy η)} (hp : ∀ p, policy = some p → p.isTimed = true) :
    (store invoke key value policy).Manages journal n 1 w := by
  have hn : Nests journal n w ((w.placed key value policy).tended policy) :=
    placed_nests key value policy w
  obtain ⟨hone, hnone⟩ := placed_grows key value hp w
  apply ends_store
  · exact fun _ => ⟨by simp, hone, hn⟩
  · intro old hold
    have hg := hnone old hold
    have hfits := World.fits_of_size (Nat.le_trans hg.size hs) (hg.dated hd)
    have hline : ∃ l ∈ ((w.placed key value policy).tended policy).journal,
        l.record = .left old.generation key old.value .replaced := by
      rw [World.journal_tended, World.journal_placed]
      refine ⟨(w.change (.insert w.now key value policy)).line
        (.left old.generation key old.value .replaced), List.mem_append_left _ ?_, rfl⟩
      unfold World.placedLines
      rw [hold]
      exact List.mem_cons_self ..
    have hexit : Exit.replaced ≠ .expired := by decide
    have hrelease := releaseIfSet_completes hi hleft hfits hexit hline
    exact Manages.after (j := 0) (k := 1) hg hn hrelease.manages

variable (hdefault : ∀ handler key (w : World ν η μ), (invoke (.defaultPolicy handler key)).Ends w
  fun r _ => ∀ given, r = .ok given → ∀ policy, given = some policy → policy.isTimed = true)

omit hleft in
include hdefault in
theorem policyFor_ends (hw : w.Fits (2 * n + 1) n) (key : Key) {given : Option (Policy η)}
    (hg : ∀ policy, given = some policy → policy.isTimed = true) :
    (policyFor invoke key given).Ends w fun r v => (r ≠ .error .exhausted ∧ Shrinks w v ∧
      Nests journal n w v) ∧ ∀ given, r = .ok given → ∀ p, given = some p → p.isTimed = true := by
  cases given with
  | some policy =>
    refine ends_pure.mpr ⟨⟨(fun h => nomatch h), .refl w, .refl w⟩, ?_⟩
    intro given h
    cases h
    exact hg
  | none =>
    apply ends_cache.mpr
    cases w.cache.settings.defaultPolicy with
    | none =>
      refine ends_pure.mpr ⟨⟨(fun h => nomatch h), .refl w, .refl w⟩, ?_⟩
      intro given h
      cases h
      exact fun p hp => nomatch hp
    | some handler => exact Ends.and (hi _ w n hw) (hdefault handler key w)

include hdefault

theorem insert_manages (hs : w.cache.entries.size ≤ n) (hd : w.cache.Dated) (key : Key) (value : ν)
    {options : Options η} (ho : options.Dated) :
    (insert host invoke key value options).Manages journal n 1 w := by
  apply Ends.bind (policyFor_ends hi hdefault (World.fits_of_size hs hd) key ho)
  · rintro policy v ⟨⟨-, hsv, hn⟩, hp⟩
    have hstore := store_manages hi hleft (Nat.le_trans hsv.size_le hs) (hsv.dated hd) key value
      (hp policy rfl)
    have hall := Manages.after (j := 0) (.of_shrinks hsv) hn hstore
    split
    · exact hall
    · have hasked : (occupied host key).Returns v fun _ u => u = v := by
        refine .cache ?_
        cases he : v.cache.find? key with
        | none => exact .pure rfl
        | some e =>
          dsimp only
          split
          · exact .pure rfl
          · refine .bind (expired_dated host (hsv.dated hd key e he) v) ?_
            rintro found u ⟨-, rfl⟩
            exact .pure rfl
      apply hasked.bind_ends
      rintro taken u rfl
      split
      · exact ends_pure.mpr ⟨(fun h => nomatch h), .of_shrinks hsv, hn⟩
      · exact hall
  · rintro e v ⟨⟨hr, hsv, hn⟩, -⟩
    exact ⟨fun h => hr (congrArg Except.error (Except.error.inj h)), .of_shrinks hsv, hn⟩

theorem make_manages (hs : w.cache.entries.size ≤ n) (hd : w.cache.Dated) (key : Key) (factory : η)
    {options : Options η} (ho : options.Dated) :
    (make host invoke key factory options).Manages journal n 1 w := by
  have hmade := hi (.factory factory key) w n (World.fits_of_size hs hd)
  apply Manages.bind (j := 0) (k := 1) hmade.manages
  intro made v hg
  cases made with
  | error message => exact .pure
  | ok value =>
    have hs' : v.cache.entries.size ≤ n := Nat.le_trans hg.size hs
    exact .bind (j := 1) (k := 0) (insert_manages hi hleft hdefault hs' (hg.dated hd) key value ho)
      fun _ _ _ => .pure

theorem fetch_manages (hs : w.cache.entries.size ≤ n) (hd : w.cache.Dated) (key : Key) (factory : η)
    {options : Options η} (ho : options.Dated) (retries : Nat) :
    (fetch host invoke key factory options (retries + 2)).Manages journal n 1 w := by
  have inside : ∀ v : World ν η μ, v.cache.entries.size ≤ n → v.cache.Dated →
      (fetchInside host invoke key factory options (retries + 2)).Manages journal n 1 v := by
    intro v hs hd
    have hmake : ∀ u, Grows 0 v u →
        (make host invoke key factory options).Manages journal n 1 u := fun u hg =>
      make_manages hi hleft hdefault (Nat.le_trans hg.size hs) (hg.dated hd) key factory ho
    unfold fetchInside
    split
    · exact hmake v ⟨Nat.le_refl _, id⟩
    · have hfits := World.fits_of_size hs hd
      have hlookup : (lookup host invoke .full key (retries + 2)).Completes journal n v :=
        lookup_completes hi ⟨Nat.lt_succ_of_lt hfits.charge, hfits.free, hfits.dated⟩ .full key retries
      apply Manages.bind (j := 0) (k := 1) hlookup.manages
      intro found u hg
      cases found with
      | some value => exact .pure
      | none => exact hmake u hg
  apply ends_cache.mpr
  cases w.cache.admission.acquire? key with
  | none => exact Manages.pure
  | some entered =>
    dsimp only
    split
    · refine ends_bracket (Ends.mono (inside _ hs hd) ?_)
      rintro r v ⟨hr, hg, hn⟩
      exact ⟨hr, ⟨hg.size, hg.dated⟩, hn.inside rfl rfl rfl rfl
        fun _ => Nat.le_of_eq (Nat.zero_add n)⟩
    · exact Manages.pure

theorem race_manages (hd : w.cache.Dated) (key : Key) (factory : η) {options : Options η}
    (ho : options.Dated) (retries callers : Nat) (hs : w.cache.entries.size + (callers - 1) ≤ n) :
    (race host invoke key factory options (retries + 2) callers).Manages journal n callers w := by
  induction callers generalizing w with
  | zero => exact .pure
  | succ callers ih =>
    have hsize : w.cache.entries.size ≤ n := by omega
    have hfirst : (fetch host invoke key factory options (retries + 2)).Manages journal n 1 w :=
      fetch_manages hi hleft hdefault hsize hd key factory ho retries
    -- there is room for one entry of each caller but the last, so for that of the first
    have hall : (race host invoke key factory options (retries + 2) (callers + 1)).Manages journal n
        (1 + callers) w := by
      refine hfirst.bind fun first v hg => ?_
      have hsize := hg.size
      refine .bind (j := callers) (k := 0) ?_ fun _ _ _ => .pure
      cases callers with
      | zero => exact .pure
      | succ callers => exact ih (hg.dated hd) (by omega)
    rw [Nat.add_comm 1 callers] at hall
    exact hall

theorem carryOut_ends (hd : w.cache.Dated) {op : Operation ν η} (hop : op.Dated)
    (hs : w.cache.entries.size + op.earlier ≤ n) (retries : Nat) :
    (carryOut host invoke (retries + 2) op).Ends w fun r v =>
      r ≠ .error .exhausted ∧ Nests journal n w v := by
  have nests : ∀ {k : Nat} {x : Act ν η μ (Answer ν)}, x.Manages journal n k w → x.Ends w fun r v =>
      r ≠ .error .exhausted ∧ Nests journal n w v :=
    fun h => Ends.mono h fun _ _ ⟨hr, _, hn⟩ => ⟨hr, hn⟩
  have aside : ∀ (t : Cache ν η → Cache ν η) (answer : Answer ν),
      (do change t; return answer : Act ν η μ (Answer ν)).Ends w fun r v =>
        r ≠ .error .exhausted ∧ Nests journal n w v :=
    fun t answer => ends_change.mpr (ends_pure.mpr ⟨(fun h => nomatch h), .silent rfl rfl⟩)
  have hsize : w.cache.entries.size ≤ n := Nat.le_trans (Nat.le_add_right ..) hs
  have hfits := World.fits_of_size hsize hd
  have frugal : ∀ op : Operation ν η, op.Frugal →
      (carryOut host invoke (retries + 2) op).Manages journal n 0 w := fun op h =>
    (carryOut_completes hi hleft ⟨Nat.lt_succ_of_lt hfits.charge, hfits.free, hfits.dated⟩ h
      retries).manages
  cases op with
  | insert key value options =>
    have hinsert : (insert host invoke key value options).Manages journal n 1 w :=
      insert_manages hi hleft hdefault hsize hd key value hop
    have hall := hinsert.bind (k := 0)
      (f := fun _ => (Pure.pure .done : Act ν η μ (Answer ν))) fun _ _ _ => .pure
    show (keyed host key _).Ends w _
    unfold keyed
    split
    · exact nests hall
    · exact ends_pure.mpr ⟨(fun h => nomatch h), .refl w⟩
  | fetch key factory options =>
    refine nests ((fetch_manages hi hleft hdefault hsize hd key factory hop retries).bind (k := 0) ?_)
    intro result v _
    cases result <;> exact .pure
  | race key factory options callers =>
    apply ends_cache.mpr
    split
    · exact nests ((race_manages hi hleft hdefault hd key factory hop retries callers hs).bind
        (k := 0) fun _ _ _ => .pure)
    · exact ends_pure.mpr ⟨(fun h => nomatch h), .refl w⟩
  | timerRunning => exact ends_cache.mpr (ends_pure.mpr ⟨(fun h => nomatch h), .refl w⟩)
  | onExpiring handler => exact aside _ .done
  | onExpired handler => exact aside _ .done
  | drop => exact aside .giveUp (.flag true)
  | get key => exact nests (frugal (.get key) trivial)
  | contains key => exact nests (frugal (.contains key) trivial)
  | remove key => exact nests (frugal (.remove key) trivial)
  | clear => exact nests (frugal .clear trivial)
  | sweep => exact nests (frugal .sweep trivial)
  | length => exact nests (frugal .length trivial)
  | keys => exact nests (frugal .keys trivial)
  | statistics => exact nests (frugal .statistics trivial)

end

theorem perform_ends_within {host : Host ν η μ} (hhost : host.Only Operation.Frugal)
    (hpolicies : host.Dated) {journal : List (Line ν η)}
    (hleft : ∀ g, journal.countP (·.leaves g) ≤ 1) {w : World ν η μ} (hd : w.cache.Dated)
    {op : Operation ν η} (hop : op.Dated) {n depth : Nat}
    (hs : w.cache.entries.size + op.earlier ≤ n) (hdepth : 2 * n + 4 ≤ depth) :
    (perform host depth op).Ends w fun r v => r ≠ .error .exhausted ∧ Nests journal n w v := by
  obtain ⟨k, rfl⟩ := Nat.exists_eq_add_of_le hdepth
  have heq : 2 * n + 4 + k = (2 * n + 1 + k) + 2 + 1 := by omega
  rw [heq]
  apply ends_cache.mpr
  split
  · have hi : ∀ c (w : World ν η μ) b, w.Fits (2 * n + 1) b →
        (call host ((2 * n + 1 + k) + 2) c).Completes journal b w := by
      intro c v b hv
      exact call_completes hleft hhost (by omega) c v b hv
    have hdefault := fun handler key => call_yields host ((2 * n + 1 + k) + 2)
      (.defaultPolicy handler key) (hpolicies handler key)
    apply operate_ends_of_closing
    have hd' : (w.push (.operation op)).cache.Dated := hd
    have hs' : (w.push (.operation op)).cache.entries.size + op.earlier ≤ n := hs
    apply (carryOut_ends hi hleft hdefault hd' hop hs' (2 * n + 1 + k)).mono
    rintro r v ⟨hr, hn⟩
    have hn' : Nests journal n w v.pop :=
      hn.inside rfl rfl rfl rfl fun _ => Nat.le_of_eq (Nat.zero_add n)
    refine ⟨hr, Ends.mono (closeUnused_completes (b := n) hi hleft fun _ => Nat.succ_pos _) ?_⟩
    rintro r u ⟨hr, -, hnu⟩
    exact ⟨hr, (hn'.trans hnu).trans (.note (Nat.zero_le n) u)⟩
  · exact ends_pure.mpr ⟨(fun h => nomatch h), .refl w⟩

end Act

/-- Callbacks that store nothing cannot go on for ever. While there are no entries but such as never
expire or carry deadlines, those that an operation stores included, every operation has an outcome: it
is the same for all bounds that are large enough, and none of them is reached. And whenever a line is
written meanwhile, the attempts to evict that have begun since then and are still in progress are no more
than there were entries at the beginning; several callers of a fetch begin one after another. -/
theorem frugal_callbacks_come_to_an_end {host : Host ν η μ} (hhost : host.Only Operation.Frugal)
    (hpolicies : host.Dated) {w : World ν η μ} (hw : Recorded w) (hdated : w.cache.Dated)
    {op : Operation ν η} (hop : op.Dated) :
    ∃ r v seg, r ≠ .error .exhausted ∧ v.journal = seg ++ w.journal ∧
      (∀ bound, 2 * (w.cache.entries.size + op.earlier) + 4 ≤ bound →
        (Act.perform host bound op).Ends w fun r' v' => r' = r ∧ v' = v) ∧
      ∀ l ∈ seg, l.Within v.journal (w.cache.entries.size + op.earlier) w.calls := by
  obtain ⟨_, hrun⟩ := (Act.perform_performs host
    (2 * (w.cache.entries.size + op.earlier) + 4) op w 0 (Nat.zero_le _)).ending
  have hleft := (hw.moves hrun.moves).lives.leftOnce
  have hends := Act.perform_ends_within hhost hpolicies hleft hdated hop (Nat.le_refl _)
    (Nat.le_refl _)
  obtain ⟨r, ⟨hr, hn⟩, hout⟩ := hends.outcome
  obtain ⟨seg, hj, hseg⟩ := hn.lines
  refine ⟨r, _, seg, hr, hj, ?_, hseg (List.suffix_refl _)⟩
  -- the bound is not reached, so a larger one changes nothing
  intro bound hbound
  unfold Act.Ends
  rw [Act.perform_eq hbound (hends.mono fun _ _ h => h.1)]
  exact hout

/-! ## A host that reads and sweeps -/

/-- Its handlers read the key they are asked about, sweep, clear and panic. -/
def Host.sweeping : Host Nat String Unit where
  accepts _ := true
  consult _ _ memory := (.ok true, memory)
  respond
    | .expiring _ key _ _ => .perform (.get key) fun _ => .perform .sweep fun _ => .done .proceed
    | .expired _ key _ _ => .perform (.contains key) fun _ => .perform .sweep fun _ => .done .dispose
    | .release .. => .perform .sweep fun _ => .perform .clear fun _ => .panic "full"
    | .factory .. => .perform .keys fun _ => .done (.ok 3)
    | .defaultPolicy .. => .done none

theorem sweeping_is_frugal : Host.sweeping.Only Operation.Frugal := by
  intro c
  cases c with
  | expiring => exact ⟨trivial, fun _ => ⟨trivial, fun _ => trivial⟩⟩
  | expired => exact ⟨trivial, fun _ => ⟨trivial, fun _ => trivial⟩⟩
  | release => exact ⟨trivial, fun _ => ⟨trivial, fun _ => trivial⟩⟩
  | factory => exact ⟨trivial, fun _ => trivial⟩
  | defaultPolicy => trivial

/-- Three entries that are all due. -/
def Program.insertThreeDue : Program Nat String Unit Unit :=
  .perform (.onExpiring "ask") fun _ =>
  .perform (.onExpired "tell") fun _ =>
  .perform (.insert "a" 1 ⟨some (.duration (.ofMillis 5) none), false⟩) fun _ =>
  .perform (.insert "b" 2 ⟨some (.duration (.ofMillis 5) none), false⟩) fun _ =>
  .perform (.insert "c" 3 ⟨some (.sliding (.ofMillis 5) none), false⟩) fun _ =>
  .wait (.ofMillis 5) (.done ())

def World.threeDue : World Nat String Unit :=
  (Act.turn .sweeping 6 .insertThreeDue).after (.fresh .keeping .task .zero ())

theorem threeDue_between : Between .sweeping .keeping .task World.threeDue :=
  .turn 6 .insertThreeDue (.ok ()) (.fresh .zero ()) rfl

theorem threeDue_dated : World.threeDue.cache.Dated := Cache.dated_of_rows (by decide +kernel)

theorem sweep_of_threeDue_ends : ∃ r v seg, r ≠ .error .exhausted ∧
    v.journal = seg ++ World.threeDue.journal ∧
    (∀ bound, 10 ≤ bound → (Act.perform .sweeping bound .sweep).Ends World.threeDue fun r' v' =>
      r' = r ∧ v' = v) ∧ ∀ l ∈ seg, l.Within v.journal 3 World.threeDue.calls := by
  have hsize : World.threeDue.cache.entries.size + (.sweep : Operation Nat String).earlier = 3 := by
    decide +kernel
  have hop : (.sweep : Operation Nat String).Dated := trivial
  have h := frugal_callbacks_come_to_an_end sweeping_is_frugal
    (fun _ _ _ hp => nomatch hp) (Reachable.between threeDue_between).recorded threeDue_dated hop
  rw [hsize] at h
  exact h

/-- All three attempts are in progress at once. -/
example : ((Act.perform .sweeping 10 .sweep).after World.threeDue).journal.any (fun l =>
    l.calls.countP (·.evicts []) == 3) = true := by decide +kernel

end ExpiringCache
