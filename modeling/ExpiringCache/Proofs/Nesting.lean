import ExpiringCache.Proofs.Lifetimes
import ExpiringCache.Proofs.Refinement
import ExpiringCache.Proofs.Shrinking

/-!
# Nesting

Attempts to evict are nested when handlers use the cache. Where callbacks store nothing, each attempt
in progress has an insertion to itself, one that was free when the work began; so there are never more of
them than there were free insertions. And a callback is called only where something is marked or gone
that was not before, so callbacks are nested a bounded number of times, and reads start over once at most.

A journal is fixed from the beginning, in which no insertion leaves twice; it tells which values are
handed over after an eviction. What is said of lines holds if the work's journal is a part of it.
-/

namespace ExpiringCache

variable {ν η μ α β : Type}

/-- Work of an attempt to evict; `journal` tells who left by expiry. -/
def Activity.evicts (journal : List (Line ν η)) : Activity ν η → Bool
  | .deciding _ _ => true
  | .telling _ _ => true
  | .releasing _ g => journal.any (·.expires g)
  | _ => false

/-- A line that an attempt to evict writes between its callbacks. -/
def Record.isOfAttempt : Record ν η → Bool
  | .decided .. => true
  | .left _ _ _ .expired => true
  | .disposed .. => true
  | _ => false

/-- When the line was written, at most `b` attempts to evict were in progress inside `outer`. -/
def Line.Within (journal : List (Line ν η)) (b : Nat) (outer : List (Activity ν η))
    (l : Line ν η) : Prop :=
  ∃ inner, l.calls = inner ++ outer ∧
    inner.countP (·.evicts journal) + l.record.isOfAttempt.toNat ≤ b

structure Nests (journal : List (Line ν η)) (b : Nat) (w v : World ν η μ) : Prop where
  calls : v.calls = w.calls
  lines : ∃ seg, v.journal = seg ++ w.journal ∧
    (v.journal <:+ journal → ∀ l ∈ seg, l.Within journal b w.calls)

namespace Nests

variable {journal : List (Line ν η)} {b b' : Nat} {w v u : World ν η μ}

theorem suffix (h : Nests journal b w v) (hv : v.journal <:+ journal) : w.journal <:+ journal := by
  obtain ⟨seg, hj, -⟩ := h.lines
  rw [hj] at hv
  exact (List.suffix_append ..).trans hv

theorem silent (hc : v.calls = w.calls) (hj : v.journal = w.journal) : Nests journal b w v :=
  ⟨hc, [], hj, fun _ _ hl => nomatch hl⟩

theorem refl (w : World ν η μ) : Nests journal b w w := silent rfl rfl

theorem trans (h : Nests journal b w v) (k : Nests journal b v u) : Nests journal b w u := by
  obtain ⟨old, hold, ho⟩ := h.lines
  obtain ⟨new, hnew, hn⟩ := k.lines
  refine ⟨k.calls.trans h.calls, new ++ old, ?_, ?_⟩
  · rw [hnew, hold, List.append_assoc]
  · intro hu l hl
    rcases List.mem_append.mp hl with hl | hl
    · have := hn hu l hl
      rwa [h.calls] at this
    · exact ho (k.suffix hu) l hl

theorem here {seg : List (Line ν η)} (hc : v.calls = w.calls) (hj : v.journal = seg ++ w.journal)
    (hseg : ∀ l ∈ seg, l.calls = w.calls ∧ l.record.isOfAttempt.toNat ≤ b) : Nests journal b w v := by
  refine ⟨hc, seg, hj, ?_⟩
  intro _ l hl
  obtain ⟨hcalls, hle⟩ := hseg l hl
  refine ⟨[], hcalls, ?_⟩
  rw [List.countP_nil, Nat.zero_add]
  exact hle

theorem emptied (w : World ν η μ) : Nests journal b w w.emptied := by
  rw [World.emptied_eq]
  refine here rfl rfl fun l hl => ?_
  obtain ⟨r, -, rfl⟩ := List.mem_map.mp (List.mem_reverse.mp hl)
  exact ⟨rfl, Nat.zero_le b⟩

theorem note {r : Record ν η} (hr : r.isOfAttempt.toNat ≤ b) (w : World ν η μ) :
    Nests journal b w (w.note r) := by
  have hseg : (w.note r).journal = [w.line r] ++ w.journal := rfl
  refine here (v := w.note r) rfl hseg ?_
  intro l hl
  rw [List.mem_singleton.mp hl]
  exact ⟨rfl, hr⟩

/-- Work around which other work is in progress. -/
theorem inside {a : Activity ν η} {w' v' : World ν η μ} (h : Nests journal b w' v)
    (hc : w'.calls = a :: w.calls) (hj : w'.journal = w.journal) (hc' : v'.calls = v.calls.tail)
    (hj' : v'.journal = v.journal)
    (hb : w.journal <:+ journal → (a.evicts journal).toNat + b ≤ b') : Nests journal b' w v' := by
  obtain ⟨seg, hseg, hl⟩ := h.lines
  rw [hj] at hseg
  rw [hc] at hl
  refine ⟨by rw [hc', h.calls, hc, List.tail_cons], seg, hj'.trans hseg, ?_⟩
  intro hv l hmem
  rw [hj'] at hv
  have hw : w.journal <:+ journal := by
    rw [hseg] at hv
    exact (List.suffix_append ..).trans hv
  obtain ⟨inner, hcalls, hle⟩ := hl hv l hmem
  have hroom := hb hw
  refine ⟨inner ++ [a], by rw [hcalls, List.append_assoc]; rfl, ?_⟩
  have hone : [a].countP (·.evicts journal) = (a.evicts journal).toNat := by
    cases ha : a.evicts journal <;> simp [ha]
  rw [List.countP_append, hone]
  omega

end Nests

/-- The room there is for what the work may need: `m` bounds how deeply callbacks are nested, and `b` the
attempts to evict. -/
structure World.Fits (m b : Nat) (w : World ν η μ) : Prop where
  charge : w.cache.charge < m
  free : w.cache.free ≤ b
  dated : w.cache.Dated

namespace World.Fits

variable {m b : Nat} {w v : World ν η μ}

theorem shrinks (h : w.Fits m b) (hs : Shrinks w v) : v.Fits m b where
  charge := by
    have h1 := hs.size_le
    have h2 := hs.free_le
    have h3 := h.charge
    unfold Cache.charge at h3 ⊢
    omega
  free := Nat.le_trans hs.free_le h.free
  dated := hs.dated h.dated

theorem pos_of_rows (h : w.Fits (m + 1) b) (hrows : w.cache.entries.rows ≠ []) : 0 < m := by
  have hpos := List.length_pos_iff.mpr hrows
  have hcharge := h.charge
  unfold Cache.charge Table.size at hcharge
  omega

end World.Fits

namespace Act

/-- Only a cut cannot be caught. -/
theorem caught_of_ne_exhausted {r : Except Halt α} (h : r ≠ .error .exhausted) :
    ∃ result, caught r = .ok result := by
  match r, h with
  | .ok a, _ => exact ⟨.ok a, rfl⟩
  | .error (.panic message), _ => exact ⟨.error message, rfl⟩
  | .error .exhausted, h => exact absurd rfl h

/-- The work is not cut short, stores nothing, and keeps within its room. -/
def Completes (journal : List (Line ν η)) (b : Nat) (x : Act ν η μ α) (w : World ν η μ) : Prop :=
  x.Ends w fun r v => r ≠ .error .exhausted ∧ Shrinks w v ∧ Nests journal b w v

namespace Completes

variable {journal : List (Line ν η)} {b b' : Nat} {x : Act ν η μ α} {f : α → Act ν η μ β}
  {w v : World ν η μ}

theorem pure {a : α} : (Pure.pure a : Act ν η μ α).Completes journal b w :=
  ends_pure.mpr ⟨(fun h => nomatch h), .refl w, .refl w⟩

theorem panic {message : String} : (throw (.panic message) : Act ν η μ α).Completes journal b w :=
  ends_throw.mpr ⟨(fun h => nomatch h), .refl w, .refl w⟩

/-- The work goes on from `v`, which other work has reached. -/
theorem after (hs : Shrinks w v) (hn : Nests journal b w v) (h : x.Completes journal b v) :
    x.Ends v fun r u => r ≠ .error .exhausted ∧ Shrinks w u ∧ Nests journal b w u :=
  Ends.mono h fun _ _ ⟨hr, hs', hn'⟩ => ⟨hr, hs.trans hs', hn.trans hn'⟩

theorem bind (h : x.Completes journal b w)
    (hf : ∀ a v, Shrinks w v → Nests journal b w v → (f a).Completes journal b v) :
    (x >>= f).Completes journal b w := by
  apply Ends.bind h
  · rintro a v ⟨-, hs, hn⟩
    exact after hs hn (hf a v hs hn)
  · rintro e v ⟨hr, hs, hn⟩
    exact ⟨fun he => hr (congrArg Except.error (Except.error.inj he)), hs, hn⟩

theorem cache {g : Cache ν η → Act ν η μ β} (h : (g w.cache).Completes journal b w) :
    (Act.cache >>= g).Completes journal b w := h

theorem now {g : Instant → Act ν η μ β} (h : (g w.now).Completes journal b w) :
    (Act.now >>= g).Completes journal b w := h

theorem change {t : Cache ν η → Cache ν η} {g : Unit → Act ν η μ β} (hs : Shrinks w (w.change t))
    (h : (g ()).Completes journal b (w.change t)) : (Act.change t >>= g).Completes journal b w :=
  ends_change.mpr (after hs (.silent rfl rfl) h)

theorem note {r : Record ν η} {g : Unit → Act ν η μ β} (hr : r.isOfAttempt.toNat ≤ b)
    (h : (g ()).Completes journal b (w.note r)) : (Act.note r >>= g).Completes journal b w :=
  ends_note.mpr (after (.of_entries (Int.le_refl _) rfl) (.note hr w) h)

theorem attempt (h : x.Completes journal b w) : (Act.attempt x).Completes journal b w := by
  refine ends_attempt (Ends.mono h ?_)
  rintro r v ⟨hr, hrest⟩
  obtain ⟨result, heq⟩ := caught_of_ne_exhausted hr
  rw [heq]
  exact ⟨(fun h => nomatch h), hrest⟩

theorem during {a : Activity ν η}
    (hb : w.journal <:+ journal → (a.evicts journal).toNat + b ≤ b')
    (h : x.Completes journal b (w.push a)) : (Act.during a x).Completes journal b' w :=
  ends_bracket (Ends.mono h fun _ _ ⟨hr, hs, hn⟩ =>
    ⟨hr, ⟨hs.now, hs.stored⟩, hn.inside rfl rfl rfl rfl hb⟩)

section Loops

theorem mapM {f : α → Act ν η μ β} (xs : List α) {w : World ν η μ}
    (h : ∀ a v, Shrinks w v → (f a).Completes journal b v) :
    (xs.mapM f).Completes journal b w := by
  induction xs generalizing w with
  | nil =>
    rw [List.mapM_nil]
    exact .pure
  | cons x xs ih =>
    rw [List.mapM_cons]
    refine .bind (h x w (.refl w)) fun _ v hs _ => .bind ?_ fun _ _ _ _ => .pure
    exact ih fun a u hu => h a u (hs.trans hu)

theorem foldlM {f : β → α → Act ν η μ β} (xs : List α) {w : World ν η μ}
    (h : ∀ c a v, Shrinks w v → (f c a).Completes journal b v) (c : β) :
    (xs.foldlM f c).Completes journal b w := by
  induction xs generalizing w c with
  | nil => exact .pure
  | cons x xs ih =>
    rw [List.foldlM_cons]
    refine .bind (h c x w (.refl w)) fun d v hs _ => ?_
    exact ih (fun c a u hu => h c a u (hs.trans hu)) d

theorem forM {f : α → Act ν η μ Unit} (xs : List α) {w : World ν η μ}
    (h : ∀ a ∈ xs, ∀ v, Shrinks w v → Nests journal b w v → (f a).Completes journal b v) :
    (xs.forM f).Completes journal b w := by
  induction xs generalizing w with
  | nil => exact .pure
  | cons x xs ih =>
    refine .bind (h x (List.mem_cons_self ..) w (.refl w) (.refl w)) fun _ v hs hn => ?_
    exact ih fun a ha u hu hn' => h a (List.mem_cons_of_mem _ ha) u (hs.trans hu) (hn.trans hn')

end Loops

end Completes

theorem ends_answer (x : Act ν η μ α) (c : β) (w : World ν η μ) :
    (x >>= fun _ => (Pure.pure c : Act ν η μ β)).Ends w fun r _ => ∀ a, r = .ok a → a = c := by
  apply Ends.bind (P := fun _ _ => True) ((ends_self x w).mono fun _ _ _ => trivial)
  · intro _ v _
    apply ends_pure.mpr
    intro a h
    exact (Except.ok.inj h).symm
  · exact fun _ _ _ _ h => nomatch h

/-! ## Questions to entries that carry deadlines -/

section

variable (host : Host ν η μ) {w : World ν η μ} {key : Key}

theorem expired_dated {e : Entry ν η} (h : e.Dated) (w : World ν η μ) :
    (expired host e).Returns w fun found v => found = e.due w.now ∧ v = w := by
  cases hp : e.policy with
  | none =>
    refine .now ?_
    unfold Entry.expired
    rw [hp]
    exact .pure ⟨(Entry.due_eq_false_of_policy hp w.now).symm, rfl⟩
  | some policy => exact expired_timed host hp (h policy hp) w

theorem candidate?_dated (hw : w.cache.Dated) (g : Nat) :
    (candidate? host key g).Returns w fun found v => v = w ∧
      (∀ e policy, found = some (e, policy) → w.cache.insertion? key g = some e ∧
        e.pending = false ∧ e.due w.now = true) ∧
      (found = none → ∀ e, w.cache.insertion? key g = some e → e.pending = false →
        e.due w.now = false) := by
  unfold candidate?
  refine .cache ?_
  cases he : w.cache.insertion? key g with
  | none => exact .pure ⟨rfl, (fun _ _ h => nomatch h), fun _ _ h => nomatch h⟩
  | some e =>
    have only : ∀ e', some e = some e' → e' = e := fun e' h => (Option.some.inj h).symm
    cases hp : e.pending with
    | true =>
      simp only [hp]
      refine .pure ⟨rfl, (fun _ _ h => nomatch h), ?_⟩
      intro _ e' he' hp'
      rw [only e' he', hp] at hp'
      cases hp'
    | false =>
      cases hq : e.policy with
      | none =>
        simp only [hp, hq]
        refine .pure ⟨rfl, (fun _ _ h => nomatch h), ?_⟩
        intro _ e' he' _
        rw [only e' he']
        exact Entry.due_eq_false_of_policy hq w.now
      | some policy =>
        simp only [hp, hq]
        have hdated := hw key e (Cache.insertion?_eq_some.mp he).1
        refine .bind (expired_dated host hdated w) ?_
        rintro found v ⟨rfl, rfl⟩
        cases hd : e.due v.now with
        | true =>
          refine .pure ⟨rfl, ?_, fun h => nomatch h⟩
          intro e' p h
          cases h
          exact ⟨rfl, hp, hd⟩
        | false =>
          refine .pure ⟨rfl, (fun _ _ h => nomatch h), ?_⟩
          intro _ e' he' _
          rw [only e' he']
          exact hd

theorem commit_dated (hw : w.cache.Dated) (g : Nat) :
    (commit host key g).Returns w fun found v =>
      (found = none ∧ v = w ∧ ∀ e, w.cache.insertion? key g = some e → e.due w.now = false) ∨
      ∃ e, found = some e ∧ w.cache.insertion? key g = some e ∧
        v = (w.change (.takeOut key .expiration)).note (.left g key e.value .expired) := by
  unfold commit
  refine .cache ?_
  cases he : w.cache.insertion? key g with
  | none => exact .pure (Or.inl ⟨rfl, rfl, fun _ h => nomatch h⟩)
  | some e =>
    cases hq : e.policy with
    | none =>
      simp only [hq]
      refine .pure (Or.inl ⟨rfl, rfl, ?_⟩)
      intro e' he'
      obtain rfl := Option.some.inj he'
      exact Entry.due_eq_false_of_policy hq w.now
    | some policy =>
      simp only [hq]
      have hdated := hw key e (Cache.insertion?_eq_some.mp he).1
      refine .bind (expired_dated host hdated w) ?_
      rintro found v ⟨rfl, rfl⟩
      cases hd : e.due v.now with
      | true => exact .change (.note (.pure (Or.inr ⟨e, rfl, rfl, rfl⟩)))
      | false =>
        refine .pure (Or.inl ⟨rfl, rfl, ?_⟩)
        intro e' he'
        obtain rfl := Option.some.inj he'
        exact hd

theorem filterM_dated {p : α → Act ν η μ Bool} (xs : List α)
    (h : ∀ x ∈ xs, (p x).Returns w fun _ v => v = w) :
    (xs.filterM p).Returns w fun _ v => v = w := by
  have loop : ∀ acc, (xs.filterAuxM p acc).Returns w fun _ v => v = w := by
    induction xs with
    | nil => exact fun _ => .pure rfl
    | cons x xs ih =>
      intro acc
      refine .bind (h x (List.mem_cons_self ..)) ?_
      rintro found v rfl
      exact ih (fun y hy => h y (List.mem_cons_of_mem _ hy)) _
  refine .bind (loop []) ?_
  rintro kept v rfl
  exact .pure rfl

theorem candidates_dated (hw : w.cache.Dated) :
    (candidates host).Returns w fun _ v => v = w := by
  refine .cache (.bind (filterM_dated _ ?_) ?_)
  · intro r hr
    split
    · exact .pure rfl
    · have hdated := hw r.1 r.2 (Table.get?_eq_some_iff.mpr hr)
      exact (expired_dated host hdated w).mono fun _ _ h => h.2
  · rintro rows v rfl
    exact .pure rfl

theorem liveKeys_dated (hw : w.cache.Dated) :
    (liveKeys host).Returns w fun _ v => v = w := by
  refine .cache (.bind (filterM_dated _ ?_) ?_)
  · intro r hr
    split
    · exact .pure rfl
    · have hdated := hw r.1 r.2 (Table.get?_eq_some_iff.mpr hr)
      refine .bind (expired_dated host hdated w) ?_
      rintro found v ⟨-, rfl⟩
      exact .pure rfl
  · rintro rows v rfl
    exact .pure rfl

theorem Completes.of_returns {journal : List (Line ν η)} {b : Nat} {x : Act ν η μ α}
    {f : α → Act ν η μ β} {P : α → World ν η μ → Prop} (h : x.Returns w P)
    (hP : ∀ a v, P a v → v = w) (hf : ∀ a, P a w → (f a).Completes journal b w) :
    (x >>= f).Completes journal b w := by
  apply h.bind_ends
  intro a v hv
  obtain rfl := hP a v hv
  exact hf a hv

end

/-! ## Attempts to evict -/

section

variable {host : Host ν η μ} {invoke : Invoke ν η μ} {journal : List (Line ν η)} {m b : Nat}
  {w : World ν η μ}

/-- A value that left other than by expiry is not handed over by an attempt to evict. -/
theorem evicts_releasing (hleft : ∀ g, journal.countP (·.leaves g) ≤ 1) {l : Line ν η} {g : Nat}
    {key : Key} {value : ν} {exit : Exit} (hl : l ∈ journal)
    (hr : l.record = .left g key value exit) (hx : exit ≠ .expired) (j : Key) :
    (Activity.releasing j g : Activity ν η).evicts journal = false := by
  apply Bool.eq_false_iff.mpr
  intro h
  obtain ⟨l', hl', he⟩ := List.any_eq_true.mp h
  have hleaves : l'.leaves g = true := by
    unfold Line.expires at he
    unfold Line.leaves
    split at he
    · rename_i hrec
      rw [hrec]
      exact he
    · cases he
  obtain rfl := eq_of_countP_le_one (hleft g) hl' hl hleaves (Line.leaves_iff.mpr ⟨_, _, _, hr⟩)
  unfold Line.expires at he
  rw [hr] at he
  cases exit with
  | expired => exact hx rfl
  | _ => cases he

variable (hi : ∀ c (w : World ν η μ) b, w.Fits m b → (invoke c).Completes journal b w)

include hi

theorem release_completes (hw : w.Fits m b) {b' : Nat} (key : Key) (e : Entry ν η)
    (hb : w.journal <:+ journal →
      ((Activity.releasing key e.generation : Activity ν η).evicts journal).toNat + b ≤ b') :
    (release invoke key e).Completes journal b' w := by
  refine .cache ?_
  cases w.cache.settings.release with
  | none => exact .pure
  | some handler =>
    have hpush : (w.push (.releasing key e.generation)).Fits m b := ⟨hw.charge, hw.free, hw.dated⟩
    exact .during hb (hi _ _ b hpush)

theorem askExpiring_completes (hw : w.Fits m b) (g : Nat) (key : Key) (value : ν)
    (policy : Policy η) : (askExpiring invoke g key value policy).Completes journal b w := by
  refine .note (Nat.zero_le b) (.cache (.mapM _ ?_))
  intro handler v hv
  have hnote : Shrinks w (w.note (.offered g key value policy)) := .of_entries (Int.le_refl _) rfl
  exact hi _ v b (hw.shrinks (hnote.trans hv))

theorem tellExpired_completes (hw : w.Fits m b) (g : Nat) (key : Key) (value : ν)
    (initial : Disposal) : (tellExpired invoke g key value initial).Completes journal b w := by
  refine .note (Nat.zero_le b) (.cache (.foldlM _ ?_ initial))
  intro running handler v hv
  have hnote : Shrinks w (w.note (.announced g key value initial)) :=
    .of_entries (Int.le_refl _) rfl
  exact hi (.expired handler key value running) v b (hw.shrinks (hnote.trans hv))

theorem disposeEvicted_completes (hw : w.Fits m b) (key : Key) (gone : Entry ν η) :
    (disposeEvicted invoke key gone).Completes journal (b + 1) w := by
  have hpush : (w.push (.telling key gone.generation)).Fits m b := ⟨hw.charge, hw.free, hw.dated⟩
  refine .cache (.bind ?_ ?_)
  · exact .during (fun _ => Nat.le_of_eq (Nat.add_comm 1 b)) (tellExpired_completes hi hpush _ key _ _)
  · intro final v hv _
    refine .note (Nat.le_add_left 1 b) ?_
    split
    · have hnote : Shrinks v (v.note (.disposed gone.generation key final)) :=
        .of_entries (Int.le_refl _) rfl
      apply release_completes hi (hw.shrinks (hv.trans hnote)) key gone
      intro _
      have := Bool.toNat_le ((Activity.releasing key gone.generation : Activity ν η).evicts journal)
      omega
    · exact .pure

theorem deciding_completes (hw : w.Fits (m + 1) (b + 1)) {key : Key} {g : Nat} {e : Entry ν η}
    (he : w.cache.insertion? key g = some e) (hp : e.pending = false) (policy : Policy η) :
    (deciding key g (askExpiring invoke g key e.value policy)).Completes journal (b + 1) w := by
  have hmarked : ((w.change (.mark true key g)).push (.deciding key g)).Fits m b := by
    have hcharge := Cache.charge_mark_lt he hp
    have hfree := Cache.free_mark_lt he hp
    refine ⟨?_, ?_, hw.dated.mark true key g⟩
    · exact Nat.lt_of_lt_of_le hcharge (Nat.le_of_lt_succ hw.charge)
    · exact Nat.le_of_lt_succ (Nat.lt_of_lt_of_le hfree hw.free)
  refine ends_bracket (Ends.mono (askExpiring_completes hi hmarked g key e.value policy) ?_)
  rintro r v ⟨hr, hs, hn⟩
  exact ⟨hr, hs.decided he hp, hn.inside rfl rfl rfl rfl fun _ => Nat.le_of_eq (Nat.add_comm 1 b)⟩

/-- What is evicted is not free any more, so its eviction has room to be told of. -/
theorem evicted_completes (hw : w.Fits (m + 1) (b + 1)) {key : Key} {g : Nat} {e : Entry ν η}
    (he : w.cache.insertion? key g = some e) (hp : e.pending = false) :
    (do disposeEvicted invoke key e; return Fate.evicted : Act ν η μ (Fate ν)).Completes journal (b + 1)
      ((w.change (.takeOut key .expiration)).note (.left g key e.value .expired)) := by
  have hf := (Cache.insertion?_eq_some.mp he).1
  have hout := Shrinks.takeOut key .expiration w
  have hfits : ((w.change (.takeOut key .expiration)).note (.left g key e.value .expired)).Fits m b := by
    refine ⟨?_, ?_, hout.dated hw.dated⟩
    · exact Nat.lt_of_lt_of_le (Cache.charge_takeOut_lt .expiration hf) (Nat.le_of_lt_succ hw.charge)
    · exact Nat.le_of_lt_succ (Nat.lt_of_lt_of_le (Cache.free_takeOut_lt .expiration hf hp) hw.free)
  exact .bind (disposeEvicted_completes hi hfits key e) fun _ _ _ _ => .pure

/-- An attempt takes up one of the free insertions. If it finds that something has changed although the
insertion was due, then the insertion is gone. -/
theorem expire_ends (hw : w.Fits (m + 1) b) (key : Key) (g : Nat) :
    (expire host invoke key g).Ends w fun r v =>
      (r ≠ .error .exhausted ∧ Shrinks w v ∧ Nests journal b w v) ∧ (r = .ok .stale → ∀ e,
        w.cache.insertion? key g = some e → e.pending = false → e.due w.now = true →
          v.cache.insertion? key g = none) := by
  unfold expire
  refine (candidate?_dated host hw.dated g).bind_ends ?_
  rintro found v ⟨rfl, hsome, hnone⟩
  match found, hsome, hnone with
  | none, _, hnone =>
    refine ends_pure.mpr ⟨⟨(fun h => nomatch h), .refl v, .refl v⟩, ?_⟩
    intro _ e he hp hd
    rw [hnone rfl e he hp] at hd
    cases hd
  | some (e, policy), hsome, _ =>
    obtain ⟨he, hp, hd⟩ := hsome e policy rfl
    -- the insertion is not marked, so there is room for one attempt at least
    obtain ⟨room, rfl⟩ : ∃ room, b = room + 1 := by
      have hlt := Cache.free_mark_lt he hp
      exact Nat.exists_eq_succ_of_ne_zero (Nat.ne_zero_of_lt (Nat.lt_of_lt_of_le hlt hw.free))
    apply Ends.bind (deciding_completes hi hw he hp policy)
    · rintro answers v₁ ⟨-, hs, hn⟩
      have hs₂ := hs.noted (.decided g key e.value answers)
      have hn₂ := hn.trans (.note (r := .decided g key e.value answers) (Nat.le_add_left 1 room) v₁)
      apply ends_note.mpr
      generalize v₁.note (.decided g key e.value answers) = v₂ at hs₂ hn₂ ⊢
      split
      · refine ends_change.mpr (ends_pure.mpr ⟨⟨(fun h => nomatch h), ?_, ?_⟩, fun h => nomatch h⟩)
        · exact hs₂.trans (.of_entries (Int.le_refl _) rfl)
        · exact hn₂.trans (.silent rfl rfl)
      · -- who was due then is due now, so only one that is gone is not taken out
        have old : ∀ e₂, v₂.cache.insertion? key g = some e₂ →
            e₂.pending = false ∧ e₂.due v₂.now = true := by
          intro e₂ he₂
          obtain ⟨e₀, he₀, -, hp₂, -, hdue⟩ :=
            hs₂.stored key e₂ (Cache.insertion?_eq_some.mp he₂).1
          obtain rfl := Option.some.inj ((Cache.insertion?_eq_some.mp he).1.symm.trans he₀)
          exact ⟨hp₂.trans hp, hdue hd⟩
        apply (commit_dated host (hs₂.dated hw.dated) g).bind_ends
        rintro found v₃ (⟨rfl, rfl, hdead⟩ | ⟨gone, rfl, hgone, rfl⟩)
        · refine ends_pure.mpr ⟨⟨(fun h => nomatch h), hs₂, hn₂⟩, ?_⟩
          intro _ _ _ _ _
          apply Option.eq_none_iff_forall_not_mem.mpr
          intro e₂ he₂
          have hlive := hdead e₂ he₂
          rw [(old e₂ he₂).2] at hlive
          cases hlive
        · have hout := (Shrinks.takeOut key .expiration v₂).noted (.left g key gone.value .expired)
          have hquiet : Nests journal (room + 1) v₂ (v₂.change (.takeOut key .expiration)) :=
            .silent rfl rfl
          have hline := hquiet.trans (.note (r := .left g key gone.value .expired)
            (Nat.le_add_left 1 room) _)
          have hrest := evicted_completes hi (hw.shrinks hs₂) hgone (old gone hgone).1
          apply ((hrest.after (hs₂.trans hout) (hn₂.trans hline)).and (ends_answer _ _ _)).mono
          rintro r v ⟨hr, hevicted⟩
          refine ⟨hr, ?_⟩
          rintro rfl
          cases hevicted _ rfl
    · rintro error v₁ ⟨hr, hs, hn⟩
      exact ⟨⟨fun h => hr (congrArg Except.error (Except.error.inj h)), hs, hn⟩, fun h => nomatch h⟩

theorem expire_completes (hw : w.Fits (m + 1) b) (key : Key) (g : Nat) :
    (expire host invoke key g).Completes journal b w := (expire_ends hi hw key g).mono fun _ _ h => h.1

/-! ## Operations -/

omit hi in
theorem readEnds_completes (access : Access) (key : Key) (found : Option ν) :
    (readEnds access key found : Act ν η μ (Option ν)).Completes journal b w := by
  unfold readEnds
  split
  · exact .change (.of_entries (Int.le_refl _) rfl) (.note (Nat.zero_le b) .pure)
  · exact .pure

omit hi in
theorem lookup_gone (access : Access) {key : Key} (h : w.cache.find? key = none) (n : Nat) :
    (lookup host invoke access key (n + 1)).Completes journal b w := by
  unfold lookup
  refine .cache ?_
  rw [h]
  exact readEnds_completes access key none

theorem lookup_completes (hw : w.Fits (m + 1) b) (access : Access) (key : Key) (n : Nat) :
    (lookup host invoke access key (n + 2)).Completes journal b w := by
  unfold lookup
  refine .cache ?_
  cases he : w.cache.find? key with
  | none => exact readEnds_completes access key none
  | some e =>
    dsimp only
    refine .of_returns (expired_dated host (hw.dated key e he) w) (fun _ _ h => h.2) ?_
    rintro found ⟨rfl, -⟩
    cases hd : e.due w.now with
    | false =>
      rw [if_pos Bool.not_false]
      split
      · exact .now (.change (.touch he hd) (readEnds_completes access key _))
      · exact readEnds_completes access key _
    | true =>
      rw [if_neg (by simp)]
      split
      · exact readEnds_completes access key _
      · rename_i hp
        have hp : e.pending = false := Bool.eq_false_iff.mpr hp
        apply Ends.bind (expire_ends hi hw key e.generation)
        · rintro fate v ⟨⟨-, hs, hn⟩, hstale⟩
          cases fate with
          | evicted => exact (readEnds_completes access key none).after hs hn
          | cancelled value => exact (readEnds_completes access key (some value)).after hs hn
          -- a read starts over once at most, because it finds nothing then
          | stale =>
            have hgone := hstale rfl e (Cache.insertion?_eq_some.mpr ⟨he, rfl⟩) hp hd
            have hnone : v.cache.find? key = none := by
              apply Option.eq_none_iff_forall_not_mem.mpr
              intro e' he'
              obtain ⟨e₀, he₀, hg, -⟩ := hs.stored key e' he'
              obtain rfl := Option.some.inj (he.symm.trans he₀)
              rw [Cache.insertion?_eq_some.mpr ⟨he', hg⟩] at hgone
              cases hgone
            exact Completes.after hs hn (.note (Nat.zero_le b)
              (lookup_gone (w := v.note (.retried key)) access hnone n))
        · rintro error v ⟨⟨hr, hs, hn⟩, -⟩
          exact ⟨fun h => hr (congrArg Except.error (Except.error.inj h)), hs, hn⟩

theorem sweep_completes (hw : w.Fits (m + 1) b) : (sweep host invoke).Completes journal b w := by
  refine .of_returns (candidates_dated host hw.dated) (fun _ _ h => h) fun listed _ => ?_
  refine .foldlM listed ?_ 0
  intro n c v hv
  refine .bind (expire_completes hi (hw.shrinks hv) c.1 c.2) fun fate _ _ _ => ?_
  cases fate <;> exact .pure

variable (hleft : ∀ g, journal.countP (·.leaves g) ≤ 1)

include hleft

/-- What left other than by expiry is handed over outside of all attempts to evict. -/
theorem releaseIfSet_completes (hw : w.Fits m b) {key : Key} {e : Entry ν η} {value : ν} {exit : Exit}
    (hx : exit ≠ .expired)
    (hl : ∃ l ∈ w.journal, l.record = .left e.generation key value exit) :
    (releaseIfSet invoke key e).Completes journal b w := by
  refine .cache ?_
  split
  · apply release_completes hi hw key e
    intro hs
    obtain ⟨l, hl, hr⟩ := hl
    rw [evicts_releasing hleft (hs.subset hl) hr hx key]
    exact Nat.le_of_eq (Nat.zero_add b)
  · exact .pure

theorem remove_completes (hw : w.Fits (m + 1) b) (key : Key) :
    (remove invoke key).Completes journal b w := by
  refine .cache ?_
  cases he : w.cache.find? key with
  | none => exact .pure
  | some e =>
    have hout := Shrinks.takeOut key (.removed 1) w
    have hfits : ((w.change (.takeOut key (.removed 1))).note
        (.left e.generation key e.value .removed)).Fits m b := by
      refine ⟨?_, Nat.le_trans hout.free_le hw.free, hout.dated hw.dated⟩
      exact Nat.lt_of_lt_of_le (Cache.charge_takeOut_lt _ he) (Nat.le_of_lt_succ hw.charge)
    refine .change hout (.note (Nat.zero_le b) (.bind ?_ fun _ _ _ _ => .pure))
    have hexit : Exit.removed ≠ .expired := fun h => nomatch h
    exact releaseIfSet_completes hi hleft hfits hexit ⟨_, List.mem_cons_self .., rfl⟩

/-- Clearing needs room only if there is something to clear. -/
theorem clear_completes (hm : w.cache.entries.rows ≠ [] → 0 < m) :
    (clear invoke).Completes journal b w := by
  refine ends_takeAll (Completes.after (.emptied w) (.emptied w) (.forM _ ?_))
  intro r hr v hs hn
  have hempty : w.emptied.Fits m b := by
    rw [World.emptied_eq]
    exact ⟨hm (List.ne_nil_of_mem hr), Nat.zero_le b, fun _ _ h => nomatch h⟩
  have hexit : Exit.cleared ≠ .expired := fun h => nomatch h
  apply releaseIfSet_completes hi hleft (hempty.shrinks hs) hexit
  refine ⟨(w.change .drain).line (.left r.2.generation r.1 r.2.value .cleared), ?_, rfl⟩
  obtain ⟨seg, hj, -⟩ := hn.lines
  rw [hj, World.emptied_eq]
  refine List.mem_append_right _ (List.mem_append_left _ ?_)
  exact List.mem_reverse.mpr (List.mem_map.mpr ⟨r, hr, rfl⟩)

theorem closeUnused_completes (hm : w.cache.entries.rows ≠ [] → 0 < m) :
    (closeUnused invoke).Completes journal b w := by
  apply ends_get.mpr
  split
  · exact Completes.change (.of_entries (Int.le_refl _) rfl) (clear_completes hi hleft hm)
  · exact ends_pure.mpr ⟨(fun h => nomatch h), .refl w, .refl w⟩

omit hi hleft in
theorem Completes.keyed {work : Act ν η μ (Answer ν)} {key : Key}
    (h : work.Completes journal b w) : (keyed host key work).Completes journal b w := by
  unfold Act.keyed
  split
  · exact h
  · exact .pure

theorem carryOut_completes (hw : w.Fits (m + 1) b) {op : Operation ν η} (hop : op.Frugal)
    (n : Nat) : (carryOut host invoke (n + 2) op).Completes journal b w := by
  have answered : ∀ {α : Type} {x : Act ν η μ α} (f : α → Answer ν), x.Completes journal b w →
      (x >>= fun a => (Pure.pure (f a) : Act ν η μ (Answer ν))).Completes journal b w :=
    fun _ h => .bind h fun _ _ _ _ => .pure
  cases op with
  | get key => exact .keyed (answered _ (lookup_completes hi hw .full key n))
  | contains key => exact .keyed (answered _ (lookup_completes hi hw .peek key n))
  | remove key => exact .keyed (answered _ (remove_completes hi hleft hw key))
  | clear => exact answered (fun _ => .done) (clear_completes hi hleft hw.pos_of_rows)
  | sweep => exact answered _ (sweep_completes hi hw)
  | keys => exact .of_returns (liveKeys_dated host hw.dated) (fun _ _ h => h) fun _ _ => .pure
  | length => exact .cache .pure
  | statistics => exact .cache .pure
  | _ => exact hop.elim

end

/-- An operation comes to its end if carrying it out does, and the closing after that. -/
theorem operate_ends_of_closing {host : Host ν η μ} {invoke : Invoke ν η μ} {w : World ν η μ} {n : Nat}
    {op : Operation ν η} {Q : World ν η μ → Prop}
    (h : (carryOut host invoke n op).Ends (w.push (.operation op)) fun r v => r ≠ .error .exhausted ∧
      (closeUnused invoke).Ends v.pop fun r u => r ≠ .error .exhausted ∧ Q (u.note (.finished op))) :
    (operate host invoke n op).Ends w fun r u => r ≠ .error .exhausted ∧ Q u := by
  apply operate_closes
  apply h.mono
  rintro s v ⟨hs, hclose⟩
  unfold Closes
  rw [if_neg (by rw [cutShort_eq_false hs]; decide)]
  apply hclose.mono
  rintro t u ⟨ht, hq⟩
  rw [if_neg (by rw [cutShort_eq_false ht]; decide)]
  refine ⟨?_, hq⟩
  -- a panic of the closing takes the place of how the work ended
  cases t with
  | ok _ => exact hs
  | error halt => exact fun he => ht (congrArg Except.error (Except.error.inj he))

section

variable {host : Host ν η μ} {journal : List (Line ν η)}
  (hleft : ∀ g, journal.countP (·.leaves g) ≤ 1)

theorem run_completes {perform : Operation ν η → Act ν η μ (Answer ν)} {m : Nat}
    (hp : ∀ op, op.Frugal → ∀ (w : World ν η μ) b, w.Fits m b → (perform op).Completes journal b w)
    (p : Program ν η μ α) (h : p.Only Operation.Frugal) : ∀ (w : World ν η μ) b, w.Fits m b →
      (p.run perform).Completes journal b w := by
  induction p with
  | done a => exact fun _ _ _ => .pure
  | panic message => exact fun _ _ _ => .panic
  | clock next ih => exact fun w b hw => .now (ih w.now (h w.now) w b hw)
  | wait span next ih =>
    intro w b hw
    have hs : Shrinks w { w with now := w.now.advance span } :=
      .of_entries (w.now.le_advance span) rfl
    exact ends_modify.mpr (Completes.after hs (.silent rfl rfl) (ih h _ b (hw.shrinks hs)))
  | load next ih => exact fun w b hw => ends_get.mpr (ih w.memory (h w.memory) w b hw)
  | store memory next ih =>
    intro w b hw
    have hs : Shrinks w { w with memory := memory } := .of_entries (Int.le_refl _) rfl
    exact ends_modify.mpr (Completes.after hs (.silent rfl rfl) (ih h _ b (hw.shrinks hs)))
  | perform op next ih =>
    intro w b hw
    exact .bind (.attempt (hp op h.1 w b hw)) fun r v hs _ => ih r (h.2 r) v b (hw.shrinks hs)

theorem callVia_completes (hhost : host.Only Operation.Frugal)
    {perform : Operation ν η → Act ν η μ (Answer ν)} {m : Nat}
    (hp : ∀ op, op.Frugal → ∀ (w : World ν η μ) b, w.Fits m b → (perform op).Completes journal b w)
    (c : Callback ν η) (w : World ν η μ) (b : Nat) (hw : w.Fits m b) :
    (callVia host perform c).Completes journal b w := by
  have hrun := run_completes hp (host.respond c) (hhost c) (w.note (.entered c)) b
    ⟨hw.charge, hw.free, hw.dated⟩
  refine .note (Nat.zero_le b) (.bind (.attempt hrun) fun r v _ _ => ?_)
  cases r with
  | ok answer => exact .note (Nat.zero_le b) .pure
  | error message => exact .note (Nat.zero_le b) .panic

include hleft

theorem operate_completes {invoke : Invoke ν η μ} {m b : Nat} {w : World ν η μ}
    (hi : ∀ c (w : World ν η μ) b, w.Fits m b → (invoke c).Completes journal b w)
    (hw : w.Fits (m + 1) b) {op : Operation ν η} (hop : op.Frugal) (n : Nat) :
    (operate host invoke (n + 2) op).Completes journal b w := by
  have hpush : (w.push (.operation op)).Fits (m + 1) b := ⟨hw.charge, hw.free, hw.dated⟩
  refine operate_ends_of_closing (Ends.mono (carryOut_completes hi hleft hpush hop n) ?_)
  rintro r v ⟨hr, hs, hn⟩
  have hs' : Shrinks w v.pop := ⟨hs.now, hs.stored⟩
  have hn' : Nests journal b w v.pop :=
    hn.inside rfl rfl rfl rfl fun _ => Nat.le_of_eq (Nat.zero_add b)
  refine ⟨hr, ?_⟩
  apply Ends.mono (closeUnused_completes (b := b) hi hleft (hw.shrinks hs').pos_of_rows)
  rintro r u ⟨hr, hsu, hnu⟩
  exact ⟨hr, (hs'.trans hsu).noted _, (hn'.trans hnu).trans (.note (Nat.zero_le b) u)⟩

/-- Operations that store nothing come to their end, however their callbacks use the cache, if callbacks
may be nested a little deeper than there is to do. -/
theorem perform_completes (hhost : host.Only Operation.Frugal) (m : Nat) :
    ∀ depth, m + 2 ≤ depth → ∀ op, op.Frugal → ∀ (w : World ν η μ) b, w.Fits m b →
      (perform host depth op).Completes journal b w := by
  induction m with
  | zero => exact fun _ _ _ _ w b hw => absurd hw.charge (Nat.not_lt_zero _)
  | succ m ih =>
    intro depth hd op hop w b hw
    obtain ⟨k, rfl⟩ := Nat.exists_eq_add_of_le hd
    have hdepth : m + 1 + 2 + k = (m + k + 2) + 1 := by omega
    rw [hdepth]
    refine .cache ?_
    split
    -- what callbacks perform has less to do
    · have hcalls := callVia_completes hhost (ih (m + k + 2) (by omega))
      exact operate_completes hleft hcalls hw hop (m + k)
    · exact .pure

theorem call_completes (hhost : host.Only Operation.Frugal) {m depth : Nat} (hd : m + 2 ≤ depth)
    (c : Callback ν η) (w : World ν η μ) (b : Nat) (hw : w.Fits m b) :
    (call host depth c).Completes journal b w :=
  callVia_completes hhost (perform_completes hleft hhost m depth hd) c w b hw

end

end Act

end ExpiringCache
