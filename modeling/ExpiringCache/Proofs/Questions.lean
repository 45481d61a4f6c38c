import ExpiringCache.Engine.Session
import ExpiringCache.Proofs.Execution
import ExpiringCache.Proofs.Moves
import ExpiringCache.Proofs.Rounds

/-!
# Questions to policies

An attempt to evict an insertion asks its policy twice whether it is expired: before the handlers
decide, and again before the insertion is taken out. Asking changes nothing that is stored. What the
two questions come to is told here apart from the work around them.
-/

namespace ExpiringCache

variable {ν η μ α β : Type}

theorem Entry.due_eq_reached {e : Entry ν η} {policy : Policy η} (hp : e.policy = some policy)
    (now : Instant) : e.due now = Policy.reached policy.deadline? now := by
  unfold due deadline?
  rw [hp]
  rfl

theorem Entry.due_mono {e : Entry ν η} {s t : Instant} (h : s ≤ t) (hd : e.due s = true) :
    e.due t = true := by
  obtain ⟨d, hd, hle⟩ := Policy.reached_iff.mp hd
  exact Policy.reached_iff.mpr ⟨d, hd, Int.le_trans hle h⟩

/-- A change of the cache that concerns neither the entries nor the counters nor the slots. -/
structure Cache.Aside (c d : Cache ν η) : Prop where
  entries : d.entries = c.entries
  stats : d.stats = c.stats
  nextGeneration : d.nextGeneration = c.nextGeneration
  admission : d.admission = c.admission
  settings : d.settings = c.settings

namespace Record

/-- A line that stands by itself: no insertion comes in or leaves, no round and no read ends. -/
def isRemark : Record ν η → Bool
  | .inserted .. => false
  | .left .. => false
  | .decided .. => false
  | .read .. => false
  | _ => true

end Record

namespace Line

def consults (l : Line ν η) : Bool :=
  match l.record with
  | .consulted .. => true
  | _ => false

end Line

/-- What a round comes to that all of its handlers have answered. -/
inductive Upshot where
  -- by a veto
  | cancelled
  | evicted
  -- the insertion was gone, or was not expired any more
  | stale
  -- by a panic of the policy's predicate
  | unwound
deriving DecidableEq

namespace World

/-- A policy is asked whether it is expired; there is no answer if its predicate panics. -/
inductive Asks (w : World ν η μ) : Policy η → Option Bool → World ν η μ → Prop
  | timed {policy : Policy η} (h : policy.isTimed = true) :
      Asks w policy (some (Policy.reached policy.deadline? w.now)) w
  | custom (predicate : η) (answer : Option Bool) (m : μ) :
      Asks w (.custom predicate) answer
        (({ w with memory := m } : World ν η μ).note (.consulted predicate answer))

/-- Is the insertion `g` of `key` stored, and is it expired? -/
inductive Examines (w : World ν η μ) (key : Key) (g : Nat) : Option Bool → World ν η μ → Prop
  | gone (h : w.cache.insertion? key g = none) : Examines w key g (some false) w
  | timeless (e : Entry ν η) (he : w.cache.insertion? key g = some e) (hp : e.policy = none) :
      Examines w key g (some false) w
  | asked (e : Entry ν η) (policy : Policy η) (answer : Option Bool) (v : World ν η μ)
      (he : w.cache.insertion? key g = some e) (hp : e.policy = some policy)
      (ha : w.Asks policy answer v) : Examines w key g answer v

/-- What becomes of the insertion `g` of `key` that nobody vetoed. -/
inductive Commits (w : World ν η μ) (key : Key) (g : Nat) : Upshot → World ν η μ → Prop
  | stale {v : World ν η μ} (h : w.Examines key g (some false) v) : Commits w key g .stale v
  | unwound {v : World ν η μ} (h : w.Examines key g none v) : Commits w key g .unwound v
  | evicted {v : World ν η μ} (e : Entry ν η) (he : w.cache.insertion? key g = some e)
      (h : w.Examines key g (some true) v) : Commits w key g .evicted
        ((v.change (.takeOut key .expiration)).note (.left g key e.value .expired))

end World

namespace World

variable {w v : World ν η μ}

theorem Asks.calls {policy : Policy η} {answer : Option Bool} (h : w.Asks policy answer v) :
    v.calls = w.calls := by
  cases h <;> rfl

theorem Asks.cache {policy : Policy η} {answer : Option Bool} (h : w.Asks policy answer v) :
    v.cache = w.cache := by
  cases h <;> rfl

theorem Asks.now {policy : Policy η} {answer : Option Bool} (h : w.Asks policy answer v) :
    v.now = w.now := by
  cases h <;> rfl

/-- A policy with a deadline answers whether it has been reached. -/
theorem Asks.reached {policy : Policy η} {answer : Bool} (ht : policy.isTimed = true)
    (h : w.Asks policy (some answer) v) : Policy.reached policy.deadline? w.now = answer := by
  cases h with
  | timed => rfl
  | custom => cases ht

theorem Asks.lines {policy : Policy η} {answer : Option Bool} (h : w.Asks policy answer v) :
    ∃ asked, v.journal = asked ++ w.journal ∧
      ∀ l ∈ asked, l.consults = true ∧ l.calls = w.calls := by
  cases h with
  | timed => exact ⟨[], rfl, by simp⟩
  | custom predicate answer m => exact ⟨[_], rfl, by simp [Line.consults]⟩

theorem Examines.lines {key : Key} {g : Nat} {answer : Option Bool}
    (h : w.Examines key g answer v) : ∃ asked, v.journal = asked ++ w.journal ∧
      ∀ l ∈ asked, l.consults = true ∧ l.calls = w.calls := by
  cases h with
  | asked e policy answer v he hp ha => exact ha.lines
  | _ => exact ⟨[], rfl, by simp⟩

theorem Examines.calls {key : Key} {g : Nat} {answer : Option Bool}
    (h : w.Examines key g answer v) : v.calls = w.calls := by
  cases h with
  | asked e policy answer v he hp ha => exact ha.calls
  | _ => rfl

theorem Examines.cache {key : Key} {g : Nat} {answer : Option Bool}
    (h : w.Examines key g answer v) : v.cache = w.cache := by
  cases h with
  | asked e policy answer v he hp ha => exact ha.cache
  | _ => rfl

theorem Examines.now {key : Key} {g : Nat} {answer : Option Bool}
    (h : w.Examines key g answer v) : v.now = w.now := by
  cases h with
  | asked e policy answer v he hp ha => exact ha.now
  | _ => rfl

/-- At most the insertion itself and the counters are changed. -/
theorem Commits.keeps {key : Key} {g : Nat} {u : Upshot} (h : w.Commits key g u v) :
    v.now = w.now ∧ v.calls = w.calls ∧ v.cache.handle = w.cache.handle ∧
      v.cache.timer = w.cache.timer := by
  cases h with
  | stale hx => exact ⟨hx.now, hx.calls, by rw [hx.cache], by rw [hx.cache]⟩
  | unwound hx => exact ⟨hx.now, hx.calls, by rw [hx.cache], by rw [hx.cache]⟩
  | @evicted v e he hx =>
    have hhandle : v.cache.handle = w.cache.handle := by rw [hx.cache]
    have htimer : v.cache.timer = w.cache.timer := by rw [hx.cache]
    exact ⟨hx.now, hx.calls, hhandle, htimer⟩

theorem Commits.lines {key : Key} {g : Nat} {u : Upshot} (h : w.Commits key g u v) :
    ∃ new, v.journal = new ++ w.journal ∧ ∀ l ∈ new, l.calls = w.calls := by
  cases h with
  | stale hx =>
    obtain ⟨asked, hj, hasked⟩ := hx.lines
    exact ⟨asked, hj, fun l hl => (hasked l hl).2⟩
  | unwound hx =>
    obtain ⟨asked, hj, hasked⟩ := hx.lines
    exact ⟨asked, hj, fun l hl => (hasked l hl).2⟩
  | @evicted v e he hx =>
    obtain ⟨asked, hj, hasked⟩ := hx.lines
    refine ⟨_ :: asked, congrArg (List.cons _) hj, ?_⟩
    intro l hl
    rcases List.mem_cons.mp hl with rfl | hl
    · exact hx.calls
    · exact (hasked l hl).2

theorem calls_of_mem_placedLines {key : Key} {value : ν} {policy : Option (Policy η)} :
    ∀ l ∈ w.placedLines key value policy, l.calls = w.calls := by
  unfold placedLines
  cases w.cache.find? key <;> simp [line]

end World

namespace Act

theorem expired_asks (host : Host ν η μ) {e : Entry ν η} {policy : Policy η}
    (hp : e.policy = some policy) (w : World ν η μ) :
    (expired host e).Ends w fun r w' => w.Asks policy r.toOption w' := by
  unfold expired
  apply ends_now.mpr
  unfold Entry.expired
  rw [hp]
  cases policy with
  | custom predicate =>
    exact ends_consult (fun found m => .custom predicate (some found) m) fun _ m =>
      .custom predicate none m
  | _ => exact .timed rfl

theorem expired_timeless (host : Host ν η μ) {e : Entry ν η} (hp : e.policy = none)
    (w : World ν η μ) : (expired host e).Ends w fun r w' => r = .ok false ∧ w' = w := by
  unfold expired Entry.expired
  rw [hp]
  exact ⟨rfl, rfl⟩

def upshotOf : Except Halt (Option α) → Upshot
  | .ok (some _) => .evicted
  | .ok none => .stale
  | .error _ => .unwound

theorem commit_commits (host : Host ν η μ) (key : Key) (g : Nat) (w : World ν η μ) :
    (commit host key g).Ends w fun r w' => w.Commits key g (upshotOf r) w' ∧
      ∀ gone, r = .ok (some gone) → w.cache.insertion? key g = some gone := by
  have nothing : ∀ v : World ν η μ, w.Commits key g .stale v →
      (Pure.pure none : Act ν η μ (Option (Entry ν η))).Ends v fun r w' =>
        w.Commits key g (upshotOf r) w' ∧
          ∀ gone, r = .ok (some gone) → w.cache.insertion? key g = some gone := by
    intro v hv
    refine ends_pure.mpr ⟨hv, ?_⟩
    intro gone h
    cases h
  unfold commit
  apply ends_cache.mpr
  cases he : w.cache.insertion? key g with
  | none =>
    rw [he] at nothing
    exact nothing w (.stale (.gone he))
  | some e =>
    rw [he] at nothing
    cases hp : e.policy with
    | none =>
      simp only [hp]
      exact nothing w (.stale (.timeless e he hp))
    | some policy =>
      simp only [hp]
      apply (expired_asks host hp w).bind
      · intro found v ha
        cases found with
        | false => exact nothing v (.stale (.asked e policy _ v he hp ha))
        | true =>
          rw [if_pos rfl]
          refine ends_change.mpr (ends_note.mpr (ends_pure.mpr
            ⟨.evicted e he (.asked e policy _ v he hp ha), ?_⟩))
          intro gone h
          cases h
          rfl
      · intro error v ha
        refine ⟨.unwound (.asked e policy _ v he hp ha), ?_⟩
        intro gone h
        cases h

/-- What is offered to the handlers is stored and not marked, and asking changes nothing stored. -/
theorem candidate?_asks (host : Host ν η μ) (key : Key) (g : Nat) (w : World ν η μ) :
    (candidate? host key g).Ends w fun r w' => (w' = w ∨ ∃ policy, w.Asks policy
      (r.toOption.map (·.isSome)) w') ∧ ∀ e policy, r = .ok (some (e, policy)) →
        w.cache.insertion? key g = some e ∧ e.pending = false ∧ e.policy = some policy ∧
          w.Asks policy (some true) w' := by
  have nothing : ∀ v : World ν η μ, (v = w ∨ ∃ policy, w.Asks policy (some false) v) →
      (Pure.pure none : Act ν η μ (Option (Entry ν η × Policy η))).Ends v fun r w' =>
        (w' = w ∨ ∃ policy, w.Asks policy (r.toOption.map (·.isSome)) w') ∧
        ∀ e policy, r = .ok (some (e, policy)) → w.cache.insertion? key g = some e ∧
          e.pending = false ∧ e.policy = some policy ∧ w.Asks policy (some true) w' := by
    intro v hv
    refine ends_pure.mpr ⟨hv, ?_⟩
    intro e policy h
    cases h
  unfold candidate?
  apply ends_cache.mpr
  cases he : w.cache.insertion? key g with
  | none =>
    rw [he] at nothing
    exact nothing w (Or.inl rfl)
  | some e =>
    rw [he] at nothing
    cases hp : e.pending with
    | true =>
      simp only [hp]
      exact nothing w (Or.inl rfl)
    | false =>
      cases hq : e.policy with
      | none =>
        simp only [hp, hq]
        exact nothing w (Or.inl rfl)
      | some policy =>
        simp only [hp, hq]
        apply (expired_asks host hq w).bind
        · intro found v ha
          cases found with
          | false => exact nothing v (Or.inr ⟨policy, ha⟩)
          | true =>
            refine ends_pure.mpr ⟨Or.inr ⟨policy, ha⟩, ?_⟩
            intro e' policy' h
            cases h
            exact ⟨rfl, hp, hq, ha⟩
        · intro error v ha
          refine ⟨Or.inr ⟨policy, ha⟩, ?_⟩
          intro e' policy' h
          cases h

end Act

/-! ## Inquiries -/

/-- Predicates are asked and nothing else happens; if that ends early, then one of them panicked. -/
structure Inquiry (r : Except Halt α) (w v : World ν η μ) : Prop where
  now : v.now = w.now
  calls : v.calls = w.calls
  cache : v.cache = w.cache
  lines : ∃ asked, v.journal = asked ++ w.journal ∧
    (∀ l ∈ asked, l.consults = true ∧ l.calls = w.calls) ∧
    ∀ halt, r = .error halt → (∃ message, halt = .panic message) ∧
      ∃ l ∈ asked, ∃ predicate, l.record = .consulted predicate none

namespace Inquiry

variable {w v u : World ν η μ}

theorem nothing (a : α) (w : World ν η μ) : Inquiry (.ok a) w w := by
  refine ⟨rfl, rfl, rfl, [], rfl, by simp, ?_⟩
  intro halt h
  cases h

theorem trans {a : α} {r : Except Halt β} (h : Inquiry (.ok a) w v) (k : Inquiry r v u) :
    Inquiry r w u := by
  obtain ⟨old, hold, ho, -⟩ := h.lines
  obtain ⟨new, hnew, hn, hfail⟩ := k.lines
  rw [h.calls] at hn
  refine ⟨k.now.trans h.now, k.calls.trans h.calls, k.cache.trans h.cache, new ++ old, ?_, ?_, ?_⟩
  · rw [hnew, hold, List.append_assoc]
  · exact fun l hl => (List.mem_append.mp hl).elim (hn l) (ho l)
  · intro halt hr
    obtain ⟨hpanic, l, hl, hrec⟩ := hfail halt hr
    exact ⟨hpanic, l, List.mem_append_left _ hl, hrec⟩

theorem failed {halt : Halt} (h : Inquiry (.error halt : Except Halt α) w v) :
    Inquiry (.error halt : Except Halt β) w v := by
  obtain ⟨asked, hj, hasked, hfail⟩ := h.lines
  refine ⟨h.now, h.calls, h.cache, asked, hj, hasked, ?_⟩
  intro halt' hr
  cases hr
  exact hfail halt rfl

theorem answered {a : α} (b : β) (h : Inquiry (.ok a) w v) : Inquiry (.ok b) w v :=
  h.trans (.nothing b v)

end Inquiry

namespace Act

theorem expired_inquiry (host : Host ν η μ) (e : Entry ν η) (w : World ν η μ) :
    (expired host e).Ends w fun r v => Inquiry r w v := by
  unfold expired
  apply ends_now.mpr
  unfold Entry.expired
  cases e.policy with
  | none => exact .nothing false w
  | some policy =>
    cases policy with
    | custom predicate =>
      have asked : ∀ (reply : Option Bool) (m : μ), ∀ l ∈ [({ w with memory := m } : World ν η μ).line
          (.consulted predicate reply)], l.consults = true ∧ l.calls = w.calls := by
        intro reply m l hl
        rw [List.mem_singleton.mp hl]
        exact ⟨rfl, rfl⟩
      refine ends_consult (fun found m =>
        ⟨rfl, rfl, rfl, [_], rfl, asked _ m, fun halt h => nomatch h⟩) fun message m =>
          ⟨rfl, rfl, rfl, [_], rfl, asked _ m, ?_⟩
      intro halt h
      cases h
      exact ⟨⟨message, rfl⟩, _, List.mem_singleton_self _, predicate, rfl⟩
    | _ => exact .nothing _ w

theorem candidate?_inquiry (host : Host ν η μ) (key : Key) (g : Nat) (w : World ν η μ) :
    (candidate? host key g).Ends w fun r v => Inquiry r w v := by
  unfold candidate?
  apply ends_cache.mpr
  cases w.cache.insertion? key g with
  | none => exact .nothing none w
  | some e =>
    dsimp only
    split
    · refine (expired_inquiry host e w).bind ?_ fun _ _ h => h.failed
      intro found v h
      cases found <;> exact h.answered _
    · exact .nothing none w

theorem occupied_inquiry (host : Host ν η μ) (key : Key) (w : World ν η μ) :
    (occupied host key).Ends w fun r v => Inquiry r w v := by
  unfold occupied
  apply ends_cache.mpr
  cases w.cache.find? key with
  | none => exact .nothing false w
  | some e =>
    dsimp only
    split
    · exact .nothing true w
    · refine (expired_inquiry host e w).bind ?_ fun _ _ h => h.failed
      exact fun found v h => h.answered (!found)

/-- The answer for an entry with a deadline is whether the deadline has been reached. -/
theorem expired_timed (host : Host ν η μ) {e : Entry ν η} {policy : Policy η}
    (hp : e.policy = some policy) (ht : policy.isTimed = true) (w : World ν η μ) :
    (expired host e).Returns w fun found v => found = e.due w.now ∧ v = w := by
  refine .now ?_
  unfold Entry.expired
  rw [hp]
  simp only [Policy.expired_timed _ _ ht]
  exact .pure ⟨(Entry.due_eq_reached hp w.now).symm, rfl⟩

/-- A filter that inquires keeps, in their order, items that its test lets through. -/
theorem filterM_inquiry {p : α → Act ν η μ Bool} (keep drop : α → Prop)
    (hp : ∀ x w, (p x).Ends w fun r v => Inquiry r w v ∧ (keep x → ∀ b, r = .ok b → b = true) ∧
      (drop x → ∀ b, r = .ok b → b = false)) (xs : List α) (w : World ν η μ) :
    (xs.filterM p).Ends w fun r v => Inquiry r w v ∧ ∀ ys, r = .ok ys → ys.Sublist xs ∧
      (∀ x ∈ xs, keep x → x ∈ ys) ∧ ∀ y ∈ ys, ¬ drop y := by
  have loop : ∀ (xs acc : List α) (w : World ν η μ), (xs.filterAuxM p acc).Ends w fun r v =>
      Inquiry r w v ∧ ∀ ys, r = .ok ys → ∃ kept : List α, ys = kept.reverse ++ acc ∧
        kept.Sublist xs ∧ (∀ x ∈ xs, keep x → x ∈ kept) ∧ ∀ y ∈ kept, ¬ drop y := by
    intro xs
    induction xs with
    | nil =>
      intro acc w
      refine ends_pure.mpr ⟨.nothing acc w, ?_⟩
      intro ys hys
      cases hys
      exact ⟨[], rfl, .slnil, by simp⟩
    | cons x xs ih =>
      intro acc w
      apply (hp x w).bind
      · rintro found v ⟨hv, hkeep, hdrop⟩
        apply (ih (cond found (x :: acc) acc) v).mono
        rintro r u ⟨hu, hrest⟩
        refine ⟨hv.trans hu, ?_⟩
        intro ys hys
        obtain ⟨kept, rfl, hsub, hall, hnone⟩ := hrest ys hys
        cases found with
        | false =>
          refine ⟨kept, rfl, hsub.cons x, ?_, hnone⟩
          intro y hy hk
          rcases List.mem_cons.mp hy with rfl | hy
          · exact Bool.noConfusion (hkeep hk false rfl)
          · exact hall y hy hk
        | true =>
          refine ⟨x :: kept, by simp, hsub.cons_cons x, ?_, ?_⟩
          · intro y hy hk
            rcases List.mem_cons.mp hy with rfl | hy
            · exact List.mem_cons_self ..
            · exact List.mem_cons_of_mem _ (hall y hy hk)
          · intro y hy hd
            rcases List.mem_cons.mp hy with rfl | hy
            · exact Bool.noConfusion (hdrop hd true rfl)
            · exact hnone y hy hd
      · rintro halt v ⟨hv, -⟩
        exact ⟨hv.failed, fun ys h => nomatch h⟩
  apply (loop xs [] w).bind
  · rintro ys v ⟨hv, hrest⟩
    obtain ⟨kept, rfl, hsub, hall, hnone⟩ := hrest ys rfl
    refine ends_pure.mpr ⟨hv.answered _, ?_⟩
    intro zs h
    cases h
    simp only [List.append_nil, List.reverse_reverse]
    exact ⟨hsub, hall, hnone⟩
  · rintro halt v ⟨hv, -⟩
    exact ⟨hv.failed, fun ys h => nomatch h⟩

theorem liveKeys_inquiry (host : Host ν η μ) (w : World ν η μ) :
    (liveKeys host).Ends w fun r v => Inquiry r w v ∧ ∀ ks, r = .ok ks →
      ∀ key e, w.cache.find? key = some e → e.pending = true → key ∈ ks := by
  unfold liveKeys
  refine ends_cache.mpr ((filterM_inquiry (fun r : Key × Entry ν η => r.2.pending = true)
    (fun _ => False) ?_ _ w).bind ?_ ?_)
  · intro r v
    split
    · exact ends_pure.mpr ⟨.nothing true v, fun _ b h => by cases h; rfl, fun h => h.elim⟩
    · rename_i hp
      apply (expired_inquiry host r.2 v).bind
      · intro found u hu
        exact ends_pure.mpr ⟨hu.answered _, fun h => absurd h hp, fun h => h.elim⟩
      · intro halt u hu
        exact ⟨hu.failed, fun h => absurd h hp, fun h => h.elim⟩
  · rintro rows v ⟨hv, hrows⟩
    refine ends_pure.mpr ⟨hv.answered _, ?_⟩
    intro ks h key e he hp
    cases h
    have hmem := (hrows rows rfl).2.1 (key, e) (Table.get?_eq_some_iff.mp he) hp
    exact List.mem_map.mpr ⟨(key, e), hmem, rfl⟩
  · rintro halt v ⟨hv, -⟩
    exact ⟨hv.failed, fun ks h => nomatch h⟩

end Act

end ExpiringCache
