import ExpiringCache.Proofs.Eviction
import ExpiringCache.Proofs.Excerpts

/-!
# Rounds work on a snapshot

A round of handlers calls those that were registered when it began, one after another and each of them
once, whatever they answer and whatever they do meanwhile. Registration puts a handler behind those that
are there, and none is ever lost: so it takes part in every round that begins later, and in none that has
begun.
-/

namespace ExpiringCache

variable {ν η μ α : Type}

/-! ## What is said at one depth -/

/-- The callback that is entered at this depth. -/
def Line.callee? (depth : Nat) (l : Line ν η) : Option (Callback ν η) :=
  match l.record with
  | .entered c => if l.calls.length = depth then some c else none
  | _ => none

/-- In the frame of `w` the callbacks in `asked` were entered, one after another, and `said` is what they
returned. -/
structure CallsAndReplies (w v : World ν η μ) (asked : List (Callback ν η)) (said : List (Reply ν η)) :
    Prop where
  calls : v.calls = w.calls
  lines : ∃ seg, v.journal = seg ++ w.journal ∧ (∀ l ∈ seg, w.calls <:+ l.calls) ∧
    excerpt (·.callee? w.calls.length) seg = asked ∧ replies w.calls.length seg = said

namespace CallsAndReplies

variable {w v u : World ν η μ} {asked asked' : List (Callback ν η)} {said said' : List (Reply ν η)}

theorem refl (w : World ν η μ) : CallsAndReplies w w [] [] := ⟨rfl, [], rfl, by simp, rfl, rfl⟩

theorem trans (h : CallsAndReplies w v asked said) (k : CallsAndReplies v u asked' said') :
    CallsAndReplies w u (asked ++ asked') (said ++ said') := by
  obtain ⟨old, hold, ho, hoa, hos⟩ := h.lines
  obtain ⟨new, hnew, hn, hna, hns⟩ := k.lines
  rw [h.calls] at hn hna hns
  refine ⟨k.calls.trans h.calls, new ++ old, ?_, ?_, ?_, ?_⟩
  · rw [hnew, hold, List.append_assoc]
  · exact fun l hl => (List.mem_append.mp hl).elim (hn l) (ho l)
  · rw [excerpt_append, hoa, hna]
  · rw [replies_append, hos, hns]

theorem note {r : Record ν η} (he : (w.line r).callee? w.calls.length = none)
    (hr : (w.line r).reply? w.calls.length = none) : CallsAndReplies w (w.note r) [] [] := by
  refine ⟨rfl, [w.line r], rfl, ?_, ?_, replies_eq_nil ?_⟩
  · intro l hl
    rw [List.mem_singleton.mp hl]
    exact List.suffix_rfl
  · rw [excerpt_singleton, he]
    rfl
  · intro l hl
    rw [List.mem_singleton.mp hl]
    exact hr

end CallsAndReplies

namespace Act

variable {host : Host ν η μ} {w : World ν η μ} {key : Key} {value : ν} {policy : Policy η}

/-- The reply of a call, unless it is unwound. -/
def replyOf (c : Callback ν η) : Except Halt c.Answer → List (Reply ν η)
  | .ok answer => [⟨c, answer⟩]
  | .error _ => []

theorem call_replies (depth : Nat) (c : Callback ν η) (w : World ν η μ) :
    (call host depth c).Ends w fun r v => ∃ seg, v.journal = seg ++ w.journal ∧
      replies w.calls.length seg = replyOf c r := by
  -- the operations of its program reply one level deeper at least
  have hprogram := Runs.attempt (run_runs (perform_performs host depth) (host.respond c)
    (w.note (.entered c)) (Nat.le_refl (w.calls.length + 2)))
  unfold Runs Goes at hprogram
  have hentered : replies w.calls.length [w.line (.entered c)] = [] := rfl
  unfold call callVia
  refine ends_note.mpr (Ends.bind hprogram ?_ ?_)
  · rintro r v ⟨seg, hrun, -⟩
    have hsilent := hrun.ledger.replies_eq_nil (Nat.lt_succ_self _)
    have hj : v.journal = (seg ++ [w.line (.entered c)]) ++ w.journal := by
      rw [hrun.journal, List.append_assoc]
      rfl
    have hbefore : replies w.calls.length (seg ++ [w.line (.entered c)]) = [] := by
      rw [replies_append, hentered, hsilent]
      rfl
    cases r with
    | ok answer =>
      refine ends_note.mpr (ends_pure.mpr ⟨v.line (.returned c answer) :: _, congrArg _ hj, ?_⟩)
      have hlast : (v.line (.returned c answer)).reply? w.calls.length = some ⟨c, answer⟩ := by
        simp [World.line, Line.reply?, show v.calls = w.calls from hrun.calls]
      have h := replies_append w.calls.length [v.line (.returned c answer)]
        (seg ++ [w.line (.entered c)])
      rw [hbefore] at h
      refine h.trans ?_
      simp only [replies, List.filterMap_cons, List.filterMap_nil, hlast]
      rfl
    | error message =>
      refine ends_note.mpr (ends_throw.mpr ⟨v.line (.unwound c) :: _, congrArg _ hj, ?_⟩)
      have h := replies_append w.calls.length [v.line (.unwound c)] (seg ++ [w.line (.entered c)])
      rw [hbefore] at h
      exact h
  · rintro e v ⟨seg, hrun⟩
    refine ⟨seg ++ [w.line (.entered c)], ?_, ?_⟩
    · rw [hrun.journal, List.append_assoc]
      rfl
    · rw [replies_append, hentered, hrun.ledger.replies_eq_nil (Nat.lt_succ_self _)]
      rfl

theorem call_calls_and_replies (depth : Nat) (c : Callback ν η) (w : World ν η μ) :
    (call host depth c).Ends w fun r v => CallsAndReplies w v [c] (replyOf c r) := by
  have hfringe : ∀ l : Line ν η, l.IsFringe w.calls → l.callee? w.calls.length = none := by
    rintro l (⟨a, -, hl⟩ | ⟨-, hl⟩)
    · have hlen : w.calls.length + 1 ≤ l.calls.length := hl.length_le
      unfold Line.callee?
      cases l.record <;> simp
      omega
    · unfold Line.concludes at hl
      unfold Line.callee?
      cases hr : l.record <;> simp_all
  have hentered : (call host depth c).Ends w _ := call_writes depth c hfringe
  have hstretch := call_stretches host depth c w
  refine ((hentered.and (call_replies depth c w)).and hstretch).mono ?_
  rintro r v ⟨⟨⟨hc, seg, hj, hasked⟩, seg', hj', hsaid⟩, hs⟩
  obtain ⟨seg'', hj'', hin⟩ := hs.segment
  obtain rfl : seg = seg' := List.append_cancel_right (hj.symm.trans hj')
  obtain rfl : seg = seg'' := List.append_cancel_right (hj.symm.trans hj'')
  refine ⟨hc, seg, hj, hin, ?_, hsaid⟩
  rw [hasked]
  simp [World.line, Line.callee?]

/-! ## The rounds -/

theorem ask_calls_and_replies (depth : Nat) (handlers : List η) : ∀ w : World ν η μ,
    (handlers.mapM fun handler => call host depth (.expiring handler key value policy)).Ends w
      fun r v => ∀ answers, r = .ok answers → answers.length = handlers.length ∧
        CallsAndReplies w v (handlers.map fun handler => .expiring handler key value policy)
          (votes key value policy handlers answers) := by
  induction handlers with
  | nil =>
    intro w
    rw [List.mapM_nil]
    refine ends_pure.mpr ?_
    intro answers h
    cases h
    exact ⟨rfl, .refl w⟩
  | cons handler handlers ih =>
    intro w
    rw [List.mapM_cons]
    refine (call_calls_and_replies depth (.expiring handler key value policy) w).bind ?_ ?_
    · intro answer w1 hfirst
      refine (ih w1).bind ?_ ?_
      · intro answers w2 hrest
        obtain ⟨hlen, hsaid⟩ := hrest answers rfl
        refine ends_pure.mpr ?_
        intro all h
        cases h
        exact ⟨congrArg (· + 1) hlen, hfirst.trans hsaid⟩
      · intro e w2 _ all h
        cases h
    · intro e w1 _ all h
      cases h

/-- Every handler that was there is asked, also after a veto. -/
theorem askExpiring_calls_and_replies (depth : Nat) (g : Nat) (w : World ν η μ) :
    (askExpiring (call host depth) g key value policy).Ends w fun r v =>
      ∀ answers, r = .ok answers → answers.length = w.cache.expiring.length ∧
        CallsAndReplies w v (w.cache.expiring.map fun handler => .expiring handler key value policy)
          (votes key value policy w.cache.expiring answers) := by
  unfold askExpiring
  refine ends_note.mpr (ends_cache.mpr ((ask_calls_and_replies depth w.cache.expiring _).mono ?_))
  intro r v h answers hr
  obtain ⟨hlen, hsaid⟩ := h answers hr
  exact ⟨hlen, (CallsAndReplies.note rfl rfl).trans hsaid⟩

theorem tell_calls_and_replies (depth : Nat) (handlers : List η) :
    ∀ (running : Disposal) (w : World ν η μ),
    (handlers.foldlM (fun running handler => call host depth (.expired handler key value running))
      running).Ends w fun r v => ∀ final, r = .ok final → ∃ answers,
        answers.length = handlers.length ∧ final = settled running answers ∧
        CallsAndReplies w v ((verdicts key value running handlers answers).map (·.1))
          (verdicts key value running handlers answers) := by
  induction handlers with
  | nil =>
    intro running w
    rw [List.foldlM_nil]
    refine ends_pure.mpr ?_
    intro final h
    cases h
    exact ⟨[], rfl, rfl, .refl w⟩
  | cons handler handlers ih =>
    intro running w
    rw [List.foldlM_cons]
    refine (call_calls_and_replies depth (.expired handler key value running) w).bind ?_ ?_
    · intro answer w1 hfirst
      refine (ih answer w1).mono ?_
      intro r w2 hrest final hr
      obtain ⟨answers, hlen, hfinal, hsaid⟩ := hrest final hr
      exact ⟨answer :: answers, congrArg (· + 1) hlen, hfinal, hfirst.trans hsaid⟩
    · intro e w1 _ final h
      cases h

/-- Every handler that was there is told, with what the one before it decided. -/
theorem tellExpired_calls_and_replies (depth : Nat) (g : Nat) (initial : Disposal) (w : World ν η μ) :
    (tellExpired (call host depth) g key value initial).Ends w fun r v =>
      ∀ final, r = .ok final → ∃ answers, answers.length = w.cache.expired.length ∧
        final = settled initial answers ∧
        CallsAndReplies w v ((verdicts key value initial w.cache.expired answers).map (·.1))
          (verdicts key value initial w.cache.expired answers) := by
  unfold tellExpired
  refine ends_note.mpr (ends_cache.mpr
    ((tell_calls_and_replies depth w.cache.expired initial _).mono ?_))
  intro r v h final hr
  obtain ⟨answers, hlen, hfinal, hsaid⟩ := h final hr
  exact ⟨answers, hlen, hfinal, (CallsAndReplies.note rfl rfl).trans hsaid⟩

/-- Either no round began, and the insertion was passed over after asking its predicate at most; or all
the handlers that were there were asked about it, and it is kept for a veto exactly if one of them
vetoed. -/
def FollowsVotes (w v : World ν η μ) (key : Key) (g : Nat) (fate : Fate ν) : Prop :=
  (fate = .stale ∧ ∃ seg, v.journal = seg ++ w.journal ∧ ∀ l ∈ seg, l.consults = true) ∨
  ∃ (begun ended : World ν η μ) (e : Entry ν η) (policy : Policy η) (answers : List Decision),
    w.cache.insertion? key g = some e ∧ e.policy = some policy ∧
    begun.calls = .deciding key g :: w.calls ∧ begun.cache = w.cache.mark true key g ∧
    answers.length = w.cache.expiring.length ∧
    CallsAndReplies begun ended
      (w.cache.expiring.map fun handler => .expiring handler key e.value policy)
      (votes key e.value policy w.cache.expiring answers) ∧
    ((∃ value, fate = .cancelled value) ↔ .cancel ∈ answers)

/-- Once nobody has vetoed, there is no veto any more. -/
theorem unopposed_ends (invoke : Invoke ν η μ) (key : Key) (g : Nat) (w : World ν η μ) :
    (do
      match ← commit host key g with
      | none => return .stale
      | some gone =>
        disposeEvicted invoke key gone
        return .evicted : Act ν η μ (Fate ν)).Ends w fun r _ =>
      ∀ fate, r = .ok fate → ¬∃ value, fate = .cancelled value := by
  refine (ends_self (commit host key g) w).bind ?_ ?_
  · intro gone v _
    cases gone with
    | none => exact ends_pure.mpr (by simp)
    | some gone =>
      refine (ends_self (disposeEvicted invoke key gone) v).bind ?_ ?_
      · exact fun _ u _ => ends_pure.mpr (by simp)
      · exact fun _ u _ => by simp
  · exact fun _ v _ => by simp

theorem expire_follows_votes (depth : Nat) (key : Key) (g : Nat) (w : World ν η μ) :
    (expire host (call host depth) key g).Ends w fun r v =>
      ∀ fate, r = .ok fate → FollowsVotes w v key g fate := by
  unfold expire
  refine (candidate?_asks host key g w).bind ?_ ?_
  · rintro found w1 ⟨hw1, hfound⟩
    match found, hfound with
    | none, _ =>
      refine ends_pure.mpr ?_
      intro fate h
      cases h
      refine Or.inl ⟨rfl, ?_⟩
      rcases hw1 with rfl | ⟨policy, ha⟩
      · exact ⟨[], rfl, by simp⟩
      · obtain ⟨asked, hj, hasked⟩ := ha.lines
        exact ⟨asked, hj, fun l hl => (hasked l hl).1⟩
    | some (e, policy), hfound =>
      obtain ⟨he, -, hp, ha⟩ := hfound e policy rfl
      have hcache := ha.cache
      have hround : (askExpiring (call host depth) g key e.value policy).Ends _ _ :=
        askExpiring_calls_and_replies depth g ((w1.change (.mark true key g)).push (.deciding key g))
      rw [World.cache_push, World.cache_change, hcache] at hround
      refine Ends.bind (P := fun r _ => ∀ answers, r = .ok answers → ∀ v (fate : Fate ν),
        ((∃ value, fate = .cancelled value) ↔ .cancel ∈ answers) → FollowsVotes w v key g fate)
        (ends_bracket (hround.mono ?_)) ?_ ?_
      · intro r ended h answers hr v fate hveto
        obtain ⟨hlen, hsaid⟩ := h answers hr
        exact Or.inr ⟨_, ended, e, policy, answers, he, hp, by rw [← ha.calls]; rfl,
          by rw [← hcache]; rfl, hlen, hsaid, hveto⟩
      · intro answers w2 h
        have hvotes := h answers rfl
        refine ends_note.mpr ?_
        split
        · rename_i hv
          refine ends_change.mpr (ends_pure.mpr ?_)
          intro fate hr
          cases hr
          exact hvotes _ _ (by simpa using hv)
        · rename_i hv
          refine (unopposed_ends (call host depth) key g _).mono ?_
          intro r v hno fate hr
          exact hvotes v fate
            ⟨fun hc => absurd hc (hno fate hr), fun hc => absurd (by simpa using hc) hv⟩
      · intro halt w2 _ fate h
        cases h
  · intro halt w1 _ fate h
    cases h

end Act

/-! ## Handlers are added behind the others -/

/-- Whoever was registered still is, in the same place. -/
structure Cache.Enlists (c d : Cache ν η) : Prop where
  expiring : c.expiring <+: d.expiring
  expired : c.expired <+: d.expired

namespace Cache.Enlists

variable {c d e : Cache ν η}

theorem of_same (hx : d.expiring = c.expiring) (hd : d.expired = c.expired) : c.Enlists d :=
  ⟨hx ▸ List.prefix_rfl, hd ▸ List.prefix_rfl⟩

theorem refl (c : Cache ν η) : c.Enlists c := of_same rfl rfl

theorem trans (h : c.Enlists d) (k : d.Enlists e) : c.Enlists e :=
  ⟨h.expiring.trans k.expiring, h.expired.trans k.expired⟩

end Cache.Enlists

/-- Every line shows the handlers that earlier ones show, and so does the cache. -/
structure World.Ranked (w : World ν η μ) : Prop where
  lines : ∀ l ∈ w.journal, l.cache.Enlists w.cache
  order : w.journal.Pairwise fun later earlier => earlier.cache.Enlists later.cache

theorem World.Ranked.note {w : World ν η μ} (h : w.Ranked) (r : Record ν η) : (w.note r).Ranked := by
  refine ⟨?_, List.pairwise_cons.mpr ⟨h.lines, h.order⟩⟩
  intro l hl
  rcases List.mem_cons.mp hl with rfl | hl
  · exact .refl w.cache
  · exact h.lines l hl

/-- Work that lost no handler. -/
structure KeepsHandlers (w v : World ν η μ) : Prop where
  cache : w.cache.Enlists v.cache
  ranked : w.Ranked → v.Ranked

namespace KeepsHandlers

variable {w v u : World ν η μ}

theorem of_cache (hc : w.cache.Enlists v.cache) (hj : v.journal = w.journal) : KeepsHandlers w v := by
  refine ⟨hc, fun h => ⟨?_, hj ▸ h.order⟩⟩
  rw [hj]
  exact fun l hl => (h.lines l hl).trans hc

theorem same (hc : v.cache = w.cache) (hj : v.journal = w.journal) : KeepsHandlers w v :=
  .of_cache (hc ▸ .refl w.cache) hj

theorem trans (h : KeepsHandlers w v) (k : KeepsHandlers v u) : KeepsHandlers w u :=
  ⟨h.cache.trans k.cache, fun hw => k.ranked (h.ranked hw)⟩

theorem note (r : Record ν η) (w : World ν η μ) : KeepsHandlers w (w.note r) :=
  ⟨.refl w.cache, fun h => h.note r⟩

theorem change {f : Cache ν η → Cache ν η} (h : w.cache.Enlists (f w.cache)) :
    KeepsHandlers w (w.change f) := .of_cache h rfl

theorem noted (h : KeepsHandlers w v) (r : Record ν η) : KeepsHandlers w (v.note r) :=
  h.trans (.note r v)

theorem placed (key : Key) (value : ν) (policy : Option (Policy η)) (w : World ν η μ) :
    KeepsHandlers w (w.placed key value policy) := by
  have hinsert : KeepsHandlers w (w.change (.insert w.now key value policy)) :=
    .change (.of_same rfl rfl)
  unfold World.placed
  cases w.cache.find? key with
  | none => exact hinsert.noted _
  | some old => exact (hinsert.noted _).noted _

theorem emptied (w : World ν η μ) : KeepsHandlers w w.emptied := by
  have cleared : ∀ (rows : List (Key × Entry ν η)) (v : World ν η μ),
      KeepsHandlers v (v.noteCleared rows) := by
    intro rows
    induction rows with
    | nil => exact fun v => .same rfl rfl
    | cons r rows ih => exact fun v => (KeepsHandlers.note _ v).trans (ih _)
  have hdrain : KeepsHandlers w (w.change .drain) := .change (.of_same rfl rfl)
  exact hdrain.trans (cleared _ _)

theorem asks {policy : Policy η} {answer : Option Bool} (h : w.Asks policy answer v) :
    KeepsHandlers w v := by
  cases h with
  | timed => exact .same rfl rfl
  | custom predicate answer m =>
    have hm : KeepsHandlers w ({ w with memory := m } : World ν η μ) := .same rfl rfl
    exact hm.noted _

theorem examines {key : Key} {g : Nat} {answer : Option Bool} (h : w.Examines key g answer v) :
    KeepsHandlers w v := by
  cases h with
  | asked e policy answer v he hp ha => exact .asks ha
  | _ => exact .same rfl rfl

theorem commits {key : Key} {g : Nat} {upshot : Upshot} (h : w.Commits key g upshot v) :
    KeepsHandlers w v := by
  cases h with
  | stale hx => exact .examines hx
  | unwound hx => exact .examines hx
  | evicted e he hx => exact ((KeepsHandlers.examines hx).trans (.change (.of_same rfl rfl))).noted _

theorem paths : Paths (KeepsHandlers : World ν η μ → World ν η μ → Prop) (fun _ => True) where
  still w := .same rfl rfl
  trans := .trans
  memory _ := .same rfl rfl
  note r _ _ := .note r _
  retune _ h := .change ⟨h.expiring, h.expired⟩
  touch _ _ _ _ := .change (.of_same rfl rfl)
  read _ _ := (KeepsHandlers.change (.of_same rfl rfl)).noted _
  vetoed _ _ _ _ _ := (KeepsHandlers.note _ _).trans (.change (.of_same rfl rfl))
  concluded _ _ _ _ _ _ _ h := (KeepsHandlers.note _ _).trans (.commits h)
  close _ := (KeepsHandlers.change (.of_same rfl rfl)).trans (.emptied _)
  during {w _} a _ h := (KeepsHandlers.same (w := w) (v := w.push a) rfl rfl).trans
    (h.trans (.same rfl rfl))
  deciding {w v} key g e _ _ _ h := by
    have hin : KeepsHandlers w ((w.change (.mark true key g)).push (.deciding key g)) :=
      .of_cache (.of_same rfl rfl) rfl
    have hout : KeepsHandlers v ((v.change (.mark false key g)).pop) := .of_cache (.of_same rfl rfl) rfl
    exact (hin.trans h).trans hout
  holding {w v} key acquired slot _ h := by
    have hin : KeepsHandlers w ((w.change ({ · with admission := acquired })).push
        (.fetching key slot)) := .of_cache (.of_same rfl rfl) rfl
    have hout : KeepsHandlers v
        ((v.change fun c => { c with admission := c.admission.release key slot }).pop) :=
      .of_cache (.of_same rfl rfl) rfl
    exact (hin.trans h).trans hout

theorem admits (host : Host ν η μ) (op : Operation ν η) :
    Act.Admits host KeepsHandlers (fun _ => True) op :=
  paths.admits (fun key _ w value policy => placed key value policy w)
    (fun _ _ _ _ => (KeepsHandlers.change (.of_same rfl rfl)).noted _) emptied
    (fun _ => .change (.of_same rfl rfl)) op

theorem governs (host : Host ν η μ) : Act.Governs host KeepsHandlers where
  paths := paths
  elapsed _ _ := .same rfl rfl
  scheduled _ _ := .change (.of_same rfl rfl)
  admits := admits host

end KeepsHandlers

section

variable {host : Host ν η μ} {settings : Settings η} {hosting : Hosting} {w : World ν η μ}

theorem World.ranked_fresh (t : Instant) (memory : μ) :
    (World.fresh settings hosting t memory : World ν η μ).Ranked :=
  ⟨fun _ hl => absurd hl List.not_mem_nil, List.Pairwise.nil⟩

theorem Reachable.ranked (h : Reachable host settings hosting w) : w.Ranked := by
  have hg := KeepsHandlers.governs host
  obtain ⟨t, memory, hs⟩ := h.path hg.paths.still .trans fun bound p => hg.turn bound p
  exact hs.ranked (World.ranked_fresh t memory)

end

/-- An operation that changes the cache in one go; the line of its end shows the change. -/
theorem Act.perform_changes {host : Host ν η μ} {op : Operation ν η} {f : Cache ν η → Cache ν η}
    (hop : ∀ invoke retries, carryOut host invoke retries op = change f >>= fun _ => pure .done)
    (hf : ∀ c, (f c).handle = c.handle) (depth : Nat) {w : World ν η μ}
    (hh : w.cache.handle = .held) :
    (perform host (depth + 1) op).Returns w fun answer v => answer = .done ∧
      v.cache = f w.cache ∧ v.journal = v.line (.finished op) :: w.journal := by
  have hcarried : (carryOut host (call host depth) depth op).Returns (w.push (.operation op))
      fun answer w1 => (answer = .done ∧ w1 = (w.push (.operation op)).change f) ∧
        w1.cache.handle = .held := by
    rw [hop]
    exact .change (.pure ⟨⟨rfl, rfl⟩, (hf w.cache).trans hh⟩)
  refine (perform_finishes hh hcarried).mono ?_
  rintro answer v ⟨w1, ⟨hanswer, rfl⟩, rfl⟩
  exact ⟨hanswer, rfl, rfl⟩

/-- Rounds work on a snapshot. A round of either kind that is not unwound calls, in any world, exactly the
handlers that were registered when it began, each once and in their order, and they answer one by one;
the insertion is kept for a veto exactly if one of them vetoed, and what becomes of the value is what the
last of those that are told of the eviction decides, each hearing what the one before it decided. A
registration puts its handler behind the others, and none is ever lost: later lines of a journal show the
handlers that earlier ones show, in the same places, and so what the handlers of every round that ended
replied is known from the line by which it began. -/
theorem rounds_work_on_a_snapshot (host : Host ν η μ) :
    (∀ depth g key value policy (w : World ν η μ),
      (Act.askExpiring (Act.call host depth) g key value policy).Ends w fun r v =>
        ∀ answers, r = .ok answers → answers.length = w.cache.expiring.length ∧
          CallsAndReplies w v (w.cache.expiring.map fun handler => .expiring handler key value policy)
            (votes key value policy w.cache.expiring answers)) ∧
    (∀ depth key g (w : World ν η μ), (Act.expire host (Act.call host depth) key g).Ends w fun r v =>
      ∀ fate, r = .ok fate → Act.FollowsVotes w v key g fate) ∧
    (∀ depth g key value initial (w : World ν η μ),
      (Act.tellExpired (Act.call host depth) g key value initial).Ends w fun r v =>
        ∀ final, r = .ok final → ∃ answers, answers.length = w.cache.expired.length ∧
          final = settled initial answers ∧
          CallsAndReplies w v ((verdicts key value initial w.cache.expired answers).map (·.1))
            (verdicts key value initial w.cache.expired answers)) ∧
    (∀ depth handler (w : World ν η μ), w.cache.handle = .held →
      (Act.perform host (depth + 1) (.onExpiring handler)).Returns w (fun answer v =>
        answer = .done ∧ v.cache = { w.cache with expiring := w.cache.expiring ++ [handler] } ∧
        v.journal = v.line (.finished (.onExpiring handler)) :: w.journal) ∧
      (Act.perform host (depth + 1) (.onExpired handler)).Returns w (fun answer v =>
        answer = .done ∧ v.cache = { w.cache with expired := w.cache.expired ++ [handler] } ∧
        v.journal = v.line (.finished (.onExpired handler)) :: w.journal)) ∧
    ∀ settings hosting (w : World ν η μ), Reachable host settings hosting w →
      ∀ l before, l :: before <:+ w.journal →
        (l.cache.expiring <+: w.cache.expiring ∧ l.cache.expired <+: w.cache.expired) ∧
        (∀ m ∈ before, m.cache.expiring <+: l.cache.expiring ∧ m.cache.expired <+: l.cache.expired) ∧
        (∀ g key value answers, l.record = .decided g key value answers →
          ∃ policy start rest, start.record = .offered g key value policy ∧
            start.calls = .deciding key g :: l.calls ∧
            answers.length = start.cache.expiring.length ∧
            Since start rest (votes key value policy start.cache.expiring answers) before) ∧
        ∀ g key final, l.record = .disposed g key final →
          ∃ value initial answers start rest, start.record = .announced g key value initial ∧
            start.calls = .telling key g :: l.calls ∧
            answers.length = start.cache.expired.length ∧ final = settled initial answers ∧
            Since start rest (verdicts key value initial start.cache.expired answers) before := by
  refine ⟨?_, Act.expire_follows_votes, ?_, ?_, ?_⟩
  · intro depth g key value policy w
    exact Act.askExpiring_calls_and_replies depth g w
  · intro depth g key value initial w
    exact Act.tellExpired_calls_and_replies depth g initial w
  · intro depth handler w hh
    exact ⟨Act.perform_changes (f := fun c => { c with expiring := c.expiring ++ [handler] })
        (fun _ _ => rfl) (fun _ => rfl) depth hh,
      Act.perform_changes (f := fun c => { c with expired := c.expired ++ [handler] })
        (fun _ _ => rfl) (fun _ => rfl) depth hh⟩
  · intro settings hosting w h l before hl
    have hranked := h.ranked
    have hchronicle := h.recorded.chronicle
    have hlast := hranked.lines l (hl.subset (List.mem_cons_self ..))
    have horder := List.pairwise_cons.mp (hranked.order.sublist hl.sublist)
    refine ⟨⟨hlast.expiring, hlast.expired⟩, ?_, ?_, ?_⟩
    · intro m hm
      have hearlier := horder.1 m hm
      exact ⟨hearlier.expiring, hearlier.expired⟩
    · intro g key value answers hr
      exact hchronicle.lawful hl hr
    · intro g key final hr
      exact hchronicle.lawful hl hr

/-! ## A handler that is registered while others decide -/

/-- One of its handlers registers another one and then vetoes. -/
def Host.recruiting : Host Nat String Unit where
  accepts _ := true
  consult _ _ memory := (.ok true, memory)
  respond
    | .expiring handler .. =>
      if handler = "first" then .perform (.onExpiring "second") fun _ => .done .cancel
      else .done .proceed
    | .expired .. => .done .dispose
    | .release .. => .done ()
    | .factory .. => .done (.ok 3)
    | .defaultPolicy .. => .done none

def Program.recruit : Program Nat String Unit Unit :=
  .perform (.onExpiring "first") fun _ =>
  .perform (.onExpiring "last") fun _ =>
  .perform (.insert "k" 1 ⟨some (.duration (.ofMillis 5) none), false⟩) fun _ =>
  .wait (.ofMillis 5) (.perform (.get "k") fun _ => .done ())

def World.recruited : World Nat String Unit :=
  (Act.turn .recruiting 6 .recruit).after (.fresh .keeping .task .zero ())

/-- Two of the three handlers took part in the round. -/
theorem recruited_round_called_two :
    (World.recruited.journal.any fun l => l.record matches .decided 0 _ _ [.cancel, .proceed]) = true ∧
    (∀ l before key value, l :: before <:+ World.recruited.journal →
      l.record = .decided 0 key value [.cancel, .proceed] →
      ∃ start, start.cache.expiring.length = 2 ∧
        ∃ policy rest, Since start rest
          (votes key value policy start.cache.expiring [.cancel, .proceed]) before) ∧
    (Act.perform .recruiting 1 (.onExpiring "late")).Returns World.recruited fun _ v =>
      v.cache.expiring = ["first", "last", "second", "late"] := by
  obtain ⟨-, -, -, hregister, hreachable⟩ := rounds_work_on_a_snapshot Host.recruiting
  have hbetween : Between .recruiting .keeping .task World.recruited :=
    .turn 6 .recruit (.ok ()) (.fresh .zero ()) rfl
  refine ⟨by decide +kernel, ?_, ?_⟩
  · intro l before key value hl hr
    obtain ⟨-, -, hdecided, -⟩ := hreachable _ _ _ (.between hbetween) l before hl
    obtain ⟨policy, start, rest, -, -, hlen, hsince⟩ := hdecided 0 key value _ hr
    exact ⟨start, hlen.symm, policy, rest, hsince⟩
  · have hheld : World.recruited.cache.handle = .held := by decide +kernel
    have hshown : World.recruited.cache.expiring = ["first", "last", "second"] := by decide +kernel
    refine (hregister 0 "late" World.recruited hheld).1.mono ?_
    rintro answer v ⟨-, hv, -⟩
    rw [hv, hshown]
    rfl

end ExpiringCache
