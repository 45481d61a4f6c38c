import ExpiringCache.Proofs.Deciding
import ExpiringCache.Proofs.Targets

/-!
# Sweeps as filters

Handlers may go by nothing but what they are told and do no more than think. A sweep comes to a
filter over the rows then: entries that are live or that a handler spares stay as they are, and all
others leave. In which order the rows are visited does not matter.
-/

namespace ExpiringCache

variable {ν η μ : Type}

/-- Predicates answer by the instant, handlers that may veto answer by what they are told, and no
handler does more than think. -/
structure Host.Steady (host : Host ν η μ) (holds : η → Instant → Bool)
    (verdict : η → Key → ν → Policy η → Decision) : Prop where
  consult : ∀ predicate t m, (host.consult predicate t m).1 = .ok (holds predicate t)
  expiring : ∀ handler key value policy t m,
    ((host.respond (.expiring handler key value policy)).think t m).map Prod.fst =
      some (verdict handler key value policy)
  expired : ∀ handler key value running t m,
    ((host.respond (.expired handler key value running)).think t m).isSome = true
  release : ∀ handler key value t m,
    ((host.respond (.release handler key value)).think t m).isSome = true

section

variable (holds : η → Instant → Bool) (verdict : η → Key → ν → Policy η → Decision)

def Entry.answers (handlers : List η) (key : Key) (e : Entry ν η) : List Decision :=
  match e.policy with
  | none => []
  | some policy => handlers.map fun handler => verdict handler key e.value policy

def Entry.spared (handlers : List η) (key : Key) (e : Entry ν η) : Bool :=
  (e.answers verdict handlers key).contains .cancel

namespace Cache

/-- The rounds that are run over an expired entry. -/
def proceedings (c : Cache ν η) (r : Key × Entry ν η) : List (Record ν η) :=
  match r.2.policy with
  | none => []
  | some policy =>
    .offered r.2.generation r.1 r.2.value policy ::
      .decided r.2.generation r.1 r.2.value (r.2.answers verdict c.expiring r.1) ::
        if r.2.spared verdict c.expiring r.1 then []
        else [.announced r.2.generation r.1 r.2.value (.ofBool c.settings.dispose)]

/-- The cache after these rounds. -/
def judge (c : Cache ν η) (r : Key × Entry ν η) : Cache ν η :=
  if r.2.spared verdict c.expiring r.1 then c.count .cancellation else c.takeOut r.1 .expiration

def doomed (now : Instant) (c : Cache ν η) (r : Key × Entry ν η) : Bool :=
  r.2.past holds now && !r.2.spared verdict c.expiring r.1

def vetoed (now : Instant) (c : Cache ν η) (r : Key × Entry ν η) : Bool :=
  r.2.past holds now && r.2.spared verdict c.expiring r.1

end Cache

end

def Table.filter {κ α : Type} (t : Table κ α) (p : κ × α → Bool) : Table κ α where
  rows := t.rows.filter p
  distinct := t.distinct.sublist (List.filter_sublist.map Prod.fst)

/-- The cache without the rows that `p` holds of, which expired, and with a number of vetoes. -/
def Cache.sift (p : Key × Entry ν η → Bool) (vetoes : Nat) (c : Cache ν η) : Cache ν η :=
  let kept := c.entries.filter fun r => !p r
  let gone := c.entries.rows.countP p
  { c with
    entries := kept
    stats := { c.stats with
      expirations := c.stats.expirations + gone
      cancelled := c.stats.cancelled + vetoes
      total := if gone = 0 then c.stats.total else kept.size } }

/-! ## Rounds -/

def Record.isRound : Record ν η → Bool
  | .offered .. => true
  | .decided .. => true
  | .announced .. => true
  | _ => false

/-- The rounds that lines tell of, oldest first. -/
def roundsOf (seg : List (Line ν η)) : List (Record ν η) :=
  ((seg.map (·.record)).filter (·.isRound)).reverse

theorem roundsOf_append (new old : List (Line ν η)) :
    roundsOf (new ++ old) = roundsOf old ++ roundsOf new := by
  simp only [roundsOf, List.map_append, List.filter_append, List.reverse_append]

/-- From `w` to `w'` no time passes and `told` are the rounds that are run. -/
structure Proceeds (told : List (Record ν η)) (w w' : World ν η μ) : Prop where
  now : w'.now = w.now
  calls : w'.calls = w.calls
  lines : ∃ seg, w'.journal = seg ++ w.journal ∧ roundsOf seg = told

namespace Proceeds

variable {told more : List (Record ν η)} {w w' w'' : World ν η μ}

theorem same (hn : w'.now = w.now) (hc : w'.calls = w.calls) (hj : w'.journal = w.journal) :
    Proceeds [] w w' := ⟨hn, hc, [], hj, rfl⟩

theorem refl (w : World ν η μ) : Proceeds [] w w := same rfl rfl rfl

theorem trans (h : Proceeds told w w') (k : Proceeds more w' w'') :
    Proceeds (told ++ more) w w'' := by
  obtain ⟨old, hold, ho⟩ := h.lines
  obtain ⟨new, hnew, hn⟩ := k.lines
  refine ⟨k.now.trans h.now, k.calls.trans h.calls, new ++ old, ?_, ?_⟩
  · rw [hnew, hold, List.append_assoc]
  · rw [roundsOf_append, ho, hn]

theorem quiet (h : Proceeds told w w') (k : Proceeds [] w' w'') : Proceeds told w w'' := by
  have hall := h.trans k
  rwa [List.append_nil] at hall

theorem note {r : Record ν η} (hr : r.isRound = false) : Proceeds [] w (w.note r) := by
  refine ⟨rfl, rfl, [w.line r], rfl, ?_⟩
  simp [roundsOf, World.line, hr]

theorem round {r : Record ν η} (hr : r.isRound = true) : Proceeds [r] w (w.note r) := by
  refine ⟨rfl, rfl, [w.line r], rfl, ?_⟩
  simp [roundsOf, World.line, hr]

theorem inside {a : Activity ν η} (h : Proceeds told (w.push a) w') : Proceeds told w w'.pop := by
  refine ⟨h.now, ?_, h.lines⟩
  rw [World.calls_pop, h.calls]
  rfl

end Proceeds

namespace Act

variable {host : Host ν η μ} {holds : η → Instant → Bool}
  {verdict : η → Key → ν → Policy η → Decision} {perform : Operation ν η → Act ν η μ (Answer ν)}
  {w : World ν η μ} {key : Key} {e : Entry ν η} {policy : Policy η}

theorem callVia_thought {c : Callback ν η} {a : c.Answer} {m : μ}
    (h : (host.respond c).think w.now w.memory = some (a, m)) :
    (callVia host perform c).Returns w fun v w' =>
      v = a ∧ w'.cache = w.cache ∧ Proceeds [] w w' := by
  refine (callVia_of_think h).mono ?_
  rintro v w' ⟨rfl, rfl⟩
  have h1 : Proceeds [] w (w.note (.entered c)) := .note rfl
  have h2 : Proceeds [] w { w.note (.entered c) with memory := m } := h1.quiet (.same rfl rfl rfl)
  exact ⟨rfl, rfl, h2.quiet (.note rfl)⟩

theorem ask_verdicts (hs : host.Steady holds verdict) {value : ν} (handlers : List η) :
    ∀ w : World ν η μ, (handlers.mapM fun handler =>
      callVia host perform (.expiring handler key value policy)).Returns w fun answers w' =>
        answers = (handlers.map fun handler => verdict handler key value policy) ∧
          w'.cache = w.cache ∧ Proceeds [] w w' := by
  induction handlers with
  | nil =>
    intro w
    rw [List.mapM_nil]
    exact .pure ⟨rfl, rfl, .refl w⟩
  | cons handler handlers ih =>
    intro w
    obtain ⟨⟨a, m⟩, hthink, ha⟩ :=
      Option.map_eq_some_iff.mp (hs.expiring handler key value policy w.now w.memory)
    rw [List.mapM_cons]
    refine .bind (callVia_thought hthink) ?_
    rintro answer w1 ⟨rfl, hc1, h1⟩
    refine .bind (ih w1) ?_
    rintro answers w2 ⟨rfl, hc2, h2⟩
    refine .pure ⟨?_, hc2.trans hc1, h1.trans h2⟩
    rw [List.map_cons, ← ha]

theorem tell_thinks (hs : host.Steady holds verdict) {value : ν} (handlers : List η) :
    ∀ (running : Disposal) (w : World ν η μ), (handlers.foldlM (fun running handler =>
      callVia host perform (.expired handler key value running)) running).Returns w fun _ w' =>
        w'.cache = w.cache ∧ Proceeds [] w w' := by
  induction handlers with
  | nil =>
    intro running w
    exact .pure ⟨rfl, .refl w⟩
  | cons handler handlers ih =>
    intro running w
    obtain ⟨⟨a, m⟩, hthink⟩ :=
      Option.isSome_iff_exists.mp (hs.expired handler key value running w.now w.memory)
    rw [List.foldlM_cons]
    refine .bind (callVia_thought hthink) ?_
    rintro answer w1 ⟨-, hc1, h1⟩
    refine (ih answer w1).mono ?_
    rintro _ w2 ⟨hc2, h2⟩
    exact ⟨hc2.trans hc1, h1.trans h2⟩

theorem release_thinks (hs : host.Steady holds verdict) (key : Key) (e : Entry ν η)
    (w : World ν η μ) : (release (callVia host perform) key e).Returns w fun _ w' =>
      w'.cache = w.cache ∧ Proceeds [] w w' := by
  unfold release
  refine .cache ?_
  cases w.cache.settings.release with
  | none => exact .pure ⟨rfl, .refl w⟩
  | some handler =>
    obtain ⟨⟨a, m⟩, hthink⟩ :=
      Option.isSome_iff_exists.mp (hs.release handler key e.value w.now w.memory)
    have hcall : (callVia host perform (.release handler key e.value)).Returns
        (w.push (.releasing key e.generation)) fun v w' => v = a ∧ w'.cache = w.cache ∧
          Proceeds [] (w.push (.releasing key e.generation)) w' := callVia_thought hthink
    refine .bracket (hcall.mono ?_)
    rintro _ w1 ⟨-, hc, h⟩
    exact ⟨hc, h.inside⟩

theorem disposeEvicted_thinks (hs : host.Steady holds verdict) (key : Key) (gone : Entry ν η)
    (w : World ν η μ) : (disposeEvicted (callVia host perform) key gone).Returns w fun _ w' =>
      w'.cache = w.cache ∧ Proceeds [.announced gone.generation key gone.value
        (.ofBool w.cache.settings.dispose)] w w' := by
  unfold disposeEvicted tellExpired
  refine .cache (.bind (.bracket (Q := fun _ w' => w'.cache = w.cache ∧
    Proceeds [.announced gone.generation key gone.value (.ofBool w.cache.settings.dispose)] w w')
    ?_) ?_)
  · refine .note (.cache ((tell_thinks hs _ _ _).mono ?_))
    rintro final w1 ⟨hc, h⟩
    exact ⟨hc, Proceeds.inside ((Proceeds.round rfl).quiet h)⟩
  · rintro final w1 ⟨hc1, h1⟩
    refine .note ?_
    have h2 := h1.quiet (.note (r := .disposed gone.generation key final) rfl)
    split
    · refine (release_thinks hs key gone _).mono ?_
      rintro _ w2 ⟨hc2, h3⟩
      exact ⟨hc2.trans hc1, h2.quiet h3⟩
    · exact .pure ⟨hc1, h2⟩

theorem expired_answers (hs : host.Steady holds verdict) (e : Entry ν η) (w : World ν η μ) :
    (expired host e).Returns w fun found w' => found = e.past holds w.now ∧
      w'.cache = w.cache ∧ Proceeds [] w w' := by
  unfold expired
  show (e.expired (consult host) w.now).Returns w _
  unfold Entry.past Entry.expired
  cases e.policy with
  | none => exact .pure ⟨rfl, rfl, .refl w⟩
  | some policy =>
    cases policy with
    | custom predicate =>
      have hsays := hs.consult predicate w.now w.memory
      cases hr : host.consult predicate w.now w.memory with
      | mk answer m =>
        rw [hr] at hsays
        have hrun : consult host predicate w.now w = .ok (holds predicate w.now)
            ({ w with memory := m }.note
              (.consulted predicate (some (holds predicate w.now)))) := by
          unfold consult
          rw [hr, show answer = .ok (holds predicate w.now) from hsays]
        have hsame : Proceeds [] w { w with memory := m } := .same rfl rfl rfl
        exact ⟨_, _, hrun, rfl, rfl, hsame.quiet (.note rfl)⟩
    | _ => exact .pure ⟨rfl, rfl, .refl w⟩

end Act

/-! ## One entry -/

namespace Act

variable {host : Host ν η μ} {holds : η → Instant → Bool}
  {verdict : η → Key → ν → Policy η → Decision} {perform : Operation ν η → Act ν η μ (Answer ν)}
  {w : World ν η μ} {key : Key} {e : Entry ν η} {policy : Policy η}

theorem candidate?_answers (hs : host.Steady holds verdict) (hf : w.cache.find? key = some e)
    (hp : e.pending = false) (hq : e.policy = some policy) (hx : e.past holds w.now = true) :
    (candidate? host key e.generation).Returns w fun r w' => r = some (e, policy) ∧
      w'.cache = w.cache ∧ Proceeds [] w w' := by
  refine candidate?_of_expired hf hp hq ((expired_answers hs e w).mono ?_)
  rintro found w1 ⟨rfl, h⟩
  exact ⟨hx, h⟩

theorem deciding_verdicts (hs : host.Steady holds verdict) (g : Nat) (value : ν)
    (hp : ∀ e, w.cache.find? key = some e → e.pending = false) :
    (deciding key g (askExpiring (callVia host perform) g key value policy)).Returns w
      fun answers w' =>
        answers = (w.cache.expiring.map fun handler => verdict handler key value policy) ∧
        w'.cache = w.cache ∧ Proceeds [.offered g key value policy] w w' := by
  unfold deciding askExpiring
  refine .bracket (.note (.cache ((ask_verdicts hs _ _).mono ?_)))
  rintro answers w1 ⟨rfl, hc, h⟩
  refine ⟨rfl, ?_, ?_⟩
  · show w1.cache.mark false key g = _
    rw [hc]
    exact Cache.mark_mark hp
  · have h1 : Proceeds [] w (w.change (.mark true key g)) := .same rfl rfl rfl
    have h2 : Proceeds [.offered g key value policy] (w.change (.mark true key g)) w1.pop :=
      Proceeds.inside (a := .deciding key g) ((Proceeds.round rfl).quiet h)
    exact (h1.trans h2).quiet (.same rfl rfl rfl)

theorem commit_takes (hs : host.Steady holds verdict) (hf : w.cache.find? key = some e)
    (hq : e.policy = some policy) (hx : e.past holds w.now = true) :
    (commit host key e.generation).Returns w fun r w' => r = some e ∧
      w'.cache = w.cache.takeOut key .expiration ∧ Proceeds [] w w' := by
  have hexpired : (expired host e).Returns w fun found v => found = true ∧ v.cache = w.cache ∧
      Proceeds [] w v := (expired_answers hs e w).mono fun _ _ h => ⟨h.1.trans hx, h.2⟩
  refine (commit_of_expired hf hq hexpired).mono ?_
  rintro r w' ⟨rfl, w1, ⟨hc, h1⟩, rfl⟩
  have h2 : Proceeds [] w (w1.change (.takeOut key .expiration)) := h1.quiet (.same rfl rfl rfl)
  refine ⟨rfl, ?_, h2.quiet (.note rfl)⟩
  show w1.cache.takeOut key .expiration = _
  rw [hc]

theorem expire_judges (hs : host.Steady holds verdict) {r : Key × Entry ν η}
    (hf : w.cache.find? r.1 = some r.2) (hp : r.2.pending = false)
    (hx : r.2.past holds w.now = true) :
    (expire host (callVia host perform) r.1 r.2.generation).Returns w fun fate w' =>
      fate = (if r.2.spared verdict w.cache.expiring r.1 then .cancelled r.2.value else .evicted) ∧
        w'.cache = w.cache.judge verdict r ∧ Proceeds (w.cache.proceedings verdict r) w w' := by
  obtain ⟨key, e⟩ := r
  obtain ⟨policy, hq⟩ := Entry.policy_of_past hx
  have hans : e.answers verdict w.cache.expiring key =
      w.cache.expiring.map fun handler => verdict handler key e.value policy := by
    unfold Entry.answers
    rw [hq]
  unfold expire
  refine .bind (candidate?_answers hs hf hp hq hx) ?_
  rintro found w1 ⟨rfl, hc1, h1⟩
  have hpend : ∀ e', w1.cache.find? key = some e' → e'.pending = false := by
    intro e' he'
    rw [hc1, hf] at he'
    cases he'
    exact hp
  refine .bind (deciding_verdicts hs e.generation e.value hpend) ?_
  rintro answers w2 ⟨rfl, hc2, h2⟩
  rw [hc1] at hc2
  rw [hc1, ← hans]
  have h3 : Proceeds [.offered e.generation key e.value policy,
      .decided e.generation key e.value (e.answers verdict w.cache.expiring key)] w
      (w2.note (.decided e.generation key e.value (e.answers verdict w.cache.expiring key))) :=
    (h1.trans h2).trans (.round rfl)
  refine .note ?_
  cases hv : e.spared verdict w.cache.expiring key with
  | true =>
    rw [if_pos (show (e.answers verdict w.cache.expiring key).contains .cancel = true from hv)]
    refine .change (.pure ⟨rfl, ?_, ?_⟩)
    · show w2.cache.count .cancellation = _
      rw [hc2, Cache.judge, if_pos hv]
    · rw [Cache.proceedings, hq]
      simp only [hv, if_true]
      exact h3.quiet (.same rfl rfl rfl)
  | false =>
    rw [if_neg (show ¬ (e.answers verdict w.cache.expiring key).contains .cancel = true from
      Bool.eq_false_iff.mp hv)]
    have hx3 : e.past holds w2.now = true := by
      rw [h2.now, h1.now]
      exact hx
    refine .bind (commit_takes (w := w2.note _) hs ?_ hq hx3) ?_
    · show w2.cache.find? key = some e
      rw [hc2]
      exact hf
    rintro gone w3 ⟨rfl, hc3, h4⟩
    have hc3 : w3.cache = w.cache.takeOut key .expiration := hc3.trans (by rw [← hc2]; rfl)
    refine .bind (disposeEvicted_thinks hs key e w3) ?_
    rintro _ w4 ⟨hc4, h5⟩
    refine .pure ⟨rfl, ?_, ?_⟩
    · rw [hc4, hc3, Cache.judge]
      simp only [hv]
      rfl
    · rw [Cache.proceedings, hq]
      simp only [hv]
      rw [hc3] at h5
      exact (h3.quiet h4).trans h5

/-- The expired entries in their turns. No turn touches another key, and so each entry is found as
it was listed. -/
theorem evictions_judge (hs : host.Steady holds verdict) (rows : List (Key × Entry ν η)) :
    ∀ (n : Nat) (w : World ν η μ), (rows.map Prod.fst).Nodup →
      (∀ r ∈ rows, w.cache.find? r.1 = some r.2 ∧ r.2.pending = false ∧
        r.2.past holds w.now = true) →
      ((rows.map fun r => (r.1, r.2.generation)).foldlM
        (evictNext host (callVia host perform)) n).Returns w fun total w' =>
          total = n + rows.countP (fun r => !r.2.spared verdict w.cache.expiring r.1) ∧
            w'.cache = rows.foldl (Cache.judge verdict) w.cache ∧
            Proceeds (rows.flatMap (w.cache.proceedings verdict)) w w' := by
  induction rows with
  | nil =>
    intro n w _ _
    exact .pure ⟨rfl, rfl, .refl w⟩
  | cons r rows ih =>
    intro n w hnodup hrows
    rw [List.map_cons, List.nodup_cons] at hnodup
    obtain ⟨hf, hp, hx⟩ := hrows r (List.mem_cons_self ..)
    rw [List.map_cons, List.foldlM_cons]
    refine .bind (P := fun total w' =>
      total = n + (!r.2.spared verdict w.cache.expiring r.1).toNat ∧
        w'.cache = w.cache.judge verdict r ∧ Proceeds (w.cache.proceedings verdict r) w w') ?_ ?_
    · refine .bind (expire_judges hs hf hp hx) ?_
      rintro fate w1 ⟨rfl, hc, h⟩
      cases hv : r.2.spared verdict w.cache.expiring r.1 with
      | true => exact .pure ⟨rfl, hc, h⟩
      | false => exact .pure ⟨rfl, hc, h⟩
    rintro total w1 ⟨rfl, hc1, h1⟩
    have hsame : w1.cache.expiring = w.cache.expiring ∧
        w1.cache.settings = w.cache.settings := by
      rw [hc1, Cache.judge]
      split <;> exact ⟨rfl, rfl⟩
    have hrest : ∀ q ∈ rows, w1.cache.find? q.1 = some q.2 ∧ q.2.pending = false ∧
        q.2.past holds w1.now = true := by
      intro q hq
      obtain ⟨hqf, hqp, hqx⟩ := hrows q (List.mem_cons_of_mem _ hq)
      have hne : q.1 ≠ r.1 := fun he => hnodup.1 (List.mem_map.mpr ⟨q, hq, he⟩)
      refine ⟨?_, hqp, h1.now ▸ hqx⟩
      rw [hc1, Cache.judge]
      split
      · exact hqf
      · rw [Cache.find?_takeOut, if_neg hne]
        exact hqf
    refine (ih _ w1 hnodup.2 hrest).mono ?_
    rintro total w2 ⟨rfl, hc2, h2⟩
    refine ⟨?_, ?_, ?_⟩
    · rw [List.countP_cons, hsame.1]
      cases r.2.spared verdict w.cache.expiring r.1 with
      | true => simp
      | false => simp; omega
    · rw [hc2, hc1]
      rfl
    · have hrounds : w1.cache.proceedings verdict = w.cache.proceedings verdict := by
        funext q
        unfold Cache.proceedings
        rw [hsame.1, hsame.2]
      rw [hrounds] at h2
      exact h1.trans h2

end Act

/-! ## Filters -/

namespace Cache

variable {p q : Key × Entry ν η → Bool} {c d : Cache ν η}

theorem sift_congr (h : ∀ r ∈ c.entries.rows, p r = q r) (vetoes : Nat) :
    c.sift p vetoes = c.sift q vetoes := by
  have hkept : c.entries.filter (fun r => !p r) = c.entries.filter (fun r => !q r) := by
    refine Table.ext_rows (List.filter_congr ?_)
    intro r hr
    rw [h r hr]
  have hgone : c.entries.rows.countP p = c.entries.rows.countP q :=
    List.countP_congr fun r hr => by rw [h r hr]
  simp only [sift, hkept, hgone]

theorem sift_none (h : ∀ r ∈ c.entries.rows, p r = false) (vetoes : Nat) : c.sift p vetoes =
    { c with stats := { c.stats with cancelled := c.stats.cancelled + vetoes } } := by
  have hkept : c.entries.filter (fun r => !p r) = c.entries := by
    refine Table.ext_rows (List.filter_eq_self.mpr ?_)
    intro r hr
    rw [h r hr]
    rfl
  have hgone : c.entries.rows.countP p = 0 :=
    List.countP_eq_zero.mpr fun r hr => by rw [h r hr]; exact Bool.false_ne_true
  simp only [sift, hkept, hgone, Nat.add_zero, if_true]

theorem sift_sift (u v : Nat) : (c.sift p u).sift q v = c.sift (fun r => p r || q r) (u + v) := by
  have hkept : (c.entries.filter fun r => !p r).filter (fun r => !q r) =
      c.entries.filter fun r => !(p r || q r) := by
    refine Table.ext_rows ?_
    simp only [Table.filter, List.filter_filter, Bool.not_or, Bool.and_comm]
  have hgone : c.entries.rows.countP p + (c.entries.filter fun r => !p r).rows.countP q =
      c.entries.rows.countP fun r => p r || q r := by
    simp only [Table.filter, List.countP_filter]
    induction c.entries.rows with
    | nil => rfl
    | cons r rows ih =>
      simp only [List.countP_cons, ← ih]
      cases p r <;> cases q r <;> simp <;> omega
  have htotal : ∀ t : Nat, (if (c.entries.filter fun r => !p r).rows.countP q = 0 then
      (if c.entries.rows.countP p = 0 then t else (c.entries.filter fun r => !p r).size)
      else (c.entries.filter fun r => !(p r || q r)).size) =
      if (c.entries.rows.countP fun r => p r || q r) = 0 then t
      else (c.entries.filter fun r => !(p r || q r)).size := by
    intro t
    rw [← hgone]
    by_cases hq : (c.entries.filter fun r => !p r).rows.countP q = 0
    · have hrest : (c.entries.filter fun r => !p r).filter (fun r => !q r) =
          c.entries.filter fun r => !p r := by
        refine Table.ext_rows (List.filter_eq_self.mpr ?_)
        intro r hr
        have hno := List.countP_eq_zero.mp hq r hr
        simpa using hno
      rw [← hkept, hrest, hq]
      simp
    · simp [hq]
  simp only [sift, hkept, htotal, hgone.symm, Nat.add_assoc]

variable {holds : η → Instant → Bool} {verdict : η → Key → ν → Policy η → Decision}

/-- The rounds over one entry take out its row or none. -/
theorem judge_eq_sift {r : Key × Entry ν η} (hf : c.find? r.1 = some r.2) : c.judge verdict r =
    c.sift (fun q => q.1 = r.1 && !r.2.spared verdict c.expiring r.1)
      (r.2.spared verdict c.expiring r.1).toNat := by
  unfold judge
  cases r.2.spared verdict c.expiring r.1 with
  | true =>
    rw [if_pos rfl, sift_none (by simp)]
    rfl
  | false =>
    have hrows : c.entries.erase r.1 = c.entries.filter fun q => !(q.1 = r.1 && !false) := by
      refine Table.ext_rows (List.filter_congr ?_)
      intro q _
      simp
    have hgone : c.entries.rows.countP (fun q => q.1 = r.1 && !false) = 1 := by
      have hsize := Table.size_erase_of_some hf
      have hsplit := List.length_eq_countP_add_countP (fun q => decide (q.1 = r.1) && !false)
        (l := c.entries.rows)
      rw [hrows] at hsize
      simp only [Table.size, Table.filter, ← List.countP_eq_length_filter] at hsize
      simp only [decide_not, Bool.decide_eq_true] at hsplit
      omega
    simp only [sift, hgone, ← hrows]
    rfl

theorem foldl_judge (rows : List (Key × Entry ν η)) : ∀ c : Cache ν η, (rows.map Prod.fst).Nodup →
    (∀ r ∈ rows, c.find? r.1 = some r.2) → rows.foldl (judge verdict) c =
      c.sift (fun q => rows.any fun r => q.1 = r.1 && !r.2.spared verdict c.expiring r.1)
        (rows.countP fun r => r.2.spared verdict c.expiring r.1) := by
  induction rows with
  | nil =>
    intro c _ _
    rw [sift_none (by simp)]
    rfl
  | cons r rows ih =>
    intro c hnodup hrows
    rw [List.map_cons, List.nodup_cons] at hnodup
    have hsame : (c.judge verdict r).expiring = c.expiring := by
      unfold judge
      split <;> rfl
    have hrest : ∀ q ∈ rows, (c.judge verdict r).find? q.1 = some q.2 := by
      intro q hq
      have hne : q.1 ≠ r.1 := fun he => hnodup.1 (List.mem_map.mpr ⟨q, hq, he⟩)
      have hqf := hrows q (List.mem_cons_of_mem _ hq)
      unfold judge
      split
      · exact hqf
      · rw [find?_takeOut, if_neg hne]
        exact hqf
    rw [List.foldl_cons, ih _ hnodup.2 hrest, hsame,
      judge_eq_sift (hrows r (List.mem_cons_self ..)), sift_sift, List.countP_cons, Nat.add_comm]
    simp only [List.any_cons]
    cases r.2.spared verdict c.expiring r.1 <;> rfl

/-- The expired rows in their turns come to a filter over all rows. -/
theorem foldl_judge_past (c : Cache ν η) (now : Instant) :
    (c.entries.rows.filter fun r => r.2.past holds now).foldl (judge verdict) c =
      c.sift (c.doomed holds verdict now) (c.entries.rows.countP (c.vetoed holds verdict now)) := by
  have hsub : (c.entries.rows.filter fun r => r.2.past holds now).Sublist c.entries.rows :=
    List.filter_sublist
  have hmem : ∀ r ∈ c.entries.rows.filter (fun r => r.2.past holds now),
      c.find? r.1 = some r.2 := fun r hr => Table.get?_eq_some_iff.mpr (hsub.subset hr)
  have hvetoes : (c.entries.rows.filter fun r => r.2.past holds now).countP
      (fun r => r.2.spared verdict c.expiring r.1) =
        c.entries.rows.countP (c.vetoed holds verdict now) := by
    rw [List.countP_filter]
    refine List.countP_congr ?_
    intro r _
    simp [vetoed, Bool.and_comm]
  rw [foldl_judge _ c (c.entries.distinct.sublist (hsub.map _)) hmem, hvetoes]
  refine sift_congr ?_ _
  intro q hq
  have hself : ∀ r ∈ c.entries.rows, q.1 = r.1 → r = q := by
    intro r hr he
    have hsome := Table.get?_eq_some_iff.mpr hr
    rw [← he, Table.get?_eq_some_iff.mpr hq] at hsome
    exact Prod.ext he.symm (Option.some.inj hsome).symm
  rw [Bool.eq_iff_iff, List.any_eq_true, doomed]
  constructor
  · rintro ⟨r, hr, hgone⟩
    obtain ⟨hr, hx⟩ := List.mem_filter.mp hr
    simp only [Bool.and_eq_true, decide_eq_true_eq] at hgone
    obtain rfl := hself r hr hgone.1
    rw [hx, hgone.2]
    rfl
  · intro hgone
    rw [Bool.and_eq_true] at hgone
    refine ⟨q, List.mem_filter.mpr ⟨hq, hgone.1⟩, ?_⟩
    rw [hgone.2, decide_eq_true rfl]
    rfl

/-- The same cache but for the order in which its rows are visited. -/
structure Shuffled (c d : Cache ν η) : Prop where
  rows : c.entries.rows.Perm d.entries.rows
  rest : d = { c with entries := d.entries }

theorem Shuffled.find? (h : c.Shuffled d) (key : Key) : d.find? key = c.find? key := by
  refine Option.ext fun e => ?_
  unfold Cache.find?
  rw [Table.get?_eq_some_iff, Table.get?_eq_some_iff, h.rows.mem_iff]

theorem Shuffled.sift (h : c.Shuffled d) (p : Key × Entry ν η → Bool) (vetoes : Nat) :
    (c.sift p vetoes).Shuffled (d.sift p vetoes) := by
  obtain ⟨hrows, hrest⟩ := h
  generalize d.entries = t at hrows hrest
  subst hrest
  have hkept := hrows.filter fun r => !p r
  have hgone : t.rows.countP p = c.entries.rows.countP p := (hrows.countP_eq p).symm
  have hsize : (t.filter fun r => !p r).size = (c.entries.filter fun r => !p r).size :=
    hkept.length_eq.symm
  refine ⟨hkept, ?_⟩
  simp only [Cache.sift, hgone, hsize]

end Cache

namespace Act

variable {host : Host ν η μ} {holds : η → Instant → Bool}
  {verdict : η → Key → ν → Policy η → Decision} {w : World ν η μ}

theorem Returns.filterM {α : Type} {p : α → Act ν η μ Bool} (keep : α → Bool)
    {I : World ν η μ → Prop} (xs : List α)
    (hp : ∀ x ∈ xs, ∀ w, I w → (p x).Returns w fun found w' => found = keep x ∧ I w')
    (hw : I w) : (xs.filterM p).Returns w fun ys w' => ys = xs.filter keep ∧ I w' := by
  have loop : ∀ acc w, I w → (xs.filterAuxM p acc).Returns w fun ys w' =>
      ys = (xs.filter keep).reverse ++ acc ∧ I w' := by
    induction xs with
    | nil =>
      intro acc w hw
      exact .pure ⟨rfl, hw⟩
    | cons x xs ih =>
      intro acc w hw
      refine .bind (hp x (List.mem_cons_self ..) w hw) ?_
      rintro found w1 ⟨rfl, hw1⟩
      refine (ih (fun y hy => hp y (List.mem_cons_of_mem _ hy)) _ w1 hw1).mono ?_
      rintro ys w2 ⟨rfl, hw2⟩
      refine ⟨?_, hw2⟩
      cases hx : keep x <;> simp [hx]
  refine .bind (loop [] w hw) ?_
  rintro ys w1 ⟨rfl, hw1⟩
  exact .pure ⟨by simp, hw1⟩

theorem candidates_answers (hs : host.Steady holds verdict)
    (hp : ∀ r ∈ w.cache.entries.rows, r.2.pending = false) :
    (candidates host).Returns w fun cs w' => cs = ((w.cache.entries.rows.filter fun r =>
      r.2.past holds w.now).map fun r => (r.1, r.2.generation)) ∧ w'.cache = w.cache ∧
        Proceeds [] w w' := by
  unfold candidates
  refine .cache (.bind (Returns.filterM (fun r : Key × Entry ν η => r.2.past holds w.now)
    (I := fun v => v.cache = w.cache ∧ Proceeds [] w v) _ ?_ ⟨rfl, .refl w⟩) ?_)
  · rintro r hr v ⟨hc, h⟩
    rw [hp r hr]
    refine (expired_answers hs r.2 v).mono ?_
    rintro found v' ⟨rfl, hc', h'⟩
    exact ⟨by rw [h.now], hc'.trans hc, h.quiet h'⟩
  · rintro rows w' ⟨rfl, hc, h⟩
    exact .pure ⟨rfl, hc, h⟩

theorem sweep_sifts (hs : host.Steady holds verdict) (bound : Nat)
    (hp : ∀ r ∈ w.cache.entries.rows, r.2.pending = false) :
    (sweep host (call host bound)).Returns w fun n w' =>
      n = w.cache.entries.rows.countP (w.cache.doomed holds verdict w.now) ∧
      w'.cache = w.cache.sift (w.cache.doomed holds verdict w.now)
        (w.cache.entries.rows.countP (w.cache.vetoed holds verdict w.now)) ∧
      Proceeds ((w.cache.entries.rows.filter fun r => r.2.past holds w.now).flatMap
        (w.cache.proceedings verdict)) w w' := by
  unfold sweep
  refine .bind (candidates_answers hs hp) ?_
  rintro cs w1 ⟨rfl, hc1, h1⟩
  have hsub : (w.cache.entries.rows.filter fun r => r.2.past holds w.now).Sublist
      w.cache.entries.rows := List.filter_sublist
  have hrows : ∀ r ∈ w.cache.entries.rows.filter (fun r => r.2.past holds w.now),
      w1.cache.find? r.1 = some r.2 ∧ r.2.pending = false ∧ r.2.past holds w1.now = true := by
    intro r hr
    rw [hc1, h1.now]
    exact ⟨Table.get?_eq_some_iff.mpr (hsub.subset hr), hp r (hsub.subset hr),
      (List.mem_filter.mp hr).2⟩
  refine (evictions_judge hs _ 0 w1 (w.cache.entries.distinct.sublist (hsub.map _)) hrows).mono ?_
  rintro n w2 ⟨rfl, hc2, h2⟩
  rw [hc1] at hc2 h2
  refine ⟨?_, hc2.trans (w.cache.foldl_judge_past w.now), h1.trans h2⟩
  rw [hc1, Nat.zero_add, List.countP_filter]
  refine List.countP_congr ?_
  intro r _
  simp [Cache.doomed, Bool.and_comm]

end Act

/-- A sweep is a filter if no entry is marked and the host is steady. It leaves as they are the
entries that are live or that a handler spares, and takes out all others; it answers how many these
are, counts them as expirations and the vetoes as cancellations, and changes nothing else but the
total; and it runs one round over each expired entry, and one more over each that it evicted. A
second sweep evicts nothing, and a sweep of the same rows in another order answers the same and
leaves the same cache but for the order. -/
theorem sweep_is_filter {host : Host ν η μ} {holds : η → Instant → Bool}
    {verdict : η → Key → ν → Policy η → Decision} {w : World ν η μ} (hs : host.Steady holds verdict)
    (bound : Nat) (hp : ∀ r ∈ w.cache.entries.rows, r.2.pending = false) :
    (Act.sweep host (Act.call host bound)).Returns w fun n w' =>
      n = w.cache.entries.rows.countP (w.cache.doomed holds verdict w.now) ∧
      w'.cache = w.cache.sift (w.cache.doomed holds verdict w.now)
        (w.cache.entries.rows.countP (w.cache.vetoed holds verdict w.now)) ∧
      Proceeds ((w.cache.entries.rows.filter fun r => r.2.past holds w.now).flatMap
        (w.cache.proceedings verdict)) w w' ∧
      ((Act.sweep host (Act.call host bound)).Returns w' fun k w'' =>
        k = 0 ∧ w''.cache.entries = w'.cache.entries) ∧
      ∀ v : World ν η μ, v.now = w.now → w.cache.Shuffled v.cache →
        (Act.sweep host (Act.call host bound)).Returns v fun k v' =>
          k = n ∧ w'.cache.Shuffled v'.cache ∧ ∀ key, v'.cache.find? key = w'.cache.find? key := by
  refine (Act.sweep_sifts hs bound hp).mono ?_
  rintro n w' ⟨rfl, hc, h⟩
  refine ⟨rfl, hc, h, ?_, ?_⟩
  · have hexp : w'.cache.expiring = w.cache.expiring := by rw [hc]; rfl
    have hleft : ∀ r ∈ w'.cache.entries.rows, r ∈ w.cache.entries.rows ∧
        w'.cache.doomed holds verdict w'.now r = false := by
      intro r hr
      rw [hc] at hr
      obtain ⟨hr, hkept⟩ := List.mem_filter.mp hr
      refine ⟨hr, ?_⟩
      rw [Cache.doomed, hexp, h.now]
      exact (Bool.not_eq_true' _).mp hkept
    refine (Act.sweep_sifts hs bound fun r hr => hp r (hleft r hr).1).mono ?_
    rintro k w'' ⟨rfl, hc', -⟩
    refine ⟨?_, ?_⟩
    · exact List.countP_eq_zero.mpr fun r hr => by rw [(hleft r hr).2]; exact Bool.false_ne_true
    · rw [hc', Cache.sift_none fun r hr => (hleft r hr).2]
  · intro v hn hv
    have hexp : v.cache.expiring = w.cache.expiring := by rw [hv.rest]
    have hdoomed : v.cache.doomed holds verdict v.now = w.cache.doomed holds verdict w.now := by
      funext r
      rw [Cache.doomed, Cache.doomed, hexp, hn]
    have hvetoed : v.cache.vetoed holds verdict v.now = w.cache.vetoed holds verdict w.now := by
      funext r
      rw [Cache.vetoed, Cache.vetoed, hexp, hn]
    refine (Act.sweep_sifts hs bound fun r hr => hp r (hv.rows.mem_iff.mpr hr)).mono ?_
    rintro k v' ⟨rfl, hc', -⟩
    have hsame : w'.cache.Shuffled v'.cache := by
      rw [hc, hc', hdoomed, hvetoed, ← hv.rows.countP_eq]
      exact hv.sift _ _
    refine ⟨?_, hsame, hsame.find?⟩
    rw [hdoomed, ← hv.rows.countP_eq]

/-- Its handlers spare the key "a" and have all other values handed over. -/
def Host.choosy : Host Nat String Unit where
  accepts _ := true
  consult _ _ memory := (.ok true, memory)
  respond
    | .expiring _ key _ _ => .done (if key = "a" then .cancel else .proceed)
    | .expired .. => .done .dispose
    | .release .. => .done ()
    | .factory .. => .done (.ok 0)
    | .defaultPolicy .. => .done none

theorem Host.choosy_steady : Host.choosy.Steady (fun _ _ => true)
    fun _ key _ _ => if key = "a" then .cancel else .proceed :=
  ⟨fun _ _ _ => rfl, fun _ _ _ _ _ _ => rfl, fun _ _ _ _ _ _ => rfl, fun _ _ _ _ _ => rfl⟩

/-- Of the entries all but the one under "c" have expired. -/
def World.assorted : World Nat String Unit where
  now := .zero
  cache := ["a", "b", "c", "d"].foldl (fun c key =>
    c.insert .zero key 1 (if key = "c" then none else some (.duration .zero none)))
    { Cache.create .keeping .task with expiring := ["ask"], expired := ["tell"] }
  memory := ()
  calls := []
  journal := []

/-- The rows in another order. -/
def World.assortedAgain : World Nat String Unit :=
  World.assorted.change fun c =>
    { c with entries := ⟨c.entries.rows.reverse,
        ((List.reverse_perm _).map Prod.fst).nodup_iff.mpr c.entries.distinct⟩ }

theorem assorted_sweep_is_filter :
    (Act.sweep .choosy (Act.call .choosy 0)).Returns World.assorted fun n w' =>
      n = 2 ∧ w'.cache.entries.keys = ["a", "c"] ∧
      w'.cache.stats = ⟨0, 0, 2, 1, 0, 2⟩ ∧
      ((Act.sweep .choosy (Act.call .choosy 0)).Returns w' fun k _ => k = 0) ∧
      (Act.sweep .choosy (Act.call .choosy 0)).Returns World.assortedAgain fun k v' =>
        k = 2 ∧ ∀ key, v'.cache.find? key = w'.cache.find? key := by
  refine (sweep_is_filter Host.choosy_steady 0 (by decide +kernel)).mono ?_
  rintro n w' ⟨rfl, hc, -, htwice, hagain⟩
  refine ⟨by decide +kernel, ?_, ?_, htwice.mono fun _ _ h => h.1, ?_⟩
  · rw [hc]
    decide +kernel
  · rw [hc]
    decide +kernel
  · refine (hagain World.assortedAgain rfl ⟨(List.reverse_perm _).symm, rfl⟩).mono ?_
    rintro k v' ⟨rfl, -, hfind⟩
    exact ⟨by decide +kernel, hfind⟩

end ExpiringCache
