import ExpiringCache.Proofs.Eviction
import ExpiringCache.Proofs.Questions

/-!
# Every value is handed over at most once, and by the right rule

A value is handed over once at most, and only after its insertion has left; whatever panics. If no
callback panicked, then between turns the books are closed: of the insertions that left other than
by expiry the values were handed over exactly if the settings say so, and of an evicted one exactly
if the handlers that were told of it decided so in the end.
-/

namespace ExpiringCache

variable {ν η μ : Type}

namespace Line

theorem leaves_toNat (g : Nat) (l : Line ν η) :
    (l.leaves g).toNat = (l.withdraws g).toNat + (l.expires g).toNat := by
  obtain ⟨record, now, calls, cache⟩ := l
  unfold leaves withdraws expires
  cases record with
  | left h key value exit => cases exit <;> simp
  | _ => rfl

theorem claims_toNat (g : Nat) (l : Line ν η) :
    (l.claims g).toNat = (l.withdraws g).toNat + (l.disposes g).toNat := by
  obtain ⟨record, now, calls, cache⟩ := l
  unfold claims withdraws disposes
  cases record with
  | left h key value exit => cases exit <;> simp
  | _ => simp

theorem owes_toNat (s : Settings η) (hs : s.release.isSome = true) (g : Nat) (l : Line ν η) :
    (l.owes s g).toNat =
      s.dispose.toNat * (l.withdraws g).toNat + (l.condemns g).toNat := by
  obtain ⟨record, now, calls, cache⟩ := l
  unfold owes withdraws condemns
  rw [hs]
  cases record with
  | left h key value exit =>
    cases s.dispose <;> cases exit <;> simp
  | disposed h key final => cases final <;> simp
  | _ => simp

theorem disposes_iff {g : Nat} {l : Line ν η} :
    l.disposes g = true ↔ ∃ key final, l.record = .disposed g key final := by
  unfold disposes
  cases l.record <;> simp

theorem condemns_iff {g : Nat} {l : Line ν η} :
    l.condemns g = true ↔ ∃ key, l.record = .disposed g key .dispose := by
  unfold condemns
  cases l.record with
  | disposed h key final => cases final <;> simp
  | _ => simp

end Line

section Counts

theorem countP_eq_add {α : Type} {p q r : α → Bool} {k : Nat}
    (h : ∀ a, (p a).toNat = k * (q a).toNat + (r a).toNat) (xs : List α) :
    xs.countP p = k * xs.countP q + xs.countP r := by
  induction xs with
  | nil => simp
  | cons x xs ih =>
    have count : ∀ (f : α → Bool), (x :: xs).countP f = xs.countP f + (f x).toNat := by
      intro f
      rw [List.countP_cons]
      cases f x <;> rfl
    rw [count, count, count, ih, h x, Nat.mul_add]
    omega

variable (g : Nat) (lines : List (Line ν η))

theorem countP_leaves : lines.countP (·.leaves g) =
    lines.countP (·.withdraws g) + lines.countP (·.expires g) := by
  rw [countP_eq_add (k := 1) (q := (·.withdraws g)) (r := (·.expires g)) ?_ lines, Nat.one_mul]
  intro l
  rw [Nat.one_mul, Line.leaves_toNat]

theorem countP_claims : lines.countP (·.claims g) =
    lines.countP (·.withdraws g) + lines.countP (·.disposes g) := by
  rw [countP_eq_add (k := 1) (q := (·.withdraws g)) (r := (·.disposes g)) ?_ lines, Nat.one_mul]
  intro l
  rw [Nat.one_mul, Line.claims_toNat]

theorem countP_owes {s : Settings η} (hs : s.release.isSome = true) :
    lines.countP (·.owes s g) =
      s.dispose.toNat * lines.countP (·.withdraws g) + lines.countP (·.condemns g) :=
  countP_eq_add (Line.owes_toNat s hs g) lines

end Counts

/-- The handlers that were told of the eviction of `g` left it at `final`. -/
def Judged (settings : Settings η) (g : Nat) (key : Key) (value : ν) (final : Disposal)
    (before : List (Line ν η)) : Prop :=
  ∃ answers start rest,
    start.record = .announced g key value (.ofBool settings.dispose) ∧
    answers.length = start.cache.expired.length ∧
    final = settled (.ofBool settings.dispose) answers ∧
    Since start rest (verdicts key value (.ofBool settings.dispose) start.cache.expired answers)
      before

variable {host : Host ν η μ} {settings : Settings η} {hosting : Hosting} {w : World ν η μ}

theorem Reachable.settings_eq (h : Reachable host settings hosting w) :
    w.cache.settings = settings ∧ ∀ l ∈ w.journal, l.cache.settings = settings := by
  refine h.invariant
    (I := fun w => w.cache.settings = settings ∧ ∀ l ∈ w.journal, l.cache.settings = settings) ?_ ?_
  · intro t memory
    refine ⟨rfl, ?_⟩
    intro l hl
    cases hl
  · rintro v v' hm ⟨hv, hj⟩
    have hv' : v'.cache.settings = settings := hm.settings.trans hv
    refine ⟨hv', ?_⟩
    obtain ⟨new, hnew, hlines⟩ := hm.lines
    intro l hl
    rw [hnew] at hl
    rcases List.mem_append.mp hl with hl | hl
    · obtain ⟨-, -, timer, hcache⟩ := hlines l hl
      rw [hcache]
      exact hv'
    · exact hj l hl

/-- Each hand-over is covered by a departure, or by the end of a round after one. -/
theorem Reachable.handsOver_le_leaves (h : Reachable host settings hosting w) (g : Nat) :
    w.journal.countP (·.handsOver g) ≤ w.journal.countP (·.leaves g) := by
  obtain ⟨t, memory, hrun⟩ := h.run
  have h1 := hrun.ledger.covered g
  have h2 := hrun.ledger.told g
  simp only [Account.due_clear, Account.untold_clear, List.count_nil, Nat.add_zero] at h1 h2
  rw [countP_claims] at h1
  rw [countP_leaves]
  omega

theorem Between.books (h : Between host settings hosting w) (hs : settings.release.isSome = true)
    (hu : ∀ l ∈ w.journal, l.unwinds = false) (g : Nat) :
    w.journal.countP (·.handsOver g) =
        settings.dispose.toNat * w.journal.countP (·.withdraws g) + w.journal.countP (·.condemns g) ∧
      w.journal.countP (·.disposes g) = w.journal.countP (·.expires g) := by
  obtain ⟨t, memory, hrun⟩ := h.run
  have h1 := hrun.ledger.settled trivial hu g
  have h2 := hrun.ledger.toldAll trivial hu g
  simp only [Account.due_clear, Account.untold_clear, List.count_nil, Nat.add_zero] at h1 h2
  exact ⟨h1.trans (countP_owes g w.journal hs), h2⟩

/-- A round of handlers that were told of an eviction starts from what the settings say. -/
theorem Reachable.judged (h : Reachable host settings hosting w) {d : Line ν η}
    {before : List (Line ν η)} {g : Nat} {key : Key} {final : Disposal}
    (hd : d :: before <:+ w.journal) (hr : d.record = .disposed g key final) :
    ∃ value, Judged settings g key value final before ∧
      ∃ m ∈ w.journal, m.record = .left g key value .expired := by
  have hc := h.recorded.chronicle
  have hlaw : d.DisposalLawful g key final before := hc.lawful hd hr
  obtain ⟨value, initial, answers, start, rest, hstart, -, hlen, hfinal, hsince⟩ := hlaw
  have hstarts : start :: rest <:+ w.journal := hsince.suffix.trans ((List.suffix_cons _ _).trans hd)
  obtain ⟨gone, rest', rfl, hgone, -, hinitial⟩ := hc.announcement hstarts hstart
  have hset : start.cache.settings = settings :=
    h.settings_eq.2 start (hstarts.subset (List.mem_cons_self ..))
  rw [hset] at hinitial
  subst hinitial
  exact ⟨value, ⟨answers, start, _, hstart, hlen, hfinal, hsince⟩, gone,
    hstarts.subset (List.mem_cons_of_mem _ (List.mem_cons_self ..)), hgone⟩

theorem Between.withdrawn (h : Between host settings hosting w) (hs : settings.release.isSome = true)
    (hu : ∀ l ∈ w.journal, l.unwinds = false) {l : Line ν η} {g : Nat} {key : Key} {value : ν}
    {exit : Exit} (hl : l ∈ w.journal) (hr : l.record = .left g key value exit)
    (hx : exit ≠ .expired) : w.journal.countP (·.handsOver g) = settings.dispose.toNat := by
  obtain ⟨h1, h2⟩ := h.books hs hu g
  have hleft := (Reachable.between h).recorded.lives.leftOnce g
  rw [countP_leaves] at hleft
  have hw : 0 < w.journal.countP (·.withdraws g) := by
    refine List.countP_pos_iff.mpr ⟨l, hl, ?_⟩
    unfold Line.withdraws
    rw [hr]
    cases exit with
    | expired => exact absurd rfl hx
    | _ => exact beq_self_eq_true g
  have hone : w.journal.countP (·.withdraws g) = 1 := by omega
  have hcond : w.journal.countP (·.condemns g) ≤ w.journal.countP (·.disposes g) := by
    refine List.countP_mono_left fun m _ hm => ?_
    obtain ⟨k, hk⟩ := Line.condemns_iff.mp hm
    exact Line.disposes_iff.mpr ⟨k, _, hk⟩
  rw [hone, Nat.mul_one] at h1
  omega

theorem Between.evicted (h : Between host settings hosting w) (hs : settings.release.isSome = true)
    (hu : ∀ l ∈ w.journal, l.unwinds = false) {l : Line ν η} {g : Nat} {key : Key} {value : ν}
    (hl : l ∈ w.journal) (hr : l.record = .left g key value .expired) :
    ∃ d before final, d :: before <:+ w.journal ∧ d.record = .disposed g key final ∧
      Judged settings g key value final before ∧
      w.journal.countP (·.handsOver g) = if final = .dispose then 1 else 0 := by
  obtain ⟨h1, h2⟩ := h.books hs hu g
  have hrec := (Reachable.between h).recorded
  have hleft := hrec.lives.leftOnce g
  rw [countP_leaves] at hleft
  have hexp : 0 < w.journal.countP (·.expires g) := by
    refine List.countP_pos_iff.mpr ⟨l, hl, ?_⟩
    unfold Line.expires
    rw [hr]
    exact beq_self_eq_true g
  have hwith : w.journal.countP (·.withdraws g) = 0 := by omega
  have hdis : w.journal.countP (·.disposes g) = 1 := by omega
  rw [hwith, Nat.mul_zero, Nat.zero_add] at h1
  obtain ⟨d, hd, hdg⟩ := List.countP_pos_iff.mp (by omega : 0 < w.journal.countP (·.disposes g))
  obtain ⟨k, final, hdr⟩ := Line.disposes_iff.mp hdg
  obtain ⟨before, hds⟩ := exists_suffix_of_mem hd
  obtain ⟨v, hjudged, m, hm, hmr⟩ := (Reachable.between h).judged hds hdr
  have hlm := hrec.lives.left_unique hl hm hr hmr
  subst hlm
  rw [hr] at hmr
  cases hmr
  refine ⟨d, before, final, hds, hdr, hjudged, ?_⟩
  rw [h1]
  -- the only end of a round over `g` is `d`
  have only : ∀ n ∈ w.journal, n.condemns g = true → n = d := by
    intro n hn hng
    obtain ⟨k', hk'⟩ := Line.condemns_iff.mp hng
    exact eq_of_countP_le_one (Nat.le_of_eq hdis) hn hd (Line.disposes_iff.mpr ⟨k', _, hk'⟩) hdg
  cases final with
  | keep =>
    rw [if_neg (by decide)]
    refine List.countP_eq_zero.mpr fun n hn hng => ?_
    obtain ⟨k', hk'⟩ := Line.condemns_iff.mp hng
    rw [only n hn hng, hdr] at hk'
    cases hk'
  | dispose =>
    rw [if_pos rfl]
    have hpos : 0 < w.journal.countP (·.condemns g) :=
      List.countP_pos_iff.mpr ⟨d, hd, Line.condemns_iff.mpr ⟨_, hdr⟩⟩
    have hle : w.journal.countP (·.condemns g) ≤ w.journal.countP (·.disposes g) := by
      refine List.countP_mono_left fun n _ hn => ?_
      obtain ⟨k', hk'⟩ := Line.condemns_iff.mp hn
      exact Line.disposes_iff.mpr ⟨k', _, hk'⟩
    omega

/-- Nothing happened but that predicates were asked. -/
structure Inquired (v v' : World ν η μ) : Prop where
  cache : v'.cache = v.cache
  now : v'.now = v.now
  calls : v'.calls = v.calls
  journal : ∃ seg, v'.journal = seg ++ v.journal ∧
    ∀ l ∈ seg, ∃ predicate answer, l.record = .consulted predicate answer

theorem Inquiry.inquired {α : Type} {r : Except Halt α} {v v' : World ν η μ} (h : Inquiry r v v') :
    Inquired v v' := by
  obtain ⟨asked, hj, hasked, -⟩ := h.lines
  refine ⟨h.cache, h.now, h.calls, asked, hj, fun l hl => ?_⟩
  have hconsults := (hasked l hl).1
  unfold Line.consults at hconsults
  split at hconsults
  · exact ⟨_, _, ‹_›⟩
  · cases hconsults

namespace Act

/-- An insertion that leaves what it finds stores nothing and hands nothing over. -/
theorem insert_skipped {invoke : Invoke ν η μ} {key : Key} {value : ν} {options : Options η}
    {policy : Option (Policy η)} {v v1 v2 : World ν η μ} (ho : options.overwrite = false)
    (hp : policyFor invoke key options.policy v = .ok policy v1)
    (ht : occupied host key v1 = .ok true v2) :
    insert host invoke key value options v = .ok () v2 ∧ Inquired v1 v2 := by
  refine ⟨?_, ((occupied_inquiry host key v1).of_ok ht).inquired⟩
  unfold insert
  show EStateM.bind _ _ v = _
  unfold EStateM.bind
  rw [hp]
  simp only [ho]
  show EStateM.bind _ _ v1 = _
  unfold EStateM.bind
  rw [ht]
  rfl

end Act

/-- A value is handed over at most once, to the function that takes them over, and only after its
insertion has left. If no callback panicked, between turns it was handed over exactly once or not at
all: not while it is stored; after a departure other than by expiry as the settings say; and after
an eviction as the handlers that were told of it decided in the end. An insertion that leaves in
place what it finds makes no difference to all this. -/
theorem values_are_handed_over_once (h : Reachable host settings hosting w) :
    (∀ g, w.journal.countP (·.handsOver g) ≤ 1) ∧
    (∀ l before handler key value, l :: before <:+ w.journal →
      l.record = .entered (.release handler key value) →
      settings.release = some handler ∧ ∃ g exit, l.handsOver g = true ∧
        (∃ m ∈ before, m.record = .inserted g key value) ∧
        (∃ m ∈ before, m.record = .left g key value exit) ∧
        ∀ k e, l.cache.find? k = some e → e.generation ≠ g) ∧
    (settings.release.isSome = true → Between host settings hosting w →
      (∀ l ∈ w.journal, l.unwinds = false) →
      ∀ l ∈ w.journal, ∀ g key value, l.record = .inserted g key value →
        ((∃ e, w.cache.find? key = some e ∧ e.generation = g) ∧
          w.journal.countP (·.handsOver g) = 0) ∨
        (∃ m ∈ w.journal, ∃ exit, m.record = .left g key value exit ∧ exit ≠ .expired ∧
          w.journal.countP (·.handsOver g) = settings.dispose.toNat) ∨
        (∃ m ∈ w.journal, m.record = .left g key value .expired ∧
          ∃ d before final, d :: before <:+ w.journal ∧ d.record = .disposed g key final ∧
            Judged settings g key value final before ∧
            w.journal.countP (·.handsOver g) = if final = .dispose then 1 else 0)) ∧
    (∀ (invoke : Invoke ν η μ) key value (options : Options η) policy (v v1 v2 : World ν η μ),
      options.overwrite = false → Act.policyFor invoke key options.policy v = .ok policy v1 →
      Act.occupied host key v1 = .ok true v2 →
      Act.insert host invoke key value options v = .ok () v2 ∧ Inquired v1 v2) := by
  have hrec := h.recorded
  refine ⟨?_, ?_, ?_, ?_⟩
  · intro g
    exact Nat.le_trans (h.handsOver_le_leaves g) (hrec.lives.leftOnce g)
  · intro l before handler key value hs hr
    obtain ⟨hlives, -⟩ := hrec.chronicle.at hs
    have hlaw : l.ReleaseLawful handler key value before := hrec.chronicle.lawful hs hr
    obtain ⟨g, outer, exit, hcalls, hset, gone, hgone, hgr⟩ := hlaw
    have hsettings := h.settings_eq.2 l (hs.subset (List.mem_cons_self ..))
    rw [hsettings] at hset
    refine ⟨hset, g, exit, ?_, ?_, ⟨gone, hgone, hgr⟩, ?_⟩
    · unfold Line.handsOver
      rw [hr, hcalls]
      exact beq_self_eq_true g
    · obtain ⟨m, hm, hmr⟩ := hlives.came gone (List.mem_cons_of_mem _ hgone) g key value exit hgr
      rcases List.mem_cons.mp hm with rfl | hm
      · rw [hr] at hmr
        cases hmr
      · exact ⟨m, hm, hmr⟩
    · intro k e he hg
      have hstay := hlives.staying k e he gone (List.mem_cons_of_mem _ hgone)
      rw [hg, Line.leaves_iff.mpr ⟨_, _, _, hgr⟩] at hstay
      cases hstay
  · intro hs hb hu l hl g key value hr
    rcases hrec.complete l hl g key value hr with ⟨e, he, hg⟩ | ⟨m, hm, hmg⟩
    · refine Or.inl ⟨⟨e, he, hg⟩, ?_⟩
      have hzero : w.journal.countP (·.leaves g) = 0 := by
        refine List.countP_eq_zero.mpr fun m hm => ?_
        rw [← hg, hrec.lives.staying key e he m hm]
        decide
      exact Nat.le_zero.mp (hzero ▸ h.handsOver_le_leaves g)
    · obtain ⟨k, u, exit, hmr⟩ := Line.leaves_iff.mp hmg
      obtain ⟨n, hn, hnr⟩ := hrec.lives.came m hm g k u exit hmr
      obtain ⟨rfl, rfl⟩ := hrec.lives.inserted_unique hl hn hr hnr
      -- which of the two rules applies is read off the one line by which it left
      by_cases hx : exit = .expired
      · subst hx
        exact Or.inr (Or.inr ⟨m, hm, hmr, hb.evicted hs hu hm hmr⟩)
      · exact Or.inr (Or.inl ⟨m, hm, exit, hmr, hx, hb.withdrawn hs hu hm hmr hx⟩)
  · intro invoke key value options policy v v1 v2 ho hp ht
    exact Act.insert_skipped ho hp ht

theorem expiredRead_hands_over_once :
    World.expiredRead.journal.countP (·.handsOver 0) = 1 ∧
      World.expiredRead.journal.countP (·.handsOver 1) = 0 ∧
      ∀ l ∈ World.expiredRead.journal, ∀ g key value, l.record = .inserted g key value →
        World.expiredRead.journal.countP (·.handsOver g) ≤ 1 ∧
        ((∀ m ∈ World.expiredRead.journal, m.leaves g = false) →
          ∃ e, World.expiredRead.cache.find? key = some e ∧ e.generation = g) := by
  refine ⟨by decide +kernel, by decide +kernel, ?_⟩
  obtain ⟨honce, -, hbooks, -⟩ := values_are_handed_over_once (.between expiredRead_between)
  have hcalm : ∀ l ∈ World.expiredRead.journal, l.unwinds = false := by decide +kernel
  intro l hl g key value hr
  refine ⟨honce g, ?_⟩
  intro hstays
  rcases hbooks rfl expiredRead_between hcalm l hl g key value hr with
    ⟨h, -⟩ | ⟨m, hm, exit, hmr, -⟩ | ⟨m, hm, hmr, -⟩
  · exact h
  · have hleft := hstays m hm
    rw [Line.leaves_iff.mpr ⟨_, _, _, hmr⟩] at hleft
    cases hleft
  · have hleft := hstays m hm
    rw [Line.leaves_iff.mpr ⟨_, _, _, hmr⟩] at hleft
    cases hleft

end ExpiringCache
