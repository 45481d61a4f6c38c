import ExpiringCache.Proofs.Stretches

/-!
# Excerpts of the journal

What work writes is told by excerpts: a reader picks out of the journal the lines it looks for, and the
excerpt of a piece of work is put together from those of its parts.

A call of one of the host's functions writes little where it is made. The operations that its program
performs write inside of themselves; around them stand the line by which each ends, and what is cleared
away when the outermost one closes the cache.
-/

namespace ExpiringCache

variable {ν η μ α β γ : Type}

/-- What a reader picks out of a segment of the journal, oldest first. -/
def excerpt (pick : Line ν η → Option γ) (seg : List (Line ν η)) : List γ :=
  (seg.filterMap pick).reverse

section

variable {pick : Line ν η → Option γ}

theorem excerpt_append (new old : List (Line ν η)) :
    excerpt pick (new ++ old) = excerpt pick old ++ excerpt pick new := by
  unfold excerpt
  rw [List.filterMap_append, List.reverse_append]

theorem excerpt_eq_nil {seg : List (Line ν η)} (h : ∀ l ∈ seg, pick l = none) :
    excerpt pick seg = [] := by
  unfold excerpt
  rw [List.filterMap_eq_nil_iff.mpr h]
  rfl

theorem excerpt_singleton (l : Line ν η) : excerpt pick [l] = (pick l).toList := by
  unfold excerpt
  cases h : pick l <;> simp [h]

end

/-- Work that ended in `v` wrote what `P` says, as far as it is picked out. -/
def Writes (pick : Line ν η → Option γ) (w : World ν η μ) (P : Except Halt α → List γ → Prop)
    (r : Except Halt α) (v : World ν η μ) : Prop :=
  v.calls = w.calls ∧ ∃ seg, v.journal = seg ++ w.journal ∧ P r (excerpt pick seg)

/-- Work that wrote nothing that is picked out. -/
abbrev Mute (pick : Line ν η → Option γ) (w : World ν η μ) : Except Halt α → World ν η μ → Prop :=
  Writes pick w fun _ ps => ps = []

namespace Act

variable {pick : Line ν η → Option γ} {x : Act ν η μ α} {f : α → Act ν η μ β} {w v : World ν η μ}
  {P P' : Except Halt α → List γ → Prop} {Q : Except Halt β → List γ → Prop}

theorem Ends.writes (h : x.Ends w (Writes pick w P)) (hp : ∀ r ps, P r ps → P' r ps) :
    x.Ends w (Writes pick w P') := by
  apply h.mono
  rintro r v ⟨hc, seg, hj, hps⟩
  exact ⟨hc, seg, hj, hp r _ hps⟩

/-- What was written first comes before what is written then. -/
theorem Ends.onward {seg : List (Line ν η)} (hc : v.calls = w.calls)
    (hj : v.journal = seg ++ w.journal)
    (h : x.Ends v (Writes pick v fun r ps => P r (excerpt pick seg ++ ps))) :
    x.Ends v (Writes pick w P) := by
  apply h.mono
  rintro r u ⟨hu, new, hnew, hps⟩
  refine ⟨hu.trans hc, new ++ seg, ?_, ?_⟩
  · rw [hnew, hj, List.append_assoc]
  · rw [excerpt_append]
    exact hps

theorem writes_bind (h : x.Ends w (Writes pick w P))
    (hf : ∀ a ps v, v.calls = w.calls → P (.ok a) ps →
      (f a).Ends v (Writes pick v fun r qs => Q r (ps ++ qs)))
    (he : ∀ halt ps, P (.error halt) ps → Q (.error halt) ps) :
    (x >>= f).Ends w (Writes pick w Q) := by
  apply h.bind
  · rintro a v ⟨hc, seg, hj, hp⟩
    exact Ends.onward hc hj (hf a _ v hc hp)
  · rintro halt v ⟨hc, seg, hj, hp⟩
    exact ⟨hc, seg, hj, he halt _ hp⟩

/-- After work that wrote nothing. -/
theorem mute_bind (h : x.Ends w (Mute pick w))
    (hf : ∀ a v, v.calls = w.calls → (f a).Ends v (Writes pick v Q))
    (he : ∀ halt, Q (.error halt) []) : (x >>= f).Ends w (Writes pick w Q) := by
  apply writes_bind h
  · rintro a _ v hc rfl
    exact hf a v hc
  · rintro halt _ rfl
    exact he halt

theorem writes_pure {a : α} (h : P (.ok a) []) :
    (Pure.pure a : Act ν η μ α).Ends w (Writes pick w P) := ⟨rfl, [], rfl, h⟩

theorem writes_throw {halt : Halt} (h : P (.error halt) []) :
    (throw halt : Act ν η μ α).Ends w (Writes pick w P) := ⟨rfl, [], rfl, h⟩

theorem writes_note {r : Record ν η} {g : Unit → Act ν η μ β}
    (h : (g ()).Ends (w.note r)
      (Writes pick (w.note r) fun a ps => Q a ((pick (w.line r)).toList ++ ps))) :
    (note r >>= g).Ends w (Writes pick w Q) := by
  have hj : (w.note r).journal = [w.line r] ++ w.journal := rfl
  refine ends_note.mpr (Ends.onward rfl hj ?_)
  rw [excerpt_singleton]
  exact h

theorem writes_change {t : Cache ν η → Cache ν η} {g : Unit → Act ν η μ β}
    (h : (g ()).Ends (w.change t) (Writes pick (w.change t) Q)) :
    (change t >>= g).Ends w (Writes pick w Q) := by
  have hj : (w.change t).journal = [] ++ w.journal := rfl
  exact ends_change.mpr (Ends.onward rfl hj h)

theorem writes_bracket {enter leave : World ν η μ → World ν η μ} {a : Activity ν η}
    (hc : (enter w).calls = a :: w.calls) (hj : (enter w).journal = w.journal)
    (hl : ∀ v, (leave v).calls = v.calls.tail ∧ (leave v).journal = v.journal)
    (h : x.Ends (enter w) (Writes pick (enter w) P)) :
    (bracket enter leave x).Ends w (Writes pick w P) := by
  apply ends_bracket
  apply h.mono
  rintro r v ⟨hv, seg, hseg, hp⟩
  refine ⟨?_, seg, ?_, hp⟩
  · rw [(hl v).1, hv, hc]
    rfl
  · rw [(hl v).2, hseg, hj]

theorem writes_during {a : Activity ν η} (h : x.Ends (w.push a) (Writes pick (w.push a) P)) :
    (during a x).Ends w (Writes pick w P) :=
  writes_bracket rfl rfl (fun _ => ⟨rfl, rfl⟩) h

theorem writes_attempt {Q : Except Halt (Except String α) → List γ → Prop}
    (h : x.Ends w (Writes pick w fun r ps => Q (caught r) ps)) :
    (attempt x).Ends w (Writes pick w Q) := ends_attempt h

end Act

/-! ## What the operations of a program leave around them -/

namespace Activity

/-- Work that is begun in the frame in which a program runs. -/
def isBegun : Activity ν η → Bool
  | operation _ => true
  | releasing _ _ => true
  | _ => false

end Activity

namespace Line

/-- An operation ends, a callback ends, or an entry is cleared away. -/
def concludes (l : Line ν η) : Bool :=
  match l.record with
  | .finished _ => true
  | .returned .. => true
  | .unwound _ => true
  | .left _ _ _ .cleared => true
  | _ => false

/-- The line was written inside of what a program began in this frame, or around it. -/
def IsFringe (calls : List (Activity ν η)) (l : Line ν η) : Prop :=
  (∃ a : Activity ν η, a.isBegun = true ∧ a :: calls <:+ l.calls) ∨
    (l.calls = calls ∧ l.concludes = true)

end Line

structure Skirts (w v : World ν η μ) : Prop where
  calls : v.calls = w.calls
  lines : ∃ seg, v.journal = seg ++ w.journal ∧ ∀ l ∈ seg, l.IsFringe w.calls

namespace Skirts

variable {w v u : World ν η μ}

theorem same (hc : v.calls = w.calls) (hj : v.journal = w.journal) : Skirts w v :=
  ⟨hc, [], hj, by simp⟩

theorem trans (h : Skirts w v) (k : Skirts v u) : Skirts w u :=
  ⟨k.calls.trans h.calls, written_trans h.lines (h.calls ▸ k.lines)⟩

theorem note {r : Record ν η} (hr : (w.line r).concludes = true) : Skirts w (w.note r) := by
  refine ⟨rfl, [w.line r], rfl, ?_⟩
  intro l hl
  rw [List.mem_singleton.mp hl]
  exact Or.inr ⟨rfl, hr⟩

theorem inside {a : Activity ν η} (ha : a.isBegun = true) (h : Stretch (w.push a) v) :
    Skirts w v.pop := by
  obtain ⟨seg, hj, hseg⟩ := h.segment
  refine ⟨?_, seg, hj, fun l hl => Or.inl ⟨a, ha, hseg l hl⟩⟩
  rw [World.calls_pop, h.calls]
  rfl

theorem emptied (w : World ν η μ) : Skirts w w.emptied := by
  rw [World.emptied_eq]
  refine ⟨rfl, _, rfl, ?_⟩
  intro l hl
  obtain ⟨r, -, rfl⟩ := List.mem_map.mp (List.mem_reverse.mp hl)
  exact Or.inr ⟨rfl, rfl⟩

end Skirts

namespace Act

variable {host : Host ν η μ} {invoke : Invoke ν η μ}

theorem Follows.skirts_bind {x : Act ν η μ α} {f : α → Act ν η μ β} (h : x.Follows Skirts)
    (hf : ∀ a, (f a).Follows Skirts) : (x >>= f).Follows Skirts := by
  intro w
  refine (h w).bind ?_ fun _ _ hs => hs
  intro a v hs
  exact (hf a v).mono fun _ _ hk => hs.trans hk

theorem releaseIfSet_skirts (hi : ∀ c, (invoke c).Stretches) (key : Key) (e : Entry ν η) :
    (releaseIfSet invoke key e).Follows Skirts := by
  intro w
  apply ends_cache.mpr
  split
  · apply ends_cache.mpr
    cases w.cache.settings.release with
    | none => exact Skirts.same rfl rfl
    | some handler => exact ends_bracket ((hi _ _).mono fun _ _ hs => Skirts.inside rfl hs)
  · exact Skirts.same rfl rfl

theorem closeUnused_skirts (hi : ∀ c, (invoke c).Stretches) :
    (closeUnused invoke).Follows Skirts := by
  have released : ∀ rows : List (Key × Entry ν η),
      (rows.forM fun r => releaseIfSet invoke r.1 r.2).Follows Skirts := by
    intro rows
    induction rows with
    | nil => exact fun w => Skirts.same rfl rfl
    | cons r rows ih => exact .skirts_bind (releaseIfSet_skirts hi r.1 r.2) fun _ => ih
  intro w
  unfold closeUnused
  apply ends_get.mpr
  split
  · unfold close clear
    refine ends_change.mpr (ends_takeAll ((released _ _).mono ?_))
    intro r v hv
    have hclosed : Skirts w (w.change fun c => { c.setTimer none with handle := .closed }) :=
      .same rfl rfl
    exact (hclosed.trans (.emptied _)).trans hv
  · exact Skirts.same rfl rfl

theorem resume_skirts (result : Except String α) :
    (resume result : Act ν η μ α).Follows Skirts := by
  intro w
  cases result <;> exact Skirts.same rfl rfl

theorem operate_skirts (hi : ∀ c, (invoke c).Stretches) (retries : Nat) (op : Operation ν η) :
    (operate host invoke retries op).Follows Skirts := by
  have carried : (during (.operation op) (carryOut host invoke retries op)).Follows Skirts :=
    fun w => ends_bracket ((carryOut_follows Stretch.paths (fun c _ => hi c) host retries
      (Stretch.permits host op) _).mono fun _ _ hs => Skirts.inside rfl hs)
  have finished : (note (.finished op) : Act ν η μ Unit).Follows Skirts := fun _ => .note rfl
  refine .skirts_bind (.attempt (.skirts_bind (.attempt carried) fun result => ?_)) fun result => ?_
  · exact .skirts_bind (closeUnused_skirts hi) fun _ => resume_skirts result
  · exact .skirts_bind finished fun _ => resume_skirts result

theorem perform_skirts (host : Host ν η μ) (depth : Nat) (op : Operation ν η) :
    (perform host depth op).Follows Skirts := by
  intro w
  cases depth with
  | zero => exact Skirts.same rfl rfl
  | succ depth =>
    unfold perform
    apply ends_cache.mpr
    split
    · exact operate_skirts (call_stretches host depth) depth op w
    · exact Skirts.same rfl rfl

theorem run_skirts {perform : Operation ν η → Act ν η μ (Answer ν)}
    (hp : ∀ op, (perform op).Follows Skirts) (p : Program ν η μ α) :
    (p.run perform).Follows Skirts := by
  induction p with
  | done a => exact fun w => Skirts.same rfl rfl
  | panic message => exact fun w => Skirts.same rfl rfl
  | clock next ih => exact fun w => ih w.now w
  | wait span next ih =>
    intro w
    have hwait : Skirts w { w with now := w.now.advance span } := .same rfl rfl
    exact (ih { w with now := w.now.advance span }).mono fun _ _ hs => hwait.trans hs
  | load next ih => exact fun w => ih w.memory w
  | store m next ih =>
    intro w
    have hstore : Skirts w { w with memory := m } := .same rfl rfl
    exact (ih { w with memory := m }).mono fun _ _ hs => hstore.trans hs
  | perform op next ih => exact .skirts_bind (.attempt (hp op)) ih

/-- A call writes that it is entered, and else nothing but its fringe. -/
theorem call_writes {pick : Line ν η → Option γ} (depth : Nat) (c : Callback ν η) {w : World ν η μ}
    (hpick : ∀ l : Line ν η, l.IsFringe w.calls → pick l = none) :
    (call host depth c).Ends w
      (Writes pick w fun _ ps => ps = (pick (w.line (.entered c))).toList) := by
  have skirted : ∀ {α : Type} {x : Act ν η μ α} {v : World ν η μ}, v.calls = w.calls →
      x.Follows Skirts → x.Ends v (Mute pick v) := by
    intro α x v hc hx
    apply (hx v).mono
    rintro r u ⟨hu, seg, hj, hseg⟩
    refine ⟨hu, seg, hj, excerpt_eq_nil fun l hl => ?_⟩
    exact hpick l (hc ▸ hseg l hl)
  refine writes_note (Ends.writes (P := fun _ ps => ps = []) ?_ ?_)
  · have hrun := skirted (v := w.note (.entered c)) rfl
      (run_skirts (perform_skirts host depth) (host.respond c))
    apply mute_bind (writes_attempt hrun)
    · intro r v hc
      have ended : ∀ r : Record ν η, (v.line r).concludes = true → pick (v.line r) = none :=
        fun r hr => hpick _ (Or.inr ⟨hc, hr⟩)
      cases r with
      | ok answer =>
        apply writes_note
        rw [ended _ rfl]
        exact writes_pure rfl
      | error message =>
        apply writes_note
        rw [ended _ rfl]
        exact writes_throw rfl
    · exact fun _ => rfl
  · rintro r _ rfl
    rw [List.append_nil]

end Act

end ExpiringCache
