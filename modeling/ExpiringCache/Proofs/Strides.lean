import ExpiringCache.Proofs.Paths
import ExpiringCache.Proofs.Reachability
import Mathlib.Logic.Relation

/-!
# Strides

What the engine does, one stride at a time, with what it knows when it does it: an entry is touched only
while it is live, an entry with a deadline is marked only once that is reached, and nothing is stored
under a key that the host does not accept. Every piece of work is a sequence of strides, and every line of
the journal shows a world on the way.
-/

namespace ExpiringCache

variable {ν η μ α : Type}

inductive Stride (host : Host ν η μ) : World ν η μ → World ν η μ → Prop
  | clock {w : World ν η μ} (t : Instant) (h : w.now ≤ t) : Stride host w { w with now := t }
  | memory {w : World ν η μ} (m : μ) : Stride host w { w with memory := m }
  | note {w : World ν η μ} (r : Record ν η) : Stride host w (w.note r)
  /-- Nothing that is stored changes. -/
  | adjust {w : World ν η μ} (f : Cache ν η → Cache ν η)
      (he : (f w.cache).entries = w.cache.entries)
      (hn : (f w.cache).nextGeneration = w.cache.nextGeneration) : Stride host w (w.change f)
  | touch {w : World ν η μ} (key : Key) (e : Entry ν η) (he : w.cache.find? key = some e)
      (hlive : e.due w.now = false) : Stride host w (w.change (.touch w.now key))
  | insert {w : World ν η μ} (key : Key) (value : ν) (policy : Option (Policy η))
      (ha : host.accepts key = true) : Stride host w (w.change (.insert w.now key value policy))
  | takeOut {w : World ν η μ} (key : Key) (f : Stats → Stats) : Stride host w (w.change (.takeOut key f))
  | drain {w : World ν η μ} : Stride host w (w.change .drain)
  | mark {w : World ν η μ} (key : Key) (g : Nat) (e : Entry ν η)
      (he : w.cache.insertion? key g = some e)
      (hdue : ∀ policy, e.policy = some policy → policy.isTimed = true → e.due w.now = true) :
      Stride host w ((w.change (.mark true key g)).push (.deciding key g))
  | unmark {w : World ν η μ} (key : Key) (g : Nat) : Stride host w (w.change (.mark false key g))
  | enter {w : World ν η μ} (a : Activity ν η) (ha : ∀ key g, a ≠ .deciding key g) :
      Stride host w (w.push a)
  | leave {w : World ν η μ} : Stride host w w.pop

abbrev Strides (host : Host ν η μ) : World ν η μ → World ν η μ → Prop :=
  Relation.ReflTransGen (Stride host)

namespace Strides

variable {host : Host ν η μ} {w v u : World ν η μ}

theorem one (h : Stride host w v) : Strides host w v := .single h

theorem noted (h : Strides host w v) (r : Record ν η) : Strides host w (v.note r) := h.tail (.note r)

theorem asked {policy : Policy η} {answer : Option Bool} (h : w.Asks policy answer v) :
    Strides host w v := by
  cases h with
  | timed => exact .refl
  | custom predicate answer m => exact (Strides.one (.memory m)).noted _

theorem examined {key : Key} {g : Nat} {answer : Option Bool} (h : w.Examines key g answer v) :
    Strides host w v := by
  cases h with
  | asked e policy answer v he hp ha => exact asked ha
  | _ => exact .refl

theorem placed {key : Key} (ha : host.accepts key = true) (value : ν) (policy : Option (Policy η))
    (w : World ν η μ) : Strides host w (w.placed key value policy) := by
  have came : Strides host w ((w.change (.insert w.now key value policy)).note
      (.inserted w.cache.nextGeneration key value)) :=
    (Strides.one (.insert key value policy ha)).noted _
  unfold World.placed
  cases w.cache.find? key with
  | none => exact came
  | some old => exact came.noted _

theorem emptied (w : World ν η μ) : Strides host w w.emptied := by
  have cleared : ∀ (rows : List (Key × Entry ν η)) (v : World ν η μ), Strides host w v →
      Strides host w (v.noteCleared rows) := by
    intro rows
    induction rows with
    | nil => exact fun _ h => h
    | cons r rows ih => exact fun v h => ih (v.note _) (h.noted _)
  exact cleared w.cache.entries.rows _ (.single .drain)

/-- Every new line shows a world on the way. -/
theorem line (h : Strides host w v) {l : Line ν η} {before : List (Line ν η)}
    (hl : l :: before <:+ v.journal) : l :: before <:+ w.journal ∨ ∃ u, Strides host w u ∧
      Strides host u v ∧ u.now = l.now ∧ u.calls = l.calls ∧ u.cache = l.cache ∧ u.journal = before := by
  induction h with
  | refl => exact Or.inl hl
  | @tail v u hv hs ih =>
    have same : u.journal = v.journal → l :: before <:+ w.journal ∨ ∃ x, Strides host w x ∧
        Strides host x u ∧ x.now = l.now ∧ x.calls = l.calls ∧ x.cache = l.cache ∧
          x.journal = before := by
      intro hj
      rw [hj] at hl
      rcases ih hl with h | ⟨x, h1, h2, h3⟩
      · exact Or.inl h
      · exact Or.inr ⟨x, h1, h2.tail hs, h3⟩
    cases hs with
    | note r =>
      rcases List.suffix_cons_iff.mp hl with heq | h
      · obtain ⟨rfl, rfl⟩ := List.cons.inj heq
        exact Or.inr ⟨v, hv, .single (.note r), rfl, rfl, rfl, rfl⟩
      · rcases ih h with h | ⟨x, h1, h2, h3⟩
        · exact Or.inl h
        · exact Or.inr ⟨x, h1, h2.noted r, h3⟩
    | _ => exact same rfl

end Strides

/-- Strides that lead back to the work in progress they began with. -/
def Passes (host : Host ν η μ) (w v : World ν η μ) : Prop := v.calls = w.calls ∧ Strides host w v

namespace Passes

variable {host : Host ν η μ} {w v : World ν η μ}

theorem concluded {g : Nat} {key : Key} {value : ν} {answers : List Decision} {u : Upshot}
    (h : (w.note (.decided g key value answers)).Commits key g u v) : Passes host w v := by
  have h1 : Strides host w (w.note (.decided g key value answers)) := .single (.note _)
  cases h with
  | stale hx => exact ⟨hx.calls, h1.trans (Strides.examined hx)⟩
  | unwound hx => exact ⟨hx.calls, h1.trans (Strides.examined hx)⟩
  | evicted e he hx =>
    have h2 : Strides host w (World.change (.takeOut key .expiration) _) :=
      (h1.trans (Strides.examined hx)).tail (.takeOut key .expiration)
    exact ⟨hx.calls, h2.noted _⟩

theorem paths (host : Host ν η μ) : Paths (Passes host) (fun _ => True) where
  still w := ⟨rfl, .refl⟩
  trans h k := ⟨k.1.trans h.1, h.2.trans k.2⟩
  memory m := ⟨rfl, .single (.memory m)⟩
  note r _ _ := ⟨rfl, .single (.note r)⟩
  retune f h := ⟨rfl, .single (.adjust f h.entries h.nextGeneration)⟩
  touch key e he hlive := ⟨rfl, .single (.touch key e he hlive)⟩
  read key found := ⟨rfl, (Strides.one (.adjust _ rfl rfl)).noted _⟩
  vetoed g key value answers _ :=
    ⟨rfl, (Strides.one (.note _)).tail (.adjust _ rfl rfl)⟩
  concluded _ _ _ _ _ _ _ := concluded
  close {w} _ := by
    have h1 : Strides host w (w.change fun c => { c.setTimer none with handle := .closed }) :=
      .single (.adjust _ rfl rfl)
    refine ⟨?_, h1.trans (Strides.emptied _)⟩
    rw [World.emptied_eq]
    rfl
  during {w v} a ha h := by
    have hplain : ∀ key g, a ≠ .deciding key g := by
      rintro key g rfl
      cases ha
    refine ⟨?_, ((Strides.one (.enter a hplain)).trans h.2).tail .leave⟩
    rw [World.calls_pop, h.1]
    rfl
  deciding {w v} key g e he _ hdue h := by
    refine ⟨?_, (((Strides.one (.mark key g e he hdue)).trans h.2).tail
      (.unmark key g)).tail .leave⟩
    rw [World.calls_pop, World.calls_change, h.1]
    rfl
  holding {w v} key acquired slot _ h := by
    have h1 : Strides host w ((w.change ({ · with admission := acquired })).push
        (.fetching key slot)) :=
      (Strides.one (.adjust _ rfl rfl)).tail (.enter _ fun _ _ h => nomatch h)
    refine ⟨?_, ((h1.trans h.2).tail (.adjust _ rfl rfl)).tail .leave⟩
    rw [World.calls_pop, World.calls_change, h.1]
    rfl

theorem elapsed (host : Host ν η μ) (span : Span) (w : World ν η μ) :
    Passes host w { w with now := w.now.advance span } :=
  ⟨rfl, .single (.clock _ (w.now.le_advance span))⟩

theorem scheduled (host : Host ν η μ) (timer : Option Timer) (w : World ν η μ) :
    Passes host w (w.change (.setTimer timer)) := ⟨rfl, .single (.adjust _ rfl rfl)⟩

theorem emptied (host : Host ν η μ) (w : World ν η μ) : Passes host w w.emptied := by
  refine ⟨?_, Strides.emptied w⟩
  rw [World.emptied_eq]
  rfl

theorem admits (host : Host ν η μ) (op : Operation ν η) :
    Act.Admits host (Passes host) (fun _ => True) op :=
  (paths host).admits
    (fun _ ha w value policy => ⟨World.calls_placed .., Strides.placed ha value policy w⟩)
    (fun key _ _ _ => ⟨rfl, (Strides.one (.takeOut key (.removed 1))).noted _⟩) (emptied host)
    (fun _ => ⟨rfl, .single (.adjust .giveUp rfl rfl)⟩) op

theorem governs (host : Host ν η μ) : Act.Governs host (Passes host) :=
  ⟨paths host, elapsed host, scheduled host, admits host⟩

end Passes

/-! ## What lasts -/

/-- An insertion that is stored in the end was stored in the beginning, if it had come in by then; and
once it is due, nothing about it changes but its mark. -/
structure Endures (w v : World ν η μ) : Prop where
  now : w.now ≤ v.now
  next : w.cache.nextGeneration ≤ v.cache.nextGeneration
  stored : ∀ key e', v.cache.find? key = some e' → e'.generation < w.cache.nextGeneration →
    ∃ e, w.cache.find? key = some e ∧ e'.generation = e.generation ∧ e'.value = e.value ∧
      e'.createdAt = e.createdAt ∧ (e.due w.now = true →
        e'.policy = e.policy ∧ e'.lastAccessedAt = e.lastAccessedAt)

namespace Endures

variable {w v u : World ν η μ}

theorem of_same (hnow : w.now ≤ v.now) (hn : w.cache.nextGeneration ≤ v.cache.nextGeneration)
    (h : ∀ key e', v.cache.find? key = some e' → e'.generation < w.cache.nextGeneration →
      ∃ e, w.cache.find? key = some e ∧ e' = { e with pending := e'.pending }) : Endures w v := by
  refine ⟨hnow, hn, ?_⟩
  intro key e' he' hlt
  obtain ⟨e, he, heq⟩ := h key e' he' hlt
  rw [heq]
  exact ⟨e, he, rfl, rfl, rfl, fun _ => ⟨rfl, rfl⟩⟩

theorem of_find? (hnow : w.now ≤ v.now) (hn : w.cache.nextGeneration ≤ v.cache.nextGeneration)
    (h : ∀ key e, v.cache.find? key = some e → w.cache.find? key = some e) : Endures w v :=
  of_same hnow hn fun key e he _ => ⟨e, h key e he, rfl⟩

theorem refl (w : World ν η μ) : Endures w w :=
  of_find? (Int.le_refl _) (Nat.le_refl _) fun _ _ h => h

theorem trans (h : Endures w v) (k : Endures v u) : Endures w u := by
  refine ⟨Int.le_trans h.now k.now, Nat.le_trans h.next k.next, ?_⟩
  intro key e'' he'' hlt
  obtain ⟨e', he', hg', hv', hc', hdue'⟩ := k.stored key e'' he'' (Nat.lt_of_lt_of_le hlt h.next)
  obtain ⟨e, he, hg, hv, hc, hdue⟩ := h.stored key e' he' (hg' ▸ hlt)
  refine ⟨e, he, hg'.trans hg, hv'.trans hv, hc'.trans hc, ?_⟩
  intro hd
  obtain ⟨hp, hl⟩ := hdue hd
  have hd' : e'.due v.now = true := by
    unfold Entry.due Entry.deadline?
    rw [hp]
    exact Entry.due_mono h.now hd
  exact ⟨(hdue' hd').1.trans hp, (hdue' hd').2.trans hl⟩

theorem mark (b : Bool) (key : Key) (g : Nat) (w : World ν η μ) :
    Endures w (w.change (.mark b key g)) := by
  refine of_same (Int.le_refl _) (Nat.le_refl _) ?_
  intro j e' he' _
  obtain ⟨e, he, marked, rfl⟩ := Cache.exists_of_find?_mark he'
  exact ⟨e, he, rfl⟩

theorem touch {key : Key} {e : Entry ν η} (he : w.cache.find? key = some e)
    (hlive : e.due w.now = false) : Endures w (w.change (.touch w.now key)) := by
  refine ⟨Int.le_refl _, Nat.le_refl _, ?_⟩
  intro j e' he' _
  obtain ⟨old, hold, rfl | ⟨rfl, rfl⟩⟩ := Cache.exists_of_find?_touch he'
  · exact ⟨e', hold, rfl, rfl, rfl, fun _ => ⟨rfl, rfl⟩⟩
  · obtain rfl := Option.some.inj (he.symm.trans hold)
    refine ⟨e, he, rfl, rfl, rfl, ?_⟩
    intro hd
    rw [hlive] at hd
    cases hd

theorem insert (key : Key) (value : ν) (policy : Option (Policy η)) (w : World ν η μ) :
    Endures w (w.change (.insert w.now key value policy)) := by
  refine of_same (Int.le_refl _) (Nat.le_succ _) ?_
  intro j e' he' hlt
  rcases Cache.find?_insert_eq_some.mp he' with ⟨-, rfl⟩ | ⟨-, he'⟩
  · exact absurd hlt (Nat.lt_irrefl _)
  · exact ⟨e', he', rfl⟩

end Endures

theorem Stride.endures {host : Host ν η μ} {w v : World ν η μ} (h : Stride host w v) : Endures w v := by
  cases h with
  | clock t ht => exact .of_find? ht (Nat.le_refl _) fun _ _ h => h
  | adjust f he hn =>
    refine .of_find? (Int.le_refl _) (Nat.le_of_eq hn.symm) ?_
    intro key e h
    unfold Cache.find? at h ⊢
    rw [← he]
    exact h
  | touch key e he hlive => exact .touch he hlive
  | insert key value policy => exact .insert key value policy w
  | takeOut key f =>
    refine .of_find? (Int.le_refl _) (Nat.le_refl _) ?_
    intro j e h
    rw [World.cache_change, Cache.find?_takeOut] at h
    split at h
    · cases h
    · exact h
  | drain => exact .of_find? (Int.le_refl _) (Nat.le_refl _) fun _ _ h => nomatch h
  | mark key g => exact (Endures.mark true key g w).trans (.of_find? (Int.le_refl _) (Nat.le_refl _)
      fun _ _ h => h)
  | unmark key g => exact .mark false key g w
  | _ => exact .of_find? (Int.le_refl _) (Nat.le_refl _) fun _ _ h => h

theorem Strides.endures {host : Host ν η μ} {w v : World ν η μ} (h : Strides host w v) :
    Endures w v := by
  induction h with
  | refl => exact .refl w
  | tail _ hs ih => exact ih.trans hs.endures

/-! ## Entries that are decided about -/

/-- Nothing is stored under a key that the host does not accept; and what handlers decide about has
come in and, if it has a deadline, is due. -/
structure Poised (host : Host ν η μ) (w : World ν η μ) : Prop where
  accepted : ∀ key e, w.cache.find? key = some e → host.accepts key = true
  below : ∀ key e, w.cache.find? key = some e → e.generation < w.cache.nextGeneration
  known : ∀ key g, .deciding key g ∈ w.calls → g < w.cache.nextGeneration
  due : ∀ key g e policy, .deciding key g ∈ w.calls → w.cache.insertion? key g = some e →
    e.policy = some policy → policy.isTimed = true → e.due w.now = true

namespace Poised

variable {host : Host ν η μ} {w v : World ν η μ}

theorem fresh (settings : Settings η) (hosting : Hosting) (t : Instant) (memory : μ) :
    Poised host (World.fresh settings hosting t memory : World ν η μ) where
  accepted key e he := by cases he
  below key e he := by cases he
  known key g h := by cases h
  due key g e policy h := by cases h

/-- What was stored before and is due as it was keeps the world poised. -/
theorem less (h : Poised host w) (hnow : w.now ≤ v.now)
    (hn : w.cache.nextGeneration ≤ v.cache.nextGeneration)
    (hc : ∀ key g, .deciding key g ∈ v.calls → .deciding key g ∈ w.calls)
    (hf : ∀ key e', v.cache.find? key = some e' → ∃ e, w.cache.find? key = some e ∧
      e'.generation = e.generation ∧ e'.policy = e.policy) : Poised host v where
  accepted key e' he' := by
    obtain ⟨e, he, -⟩ := hf key e' he'
    exact h.accepted key e he
  below key e' he' := by
    obtain ⟨e, he, hg, -⟩ := hf key e' he'
    rw [hg]
    exact Nat.lt_of_lt_of_le (h.below key e he) hn
  known key g hd := Nat.lt_of_lt_of_le (h.known key g (hc key g hd)) hn
  due key g e' policy hd he' hp ht := by
    obtain ⟨hfind, hg'⟩ := Cache.insertion?_eq_some.mp he'
    obtain ⟨e, he, hg, hpol⟩ := hf key e' hfind
    have hdue := h.due key g e policy (hc key g hd)
      (Cache.insertion?_eq_some.mpr ⟨he, hg.symm.trans hg'⟩) (hpol ▸ hp) ht
    unfold Entry.due Entry.deadline?
    rw [hpol]
    exact Entry.due_mono hnow hdue

theorem touch (h : Poised host w) {key : Key} {e : Entry ν η} (he : w.cache.find? key = some e)
    (hlive : e.due w.now = false) : Poised host (w.change (.touch w.now key)) := by
  have hfind : ∀ j e', (w.cache.touch w.now key).find? j = some e' →
      (j = key ∧ e' = e.touch w.now) ∨ w.cache.find? j = some e' := by
    intro j e' he'
    obtain ⟨old, hold, rfl | ⟨rfl, rfl⟩⟩ := Cache.exists_of_find?_touch he'
    · exact Or.inr hold
    · obtain rfl := Option.some.inj (he.symm.trans hold)
      exact Or.inl ⟨rfl, rfl⟩
  refine ⟨?_, ?_, h.known, ?_⟩
  · intro j e' he'
    rcases hfind j e' he' with ⟨rfl, rfl⟩ | he'
    · exact h.accepted j e he
    · exact h.accepted j e' he'
  · intro j e' he'
    rcases hfind j e' he' with ⟨rfl, rfl⟩ | he'
    · exact h.below j e he
    · exact h.below j e' he'
  · intro j g e' policy hd he' hp ht
    obtain ⟨hf, hg⟩ := Cache.insertion?_eq_some.mp he'
    rcases hfind j e' hf with ⟨rfl, rfl⟩ | hf
    · -- what is decided about is due, so it is not touched
      obtain ⟨p, hp', rfl⟩ := Option.map_eq_some_iff.mp hp
      rw [Policy.isTimed_accessed] at ht
      have hdue := h.due j g e p hd (Cache.insertion?_eq_some.mpr ⟨he, hg⟩) hp' ht
      rw [hlive] at hdue
      cases hdue
    · exact h.due j g e' policy hd (Cache.insertion?_eq_some.mpr ⟨hf, hg⟩) hp ht

theorem insert (h : Poised host w) {key : Key} (ha : host.accepts key = true) (value : ν)
    (policy : Option (Policy η)) : Poised host (w.change (.insert w.now key value policy)) := by
  have hfind : ∀ j e', (w.cache.insert w.now key value policy).find? j = some e' →
      (j = key ∧ e'.generation = w.cache.nextGeneration) ∨ w.cache.find? j = some e' := by
    intro j e' he'
    rcases Cache.find?_insert_eq_some.mp he' with ⟨hj, rfl⟩ | ⟨-, he'⟩
    · exact Or.inl ⟨hj, rfl⟩
    · exact Or.inr he'
  refine ⟨?_, ?_, ?_, ?_⟩
  · intro j e' he'
    rcases hfind j e' he' with ⟨rfl, -⟩ | he'
    · exact ha
    · exact h.accepted j e' he'
  · intro j e' he'
    rcases hfind j e' he' with ⟨-, hg⟩ | he'
    · rw [hg]
      exact Nat.lt_succ_self _
    · exact Nat.lt_succ_of_lt (h.below j e' he')
  · exact fun j g hd => Nat.lt_succ_of_lt (h.known j g hd)
  · intro j g e' p hd he' hp ht
    obtain ⟨hf, hg⟩ := Cache.insertion?_eq_some.mp he'
    rcases hfind j e' hf with ⟨-, hnew⟩ | hf
    · have hlt := h.known j g hd
      omega
    · exact h.due j g e' p hd (Cache.insertion?_eq_some.mpr ⟨hf, hg⟩) hp ht

theorem remark (h : Poised host w) (b : Bool) (key : Key) (g : Nat) :
    Poised host (w.change (.mark b key g)) := by
  refine h.less (Int.le_refl _) (Nat.le_refl _) (fun _ _ h => h) ?_
  intro j e' he'
  obtain ⟨e, he, marked, rfl⟩ := Cache.exists_of_find?_mark he'
  exact ⟨e, he, rfl, rfl⟩

theorem mark (h : Poised host w) {key : Key} {g : Nat} {e : Entry ν η}
    (he : w.cache.insertion? key g = some e)
    (hdue : ∀ policy, e.policy = some policy → policy.isTimed = true → e.due w.now = true) :
    Poised host ((w.change (.mark true key g)).push (.deciding key g)) := by
  have hm := h.remark true key g
  obtain ⟨hf, hg⟩ := Cache.insertion?_eq_some.mp he
  refine ⟨hm.accepted, hm.below, ?_, ?_⟩
  · intro j i hd
    rcases List.mem_cons.mp hd with heq | hd
    · cases heq
      rw [← hg]
      exact h.below key e hf
    · exact h.known j i hd
  · intro j i e' p hd he' hp ht
    rcases List.mem_cons.mp hd with heq | hd
    · cases heq
      obtain ⟨hf', -⟩ := Cache.insertion?_eq_some.mp he'
      rw [World.cache_push, World.cache_change, Cache.find?_mark, if_pos rfl, hf, Option.map_some,
        if_pos hg] at hf'
      obtain rfl := Option.some.inj hf'
      exact hdue p hp ht
    · exact hm.due j i e' p hd he' hp ht

end Poised

theorem Stride.poised {host : Host ν η μ} {w v : World ν η μ} (h : Stride host w v)
    (hw : Poised host w) : Poised host v := by
  have same : ∀ {u : World ν η μ}, w.now ≤ u.now → u.cache = w.cache →
      (∀ key g, .deciding key g ∈ u.calls → .deciding key g ∈ w.calls) → Poised host u := by
    intro u hnow hc hcalls
    apply hw.less hnow (Nat.le_of_eq (by rw [hc])) hcalls
    intro key e he
    rw [hc] at he
    exact ⟨e, he, rfl, rfl⟩
  cases h with
  | clock t ht => exact same ht rfl fun _ _ h => h
  | memory m => exact same (Int.le_refl _) rfl fun _ _ h => h
  | note r => exact same (Int.le_refl _) rfl fun _ _ h => h
  | adjust f he hn =>
    refine hw.less (Int.le_refl _) (Nat.le_of_eq hn.symm) (fun _ _ h => h) ?_
    intro key e h
    unfold Cache.find? at h
    rw [World.cache_change, he] at h
    exact ⟨e, h, rfl, rfl⟩
  | touch key e he hlive => exact hw.touch he hlive
  | insert key value policy ha => exact hw.insert ha value policy
  | takeOut key f =>
    refine hw.less (Int.le_refl _) (Nat.le_refl _) (fun _ _ h => h) ?_
    exact fun j e h => ⟨e, (Cache.find?_takeOut_eq_some.mp h).2, rfl, rfl⟩
  | drain =>
    exact hw.less (Int.le_refl _) (Nat.le_refl _) (fun _ _ h => h) fun _ _ h => nomatch h
  | mark key g e he hdue => exact hw.mark he hdue
  | unmark key g => exact hw.remark false key g
  | enter a ha =>
    refine same (Int.le_refl _) rfl ?_
    intro key g h
    rcases List.mem_cons.mp h with heq | h
    · exact absurd heq.symm (ha key g)
    · exact h
  | leave => exact same (Int.le_refl _) rfl fun _ _ h => List.mem_of_mem_tail h

theorem Strides.poised {host : Host ν η μ} {w v : World ν η μ} (h : Strides host w v)
    (hw : Poised host w) : Poised host v := by
  induction h with
  | refl => exact hw
  | tail _ hs ih => exact hs.poised ih

/-! ## Sessions -/

theorem Reachable.strides {host : Host ν η μ} {settings : Settings η} {hosting : Hosting}
    {w : World ν η μ} (h : Reachable host settings hosting w) :
    ∃ t memory, Strides host (World.fresh settings hosting t memory) w := by
  have hg := Passes.governs host
  obtain ⟨t, memory, -, hs⟩ := h.path hg.paths.still hg.paths.trans fun bound p => hg.turn bound p
  exact ⟨t, memory, hs⟩

theorem Between.strides {host : Host ν η μ} {settings : Settings η} {hosting : Hosting}
    {w : World ν η μ} (h : Between host settings hosting w) :
    ∃ t memory, Strides host (World.fresh settings hosting t memory) w := (Reachable.between h).strides

end ExpiringCache
