import ExpiringCache.Proofs.Conservation
import ExpiringCache.Proofs.Presence
import ExpiringCache.Proofs.Strides

/-!
# Vetoes

An entry whose eviction is vetoed every time it is offered stays what it is, and is read as if it were
live. Work is followed here on the condition that its segment of the journal is as it should be: it
shows no panic, and no round about the insertion without a veto. What that comes to is put together
from the work's parts, since a part's segment is a part of the segment.
-/

namespace ExpiringCache

variable {ν η μ α β : Type}

/-- An insertion of which nothing may change as long as it is stored. -/
structure Stay (ν : Type) where
  key : Key
  generation : Nat
  value : ν
  since : Instant

def Entry.stay (key : Key) (e : Entry ν η) : Stay ν := ⟨key, e.generation, e.value, e.createdAt⟩

namespace Cache

/-- The insertion that is stored under `key`. -/
def stay? (c : Cache ν η) (key : Key) : Option (Stay ν) := (c.find? key).map (·.stay key)

theorem stay?_touch (t : Instant) (key : Key) (c : Cache ν η) (j : Key) :
    (c.touch t key).stay? j = c.stay? j := by
  unfold stay?
  rw [find?_touch]
  split
  · rename_i h
    rw [h, Option.map_map]
    rfl
  · rfl

theorem stay?_mark (b : Bool) (key : Key) (g : Nat) (c : Cache ν η) (j : Key) :
    (c.mark b key g).stay? j = c.stay? j := by
  unfold stay?
  rw [find?_mark]
  split
  · rename_i h
    rw [h, Option.map_map]
    congr 1
    funext e
    dsimp only [Function.comp]
    split <;> rfl
  · rfl

theorem stay?_insert {j key : Key} (h : j ≠ key) (t : Instant) (value : ν)
    (policy : Option (Policy η)) (c : Cache ν η) :
    (c.insert t key value policy).stay? j = c.stay? j := by
  unfold stay?
  rw [find?_insert, if_neg h]

theorem stay?_takeOut {j key : Key} (h : j ≠ key) (f : Stats → Stats) (c : Cache ν η) :
    (c.takeOut key f).stay? j = c.stay? j := by
  unfold stay?
  rw [find?_takeOut, if_neg h]

end Cache

namespace Operation

/-- The operation neither replaces what is stored under `key` nor takes it out. -/
def Avoids (key : Key) : Operation ν η → Prop
  | .insert k _ _ => k ≠ key
  | .fetch k _ options => k = key → options.overwrite = false
  | .race k _ options _ => k = key → options.overwrite = false
  | .remove k => k ≠ key
  | .clear => False
  | .drop => False
  | _ => True

/-- What the operation answers if it reads the insertion. -/
def answer? (s : Stay ν) : Operation ν η → Option (Answer ν)
  | .get k => if k = s.key then some (.found (some s.value)) else none
  | .contains k => if k = s.key then some (.flag true) else none
  | .fetch k _ _ => if k = s.key then some (.fetched s.value) else none
  | .race k _ _ callers =>
    if k = s.key then some (.raced (List.replicate callers (.value s.value))) else none
  | _ => none

end Operation

namespace Line

def makesFor (key : Key) (l : Line ν η) : Bool :=
  match l.record with
  | .entered (.factory _ k) => k == key
  | _ => false

theorem makesFor_of_consults {l : Line ν η} (h : l.consults = true) (key : Key) :
    l.makesFor key = false := by
  unfold consults at h
  unfold makesFor
  split at h
  · rename_i hr
    rw [hr]
  · cases h

end Line

/-- The cache is in use and the insertion is stored. -/
def World.Retains (s : Stay ν) (w : World ν η μ) : Prop :=
  w.cache.handle = .held ∧ w.cache.stay? s.key = some s

theorem World.Retains.congr {s : Stay ν} {w v : World ν η μ} (h : w.Retains s)
    (hh : v.cache.handle = w.cache.handle) (hs : v.cache.stay? s.key = w.cache.stay? s.key) :
    v.Retains s := ⟨hh.trans h.1, hs.trans h.2⟩

/-- An insertion stays while another one is taken out or not. -/
theorem World.Retains.commits {s : Stay ν} {w v : World ν η μ} {key : Key} {g : Nat} {x : Upshot}
    (h : w.Retains s) (hne : ¬(key = s.key ∧ g = s.generation)) (hv : w.Commits key g x v) :
    v.Retains s := by
  cases hv with
  | stale hx => exact h.congr (congrArg Cache.handle hx.cache) (by rw [hx.cache])
  | unwound hx => exact h.congr (congrArg Cache.handle hx.cache) (by rw [hx.cache])
  | @evicted v e he hx =>
    have hkey : s.key ≠ key := by
      rintro rfl
      obtain ⟨hf, hg⟩ := Cache.insertion?_eq_some.mp he
      have hs := h.2
      unfold Cache.stay? at hs
      rw [hf] at hs
      exact hne ⟨rfl, hg.symm.trans (congrArg Stay.generation (Option.some.inj hs))⟩
    have hh : v.cache.handle = w.cache.handle := congrArg Cache.handle hx.cache
    refine h.congr hh ?_
    rw [World.cache_note, World.cache_change, Cache.stay?_takeOut hkey, hx.cache]

theorem World.Commits.makesFor {w v : World ν η μ} {key : Key} {g : Nat} {x : Upshot}
    (h : w.Commits key g x v) (j : Key) :
    ∃ new, v.journal = new ++ w.journal ∧ ∀ l ∈ new, l.makesFor j = false := by
  have asked : ∀ {v : World ν η μ} {answer : Option Bool}, w.Examines key g answer v →
      ∃ new, v.journal = new ++ w.journal ∧ ∀ l ∈ new, l.makesFor j = false := by
    intro v answer hx
    obtain ⟨new, hj, hnew⟩ := hx.lines
    exact ⟨new, hj, fun l hl => Line.makesFor_of_consults (hnew l hl).1 j⟩
  cases h with
  | stale hx => exact asked hx
  | unwound hx => exact asked hx
  | @evicted v e he hx =>
    obtain ⟨new, hj, hnew⟩ := asked hx
    refine ⟨_ :: new, congrArg (List.cons _) hj, ?_⟩
    intro l hl
    rcases List.mem_cons.mp hl with rfl | hl
    · rfl
    · exact hnew l hl

/-- No panic, and a veto in every round about the insertion. -/
def Upheld (s : Stay ν) (seg : List (Line ν η)) : Prop :=
  ∀ l ∈ seg, l.panics = false ∧
    ∀ value answers, l.record = .decided s.generation s.key value answers → Decision.cancel ∈ answers

/-- Work on whose way the insertion, if it is upheld, stays and has no value made for its key, and
which ends so that `P`. -/
structure Upholds (s : Stay ν) (P : Prop) (w v : World ν η μ) : Prop where
  stretch : Stretch w v
  kept : ∃ seg, v.journal = seg ++ w.journal ∧ (Upheld s seg → w.Retains s →
    v.Retains s ∧ (∀ l ∈ seg, l.makesFor s.key = false) ∧ P)

namespace Upholds

variable {s : Stay ν} {P Q : Prop} {w v u : World ν η μ}

theorem conclude (h : Upholds s P w v) {seg : List (Line ν η)} (hj : v.journal = seg ++ w.journal)
    (hu : Upheld s seg) (hw : w.Retains s) :
    v.Retains s ∧ (∀ l ∈ seg, l.makesFor s.key = false) ∧ P := by
  obtain ⟨seg', hj', hkept⟩ := h.kept
  obtain rfl : seg = seg' := List.append_cancel_right (hj.symm.trans hj')
  exact hkept hu hw

theorem of_still (hs : Stretch w v) (hj : v.journal = w.journal)
    (hk : w.Retains s → v.Retains s) : Upholds s True w v :=
  ⟨hs, [], hj, fun _ hw => ⟨hk hw, by simp, trivial⟩⟩

theorem of_line {l : Line ν η} (hs : Stretch w v) (hj : v.journal = l :: w.journal)
    (hl : l.makesFor s.key = false) (hk : w.Retains s → v.Retains s) : Upholds s True w v := by
  refine ⟨hs, [l], hj, ?_⟩
  intro _ hw
  refine ⟨hk hw, ?_, trivial⟩
  intro m hm
  rw [List.mem_singleton.mp hm]
  exact hl

/-- Nothing is said of work that begins without the insertion. -/
theorem vacant (hs : Stretch w v) (hw : ¬ w.Retains s) : Upholds s P w v := by
  obtain ⟨seg, hj, -⟩ := hs.segment
  exact ⟨hs, seg, hj, fun _ h => absurd h hw⟩

theorem broken (hs : Stretch w v) {l : Line ν η} {new : List (Line ν η)}
    (hj : v.journal = new ++ w.journal) (hl : l ∈ new) (hno : ¬ Upheld s [l]) :
    Upholds s P w v := by
  refine ⟨hs, new, hj, fun hu _ => absurd ?_ hno⟩
  intro m hm
  rw [List.mem_singleton.mp hm]
  exact hu l hl

theorem strengthen (h : Upholds s P w v) (hpq : w.Retains s → P → Q) : Upholds s Q w v := by
  obtain ⟨seg, hj, hkept⟩ := h.kept
  refine ⟨h.stretch, seg, hj, fun hu hw => ?_⟩
  obtain ⟨hv, hno, hp⟩ := hkept hu hw
  exact ⟨hv, hno, hpq hw hp⟩

theorem imp (h : Upholds s P w v) (hpq : P → Q) : Upholds s Q w v := h.strengthen fun _ => hpq

/-- What comes next matters only if what has come before was as it should be. -/
theorem trans (h : Upholds s P w v) (hs : Stretch v u) (k : P → Upholds s Q v u) :
    Upholds s Q w u := by
  obtain ⟨old, hold, ho⟩ := h.kept
  obtain ⟨new, hnew, -⟩ := hs.segment
  refine ⟨h.stretch.trans hs, new ++ old, ?_, ?_⟩
  · rw [hnew, hold, List.append_assoc]
  · intro hu hw
    obtain ⟨hv, hnone, hp⟩ := ho (fun l hl => hu l (List.mem_append_right new hl)) hw
    obtain ⟨hv', hnone', hq⟩ :=
      (k hp).conclude hnew (fun l hl => hu l (List.mem_append_left old hl)) hv
    exact ⟨hv', fun l hl => (List.mem_append.mp hl).elim (hnone' l) (hnone l), hq⟩

theorem further (h : Upholds s P w v) (k : Upholds s True v u) : Upholds s P w u :=
  h.trans k.stretch fun hp => k.imp fun _ => hp

theorem before (h : Upholds s True w v) (k : Upholds s Q v u) : Upholds s Q w u :=
  h.trans k.stretch fun _ => k

/-- Nothing is said of what comes of work that was not as it should be. -/
theorem lost (h : Upholds s P w v) (k : Upholds s False v u) : Upholds s Q w u :=
  h.trans k.stretch fun _ => k.imp False.elim

theorem around {w' v' : World ν η μ} (h : Upholds s P w' v') (hs : Stretch w v)
    (hj : w'.journal = w.journal) (hj' : v.journal = v'.journal)
    (hin : w.Retains s → w'.Retains s) (hout : v'.Retains s → v.Retains s) : Upholds s P w v := by
  obtain ⟨seg, hseg, hkept⟩ := h.kept
  refine ⟨hs, seg, ?_, ?_⟩
  · rw [hj', hseg, hj]
  · intro hu hw
    obtain ⟨hv, hno, hp⟩ := hkept hu (hin hw)
    exact ⟨hout hv, hno, hp⟩

theorem during {a : Activity ν η} (ha : a.isPlain = true) (h : Upholds s P (w.push a) v) :
    Upholds s P w v.pop := h.around (.during a ha h.stretch) rfl rfl id id

theorem deciding {key : Key} {g : Nat} {e : Entry ν η} (he : w.cache.insertion? key g = some e)
    (hp : e.pending = false)
    (h : Upholds s P ((w.change (.mark true key g)).push (.deciding key g)) v) :
    Upholds s P w ((v.change (.mark false key g)).pop) :=
  h.around (.deciding key g e he hp h.stretch) rfl rfl
    (fun hw => hw.congr rfl (Cache.stay?_mark ..)) fun hv => hv.congr rfl (Cache.stay?_mark ..)

theorem holding {key : Key} {acquired : Admission} {slot : Nat}
    (ha : w.cache.admission.acquire? key = some (acquired, slot))
    (h : Upholds s P ((w.change ({ · with admission := acquired })).push (.fetching key slot)) v) :
    Upholds s P w ((v.change fun c => { c with admission := c.admission.release key slot }).pop) :=
  h.around (.holding key acquired slot ha h.stretch) rfl rfl (fun hw => hw.congr rfl rfl)
    fun hv => hv.congr rfl rfl

/-- A round without a veto does not uphold the insertion that it is about. -/
theorem overruled {value : ν} {answers : List Decision} (h : Decision.cancel ∉ answers)
    (hs : Stretch w v)
    (hj : ∃ new, v.journal = new ++ (w.note (.decided s.generation s.key value answers)).journal) :
    Upholds s P w v := by
  obtain ⟨new, hj⟩ := hj
  have hline : w.line (.decided s.generation s.key value answers) ∈
      new ++ [w.line (.decided s.generation s.key value answers)] := by simp
  apply broken hs (hj.trans (List.append_cons new _ w.journal)) hline
  intro hu
  exact h ((hu _ (List.mem_singleton_self _)).2 value answers rfl)

theorem inquiry {r : Except Halt α} (hs : Stretch w v) (h : Inquiry r w v) :
    Upholds s (∀ message, r ≠ .error (.panic message)) w v := by
  obtain ⟨asked, hj, hasked, hfail⟩ := h.lines
  have hsame : w.Retains s → v.Retains s := by
    intro hw
    refine hw.congr ?_ ?_ <;> rw [h.cache]
  have hno : ∀ l ∈ asked, l.makesFor s.key = false :=
    fun l hl => Line.makesFor_of_consults (hasked l hl).1 s.key
  match r with
  | .ok a => exact ⟨hs, asked, hj, fun _ hw => ⟨hsame hw, hno, fun _ h => nomatch h⟩⟩
  | .error halt =>
    obtain ⟨-, l, hl, predicate, hr⟩ := hfail halt rfl
    apply broken hs hj hl
    intro hu
    have hquiet := (hu l (List.mem_singleton_self l)).1
    unfold Line.panics at hquiet
    rw [hr] at hquiet
    cases hquiet

theorem concluded {g : Nat} {key : Key} {value : ν} {answers : List Decision} {x : Upshot}
    (h : Decision.cancel ∉ answers)
    (hv : (w.note (.decided g key value answers)).Commits key g x v) : Upholds s True w v := by
  have hs : Stretch w v := .concluded g key value answers x h hv
  by_cases hsame : key = s.key ∧ g = s.generation
  · obtain ⟨rfl, rfl⟩ := hsame
    obtain ⟨new, hj, -⟩ := hv.lines
    exact overruled h hs ⟨new, hj⟩
  · obtain ⟨new, hj, hnew⟩ := hv.makesFor s.key
    refine ⟨hs, _, hj.trans (List.append_cons new _ w.journal), ?_⟩
    intro _ hw
    have hnoted : (w.note (.decided g key value answers)).Retains s := hw
    refine ⟨hnoted.commits hsame hv, ?_, trivial⟩
    intro l hl
    rcases List.mem_append.mp hl with hl | hl
    · exact hnew l hl
    · rw [List.mem_singleton.mp hl]
      rfl

theorem placed {key : Key} (h : s.key ≠ key) (value : ν) (policy : Option (Policy η)) :
    Upholds s True w (w.placed key value policy) := by
  refine ⟨.place key value policy, _, World.journal_placed .., ?_⟩
  intro _ hw
  refine ⟨hw.congr ?_ ?_, ?_, trivial⟩
  · rw [World.cache_placed]
    rfl
  · rw [World.cache_placed, Cache.stay?_insert h]
  · unfold World.placedLines
    cases w.cache.find? key <;> simp [World.line, Line.makesFor]

end Upholds

/-- The work comes to this answer, or its bound is reached. -/
def ComesTo (a : α) (r : Except Halt α) : Prop := r = .ok a ∨ r = .error .exhausted

namespace ComesTo

theorem same (a : α) : ComesTo a (.ok a) := Or.inl rfl

theorem exhausted (a : α) : ComesTo a (.error .exhausted) := Or.inr rfl

theorem eq {a b : α} (h : ComesTo a (.ok b)) : b = a := by
  rcases h with h | h <;> cases h
  rfl

theorem error {a : α} {b : β} {e : Halt} (h : ComesTo a (.error e)) : ComesTo b (.error e) := by
  rcases h with h | h <;> cases h
  exact .exhausted b

theorem caught {a : α} {r : Except Halt α} (h : ComesTo a r) : ComesTo (.ok a) (Act.caught r) := by
  rcases h with rfl | rfl
  · exact .same _
  · exact .exhausted _

end ComesTo

abbrev Remains (s : Stay ν) : World ν η μ → World ν η μ → Prop := Upholds s True

theorem Remains.paths (s : Stay ν) :
    Paths (Remains s : World ν η μ → World ν η μ → Prop) (· ≠ s.key) where
  still w := .of_still .still rfl id
  trans h k := h.before k
  memory m := .of_still (.memory m) rfl id
  note {w} r hr hf := by
    refine .of_line (.note r hr) rfl ?_ id
    cases r with
    | entered c =>
      cases c with
      | factory handler key => exact beq_false_of_ne (hf _ rfl)
      | _ => rfl
    | _ => rfl
  retune f h := by
    refine .of_still (.aside f h.toAside) rfl fun hw => hw.congr h.handle ?_
    unfold Cache.stay? Cache.find?
    rw [World.cache_change, h.entries]
  touch key e _ _ := .of_still (.touch key) rfl fun hw => hw.congr rfl (Cache.stay?_touch ..)
  read key found := .of_line (.read key found) rfl rfl fun hw => hw.congr rfl rfl
  vetoed g key value answers h :=
    .of_line (.vetoed g key value answers h) rfl rfl fun hw => hw.congr rfl rfl
  concluded _ _ _ _ _ h _ hv := .concluded h hv
  close {w} h := by
    have hs : Stretch w (w.change fun c => { c.setTimer none with handle := .closed }).emptied :=
      Stretch.paths.close h
    refine .vacant hs fun hw => ?_
    rw [hw.1] at h
    cases h.1
  during _ ha h := h.during ha
  deciding _ _ _ he hp _ h := h.deciding he hp
  holding _ _ _ ha h := h.holding ha

theorem Remains.elapsed {s : Stay ν} (span : Span) (w : World ν η μ) :
    Remains s w { w with now := w.now.advance span } := .of_still (.elapsed span w) rfl id

theorem Remains.scheduled {s : Stay ν} (timer : Option Timer) (w : World ν η μ) :
    Remains s w (w.change (.setTimer timer)) :=
  .of_still (.scheduled timer w) rfl fun hw => hw.congr rfl rfl

/-! ## Reads -/

namespace Act

/-- A callback that panics says so in its last line. -/
theorem call_unwinds (host : Host ν η μ) (depth : Nat) (c : Callback ν η) (w : World ν η μ) :
    (call host depth c).Ends w fun r v => ∀ message, r = .error (.panic message) →
      ∃ l old, v.journal = l :: (old ++ w.journal) ∧ l.panics = true := by
  unfold call callVia
  refine ends_note.mpr (Ends.bind (P := fun r v => Stretch (w.note (.entered c)) v ∧
    ∀ message, r ≠ .error (.panic message)) ?_ ?_ ?_)
  · refine ends_attempt ((run_stretches host depth (host.respond c) _).mono ?_)
    intro r v hs
    refine ⟨hs, ?_⟩
    match r with
    | .ok _ => exact fun _ h => nomatch h
    | .error (.panic _) => exact fun _ h => nomatch h
    | .error .exhausted => exact fun _ h => nomatch h
  · rintro answer v ⟨hs, -⟩
    cases answer with
    | ok answer =>
      refine ends_note.mpr (ends_pure.mpr ?_)
      intro message h
      cases h
    | error text =>
      refine ends_note.mpr (ends_throw.mpr ?_)
      intro _ _
      obtain ⟨seg, hj, -⟩ := hs.segment
      exact ⟨v.line (.unwound c), seg ++ [w.line (.entered c)],
        congrArg (List.cons _) (hj.trans (List.append_cons ..)), rfl⟩
  · rintro e v ⟨-, hno⟩ message h
    cases h
    exact absurd rfl (hno message)

section

variable {s : Stay ν} {host : Host ν η μ} {depth : Nat}
  (hi : ∀ c, c.MakesFor (· ≠ s.key) → (call host depth c).Follows (Remains s))

include hi

theorem call_upholds (c : Callback ν η) (hc : c.MakesFor (· ≠ s.key)) (w : World ν η μ) :
    (call host depth c).Ends w fun r v =>
      Upholds s (∀ message, r ≠ .error (.panic message)) w v := by
  apply ((hi c hc w).and (call_unwinds host depth c w)).mono
  rintro r v ⟨hr, hpanic⟩
  match r, hpanic with
  | .ok _, _ => exact hr.imp fun _ _ h => nomatch h
  | .error .exhausted, _ => exact hr.imp fun _ _ h => nomatch h
  | .error (.panic message), hpanic =>
    obtain ⟨l, old, hj, hl⟩ := hpanic message rfl
    have hl' : l ∈ l :: old := List.mem_cons_self ..
    refine .broken hr.stretch hj hl' ?_
    intro hu
    rw [(hu l (List.mem_singleton_self l)).1] at hl
    cases hl

theorem askExpiring_upholds (g : Nat) (key : Key) (value : ν) (policy : Policy η) (w : World ν η μ) :
    (askExpiring (call host depth) g key value policy).Ends w fun r v =>
      Upholds s (∀ message, r ≠ .error (.panic message)) w v := by
  have asked : ∀ (handlers : List η) (w : World ν η μ), (handlers.mapM fun handler =>
      call host depth (.expiring handler key value policy)).Ends w fun r v =>
        Upholds s (∀ message, r ≠ .error (.panic message)) w v := by
    intro handlers
    induction handlers with
    | nil =>
      intro w
      rw [List.mapM_nil]
      exact ((Remains.paths s).still w).imp fun _ _ h => nomatch h
    | cons handler handlers ih =>
      intro w
      rw [List.mapM_cons]
      apply (call_upholds hi (.expiring handler key value policy) trivial w).bind
      · intro answer v hv
        apply (ih v).bind
        · intro answers u hu
          exact (hv.trans hu.stretch fun _ => hu).imp fun _ _ h => nomatch h
        · intro e u hu
          refine (hv.trans hu.stretch fun _ => hu).imp fun h message hm => ?_
          cases hm
          exact h message rfl
      · intro e v hv
        refine hv.imp fun h message hm => ?_
        cases hm
        exact h message rfl
  unfold askExpiring
  refine ends_note.mpr (ends_cache.mpr ((asked _ _).mono ?_))
  intro r v hv
  exact ((Remains.paths s).note (.offered g key value policy) rfl fun _ h => nomatch h).before hv

/-- An insertion that is upheld is not evicted. -/
theorem expire_upholds (w : World ν η μ) :
    (expire host (call host depth) s.key s.generation).Ends w fun r v =>
      Upholds s (r = .ok .stale ∨ r = .ok (.cancelled s.value) ∨ r = .error .exhausted) w v := by
  have hR := Remains.paths (η := η) (μ := μ) s
  have hrest : (expire host (call host depth) s.key s.generation).Follows Stretch :=
    expire_follows Stretch.paths (fun c _ => call_stretches host depth c) host s.key s.generation
  by_cases hw : w.Retains s
  case neg => exact (hrest w).mono fun _ _ hs => .vacant hs hw
  obtain ⟨hh, hs⟩ := hw
  unfold expire
  refine ((candidate?_asks host s.key s.generation w).and
    (candidate?_inquiry host s.key s.generation w)).bind ?_ ?_
  · rintro found w1 ⟨⟨hw1, hfound⟩, hinq⟩
    have h1 : Remains s w w1 := by
      rcases hw1 with rfl | ⟨policy, ha⟩
      · exact hR.still w1
      · exact hR.asks ha
    match found, hfound with
    | none, _ => exact h1.imp fun _ => Or.inl rfl
    | some (e, policy), hfound =>
      obtain ⟨he, hp, hq, ha⟩ := hfound e policy rfl
      have hvalue : e.value = s.value := by
        unfold Cache.stay? at hs
        rw [(Cache.insertion?_eq_some.mp he).1] at hs
        exact congrArg Stay.value (Option.some.inj hs)
      rw [← ha.cache] at he
      refine Ends.bind (P := fun r v => Upholds s (∀ message, r ≠ .error (.panic message)) w v)
        ?_ ?_ ?_
      · refine ends_bracket ((askExpiring_upholds hi s.generation s.key e.value policy _).mono ?_)
        intro r v hv
        exact h1.before (.deciding he hp hv)
      · intro answers v hv
        apply ends_note.mpr
        split
        · rename_i hcancel
          refine ends_change.mpr (ends_pure.mpr ?_)
          have hvetoed := hR.vetoed (w := v) s.generation s.key e.value answers
            (List.contains_iff_mem.mp hcancel)
          refine (hv.trans hvetoed.stretch fun _ => hvetoed).imp fun _ => ?_
          rw [hvalue]
          exact Or.inr (Or.inl rfl)
        · rename_i hcancel
          have hno : Decision.cancel ∉ answers := fun h => hcancel (List.contains_iff_mem.mpr h)
          -- nobody vetoed, so in what comes now the insertion is not upheld
          have hlost : ∀ {x : Upshot} {u : World ν η μ},
              (v.note (.decided s.generation s.key e.value answers)).Commits s.key s.generation x u →
              Upholds s False w u := by
            intro x u hu
            obtain ⟨new, hj, -⟩ := hu.lines
            exact hv.lost (.overruled hno (.concluded _ _ _ _ x hno hu) ⟨new, hj⟩)
          refine (commit_commits host s.key s.generation _).bind ?_ ?_
          · rintro r w3 ⟨hc, -⟩
            cases r with
            | none => exact (hlost hc).imp False.elim
            | some gone =>
              have hdisposed := Follows.bind Stretch.paths (disposeEvicted_follows Stretch.paths
                (fun c _ => call_stretches host depth c) s.key gone)
                (f := fun _ => Pure.pure (Fate.evicted (ν := ν))) fun _ => .pure Stretch.paths
              exact (hdisposed w3).mono fun _ _ h => (hlost hc).trans h False.elim
          · rintro e w3 ⟨hc, -⟩
            exact (hlost hc).imp False.elim
      · intro e v hv
        refine hv.imp fun h => ?_
        cases e with
        | panic message => exact absurd rfl (h message)
        | exhausted => exact Or.inr (Or.inr rfl)
  · rintro e w1 ⟨⟨hw1, -⟩, hinq⟩
    have h1 : Stretch w w1 := by
      rcases hw1 with rfl | ⟨policy, ha⟩
      · exact .still
      · exact .asks ha
    refine (Upholds.inquiry h1 hinq).imp fun h => ?_
    cases e with
    | panic message => exact absurd rfl (h message)
    | exhausted => exact Or.inr (Or.inr rfl)

omit hi in
theorem readEnds_upholds (access : Access) (key : Key) (found : Option ν) (w : World ν η μ) :
    (readEnds access key found).Ends w fun r v => Upholds s (r = .ok found) w v := by
  unfold readEnds
  split
  · exact ((Remains.paths s).read key found.isSome).imp fun _ => rfl
  · exact ((Remains.paths s).still w).imp fun _ => rfl

/-- A read finds an insertion that is upheld. -/
theorem lookup_upholds (access : Access) (retries : Nat) : ∀ w : World ν η μ,
    (lookup host (call host depth) access s.key retries).Ends w fun r v =>
      Upholds s (ComesTo (some s.value) r) w v := by
  have hR := Remains.paths (η := η) (μ := μ) s
  induction retries with
  | zero => exact fun w => (hR.still w).imp fun _ => .exhausted _
  | succ retries ih =>
    intro w
    have hrest := lookup_follows Stretch.paths (fun c _ => call_stretches host depth c) host access
      s.key (retries + 1) w
    by_cases hw : w.Retains s
    case neg => exact hrest.mono fun _ _ hs => .vacant hs hw
    clear hrest
    obtain ⟨e, hf, hstay⟩ := Option.map_eq_some_iff.mp hw.2
    have hvalue : e.value = s.value := congrArg Stay.value hstay
    have hgeneration : e.generation = s.generation := congrArg Stay.generation hstay
    have hread : ∀ v, Remains s w v → (readEnds access s.key (some e.value)).Ends v fun r u =>
        Upholds s (ComesTo (some s.value) r) w u := by
      intro v hv
      rw [hvalue]
      exact (readEnds_upholds access s.key (some s.value) v).mono fun _ _ h =>
        (hv.before h).imp Or.inl
    unfold lookup
    apply ends_cache.mpr
    rw [hf]
    refine ((expired_path hR host e w).and (expired_inquiry host e w)).bind ?_ ?_
    · rintro found w1 ⟨⟨h1, hc, hn, hlive⟩, -⟩
      rw [← hc] at hf
      cases found with
      | false =>
        rw [if_pos (show (!false) = true from rfl)]
        dsimp only
        split
        · rw [← hn] at hlive
          exact ends_now.mpr (ends_change.mpr
            (hread _ (h1.before (hR.touch s.key e hf (hlive rfl)))))
        · exact hread w1 h1
      | true =>
        rw [if_neg (show ¬(!true) = true by decide)]
        split
        · exact hread w1 h1
        · rw [hgeneration]
          refine (expire_upholds hi w1).bind ?_ ?_
          · intro fate v hv
            replace hv := h1.before hv
            -- only a veto is left to an upheld insertion, or a second look
            cases fate with
            | evicted =>
              refine (readEnds_upholds (s := s) access s.key none v).mono fun r u hu => ?_
              refine hv.trans hu.stretch fun h => ?_
              rcases h with h | h | h <;> cases h
            | cancelled value =>
              refine (readEnds_upholds (s := s) access s.key (some value) v).mono fun r u hu => ?_
              refine hv.trans hu.stretch fun h => hu.imp fun hr => Or.inl ?_
              rcases h with h | h | h <;> cases h
              exact hr
            | stale =>
              refine ends_note.mpr ((ih _).mono fun r u hu => ?_)
              have hnote := hR.note (w := v) (.retried s.key) rfl fun _ h => by cases h
              exact hv.trans (hnote.stretch.trans hu.stretch) fun _ => hnote.before hu
          · intro error v hv
            refine (h1.before hv).imp fun h => ?_
            rcases h with h | h | h <;> cases h
            exact .exhausted _
    · rintro error w1 ⟨⟨h1, -⟩, hinq⟩
      refine (Upholds.inquiry h1.stretch hinq).imp fun h => ?_
      cases error with
      | panic message => exact absurd rfl (h message)
      | exhausted => exact .exhausted _

/-! ## Operations -/

theorem fetchInside_upholds (factory : η) (given : Option (Policy η)) (retries : Nat)
    (w : World ν η μ) :
    (fetchInside host (call host depth) s.key factory ⟨given, false⟩ retries).Ends w fun r v =>
      Upholds s (ComesTo (.value s.value) r) w v := by
  apply (lookup_upholds hi .full retries w).bind
  · intro found v hv
    cases found with
    | some value =>
      refine hv.imp fun h => ?_
      rw [Option.some.inj h.eq]
      exact .same _
    | none =>
      have hmade : (make host (call host depth) s.key factory ⟨given, false⟩).Follows Stretch :=
        make_follows (F := fun _ => True) Stretch.paths (fun c _ => call_stretches host depth c) host
          trivial (fun _ => .place s.key) factory ⟨given, false⟩
      exact (hmade v).mono fun _ _ hs => hv.trans hs fun h => nomatch h.eq
  · exact fun error v hv => hv.imp .error

theorem fetch_upholds (ha : host.accepts s.key = true) (factory : η) (given : Option (Policy η))
    (retries : Nat) (w : World ν η μ) (hadmits : (w.cache.admission.acquire? s.key).isSome = true) :
    (fetch host (call host depth) s.key factory ⟨given, false⟩ retries).Ends w fun r v =>
      Upholds s (ComesTo (.value s.value) r) w v := by
  obtain ⟨⟨acquired, slot⟩, hacq⟩ := Option.isSome_iff_exists.mp hadmits
  unfold fetch
  apply ends_cache.mpr
  rw [hacq]
  show (if host.accepts s.key = true then _ else _ : Act ν η μ (Fetched ν)).Ends w _
  rw [if_pos ha]
  refine ends_bracket ((fetchInside_upholds hi factory given retries _).mono ?_)
  exact fun _ _ h => h.holding hacq

/-- Several fetches, each of which finds the key free. -/
theorem race_upholds (ha : host.accepts s.key = true) {op : Operation ν η}
    {rest : List (Activity ν η)} (hop : op.evicts s.key = true)
    (hfree : ∀ slot, .fetching s.key slot ∉ rest) (factory : η) (given : Option (Policy η))
    (retries callers : Nat) : ∀ w : World ν η μ, w.calls = .operation op :: rest →
      Sound w.calls w.cache →
      (race host (call host depth) s.key factory ⟨given, false⟩ retries callers).Ends w fun r v =>
        Upholds s (ComesTo (List.replicate callers (.value s.value)) r) w v := by
  induction callers with
  | zero => exact fun w _ _ => ((Remains.paths s).still w).imp fun _ => .same _
  | succ callers ih =>
    intro w hc hs
    have hadmits : (w.cache.admission.acquire? s.key).isSome = true := by
      rw [hs.admission.acquire?_isSome_iff]
      intro slot hmem
      rw [mem_inside, hc] at hmem
      rcases List.mem_cons.mp hmem with h | h
      · cases h
      · exact hfree slot h
    have hmoves : (fetch host (call host depth) s.key factory ⟨given, false⟩ retries).Ends w
        fun _ v => v.calls = w.calls ∧ Sound v.calls v.cache := by
      obtain ⟨seg, hrun⟩ := (fetch_runs (call_invokes host depth) (Nat.zero_le _) host hc hop
        factory ⟨given, false⟩ retries).ending
      exact ends_of_after ⟨hrun.calls, hrun.moves.sound hs⟩
    unfold race
    apply ((fetch_upholds hi ha factory given retries w hadmits).and hmoves).bind
    · rintro first v ⟨hv, hcv, hsv⟩
      apply (ih v (hcv.trans hc) hsv).bind
      · intro others u hu
        refine hv.trans hu.stretch fun hfirst => hu.imp fun hothers => ?_
        rw [hfirst.eq, hothers.eq]
        exact .same _
      · exact fun error u hu => hv.trans hu.stretch fun _ => hu.imp .error
    · exact fun error v hv => hv.1.imp .error

omit hi in
theorem closeUnused_upholds (w : World ν η μ) :
    (closeUnused (call host depth)).Ends w fun r v => Upholds s (r = .ok ()) w v := by
  have hrest := closeUnused_follows Stretch.paths (fun c _ => call_stretches host depth c) w
  by_cases hw : w.Retains s
  case neg => exact hrest.mono fun _ _ hs => .vacant hs hw
  unfold closeUnused
  apply ends_get.mpr
  rw [if_neg]
  · exact ((Remains.paths s).still w).imp fun _ => rfl
  · rintro ⟨h, -⟩
    rw [hw.1] at h
    cases h

omit hi in
theorem operate_upholds {retries : Nat} {op : Operation ν η} {a : Answer ν} {w : World ν η μ}
    (h : (carryOut host (call host depth) retries op).Ends (w.push (.operation op)) fun r v =>
      Upholds s (ComesTo a r) (w.push (.operation op)) v) :
    (operate host (call host depth) retries op).Ends w fun r v => Upholds s (ComesTo a r) w v := by
  apply operate_closes
  apply h.mono
  intro r v hv
  have hcarried : Upholds s (ComesTo a r) w v.pop := hv.during rfl
  unfold Closes
  split
  · exact hcarried
  · apply (closeUnused_upholds v.pop).mono
    intro t u hu
    have hclosed : Upholds s (ComesTo a (t.bind fun _ => r)) w u := by
      refine hcarried.trans hu.stretch fun h => hu.imp ?_
      rintro rfl
      exact h
    split
    · exact hclosed
    · have hnote := (Remains.paths s).note (w := u) (.finished op) rfl fun _ h => nomatch h
      exact hclosed.trans hnote.stretch fun h => hnote.imp fun _ => h

/-- An operation that reads the insertion answers with its value. -/
theorem carryOut_upholds {op : Operation ν η} (hop : op.Avoids s.key) {a : Answer ν}
    (ha : op.answer? s = some a) (haccepts : host.accepts s.key = true) (retries : Nat)
    {w : World ν η μ} (hc : w.calls = [.operation op]) (hs : Sound w.calls w.cache) :
    (carryOut host (call host depth) retries op).Ends w fun r v => Upholds s (ComesTo a r) w v := by
  have hkeyed : ∀ {work : Act ν η μ (Answer ν)}, work.Ends w (fun r v => Upholds s (ComesTo a r) w v) →
      (keyed host s.key work).Ends w fun r v => Upholds s (ComesTo a r) w v := by
    intro work h
    unfold keyed
    rwa [if_pos haccepts]
  have hadmits : (w.cache.admission.acquire? s.key).isSome = true := by
    rw [hs.admission.acquire?_isSome_iff]
    intro slot hmem
    rw [mem_inside, hc] at hmem
    cases List.mem_singleton.mp hmem
  unfold Operation.answer? at ha
  cases op with
  | get key =>
    obtain ⟨hk, heq⟩ := Option.ite_none_right_eq_some.mp ha
    subst hk
    obtain rfl := Option.some.inj heq
    refine hkeyed ((lookup_upholds hi .full retries w).bind ?_ fun _ _ hv => hv.imp .error)
    intro found v hv
    refine hv.imp fun h => ?_
    rw [h.eq]
    exact .same _
  | contains key =>
    obtain ⟨hk, heq⟩ := Option.ite_none_right_eq_some.mp ha
    subst hk
    obtain rfl := Option.some.inj heq
    refine hkeyed ((lookup_upholds hi .peek retries w).bind ?_ fun _ _ hv => hv.imp .error)
    intro found v hv
    refine hv.imp fun h => ?_
    rw [h.eq]
    exact .same _
  | fetch key factory options =>
    obtain ⟨hk, heq⟩ := Option.ite_none_right_eq_some.mp ha
    subst hk
    obtain rfl := Option.some.inj heq
    obtain ⟨given, overwrite⟩ := options
    obtain rfl : overwrite = false := hop rfl
    refine (fetch_upholds hi haccepts factory given retries w hadmits).bind ?_
      fun _ _ hv => hv.imp .error
    intro fetched v hv
    cases fetched with
    | value value =>
      refine hv.imp fun h => ?_
      cases h.eq
      exact .same _
    | refused cause => exact hv.imp fun h => nomatch h.eq
  | race key factory options callers =>
    obtain ⟨hk, heq⟩ := Option.ite_none_right_eq_some.mp ha
    subst hk
    obtain rfl := Option.some.inj heq
    obtain ⟨given, overwrite⟩ := options
    obtain rfl : overwrite = false := hop rfl
    have hadmitted : w.cache.admission.admits s.key = true := hadmits
    apply ends_cache.mpr
    rw [if_pos hadmitted]
    have hevicts : (.race s.key factory ⟨given, false⟩ callers : Operation ν η).evicts s.key = true :=
      decide_eq_true rfl
    have hfree : ∀ slot, .fetching s.key slot ∉ ([] : List (Activity ν η)) := fun _ h => nomatch h
    refine (race_upholds hi haccepts hevicts hfree factory given retries callers w hc hs).bind ?_
      fun _ _ hv => hv.imp .error
    intro results v hv
    refine hv.imp fun h => ?_
    rw [h.eq]
    exact .same _
  | _ => cases ha

end

section

variable {s : Stay ν} {host : Host ν η μ}

theorem avoids_admits {op : Operation ν η} (h : op.Avoids s.key) :
    Admits host (Remains s) (· ≠ s.key) op := by
  have hR := Remains.paths (η := η) (μ := μ) s
  have hstores : ∀ key, key ≠ s.key → Stores host (Remains s) key :=
    fun key hk _ w value policy => .placed (Ne.symm hk) value policy
  have hfetch : ∀ (depth retries : Nat) (factory : η) (given : Option (Policy η)),
      (∀ c, c.MakesFor (· ≠ s.key) → (call host depth c).Follows (Remains s)) →
      (fetch host (call host depth) s.key factory ⟨given, false⟩ retries).Follows (Remains s) := by
    intro depth retries factory given hi
    refine fetch_follows hR fun _ w => ?_
    exact (fetchInside_upholds hi factory given retries w).mono fun _ _ hv => hv.imp fun _ => trivial
  cases op with
  | insert key => exact Permits.admits hR (hstores key h)
  | fetch key factory options =>
    by_cases hk : key = s.key
    case neg => exact Permits.admits hR ⟨hk, hstores key hk⟩
    obtain ⟨given, overwrite⟩ := options
    obtain rfl : overwrite = false := h hk
    subst hk
    intro depth retries hi
    refine .bind hR (hfetch depth retries factory given hi) fun r => ?_
    cases r <;> exact .pure hR
  | race key factory options callers =>
    by_cases hk : key = s.key
    case neg => exact Permits.admits hR ⟨hk, hstores key hk⟩
    obtain ⟨given, overwrite⟩ := options
    obtain rfl : overwrite = false := h hk
    subst hk
    intro depth retries hi
    refine .cache fun c => ?_
    split
    · exact .bind hR (race_follows hR (hfetch depth retries factory given hi) callers)
        fun _ => .pure hR
    · exact .pure hR
  | remove key =>
    refine Permits.admits hR fun w e he => ?_
    exact .of_line (.remove key e he) rfl rfl fun hw =>
      hw.congr rfl (Cache.stay?_takeOut (Ne.symm h) ..)
  | clear => exact h.elim
  | drop => exact h.elim
  | _ => exact Permits.admits hR trivial

variable (hhost : host.Only (Operation.Avoids s.key))

include hhost

theorem settle_upholds (bound : Nat) : (settle host bound).Follows (Remains s) :=
  settle_follows (Remains.paths s) (fun span _ => Remains.elapsed span) (fun _ => avoids_admits)
    hhost Remains.scheduled bound

theorem perform_upholds (haccepts : host.accepts s.key = true) (depth : Nat) {op : Operation ν η}
    (hop : op.Avoids s.key) {w : World ν η μ} (hc : w.calls = []) (hs : Sound w.calls w.cache) :
    (perform host depth op).Ends w fun r v =>
      Upholds s (∀ a, op.answer? s = some a → ComesTo a r) w v := by
  have hfollows := perform_follows (Remains.paths s) (fun span _ => Remains.elapsed span)
    (fun _ => avoids_admits) hhost depth op (avoids_admits hop) w
  cases ha : op.answer? s with
  | none => exact hfollows.mono fun _ _ hv => hv.imp fun _ _ h => nomatch h
  | some a =>
    have hanswers : (perform host depth op).Ends w fun r v => Upholds s (ComesTo a r) w v := by
      by_cases hw : w.Retains s
      case neg => exact hfollows.mono fun _ _ hv => .vacant hv.stretch hw
      cases depth with
      | zero => exact ((Remains.paths s).still w).imp fun _ => .exhausted a
      | succ depth =>
        have hi : ∀ c, c.MakesFor (· ≠ s.key) → (call host depth c).Follows (Remains s) :=
          call_follows (Remains.paths s) (fun span _ => Remains.elapsed span)
            (fun _ => avoids_admits) hhost depth
        unfold perform
        apply ends_cache.mpr
        rw [if_pos hw.1]
        refine operate_upholds (carryOut_upholds hi hop ha haccepts depth ?_ ?_)
        · rw [World.calls_push, hc]
        · exact (Sound.plain_iff rfl).mpr hs
    refine hanswers.mono fun _ _ hv => hv.imp fun h b hb => ?_
    cases hb
    exact h

omit hhost in
theorem attempt_upholds {bound : Nat} {op : Operation ν η} {w : World ν η μ}
    (h : (perform host bound op).Ends w fun r v =>
      Upholds s (∀ a, op.answer? s = some a → ComesTo a r) w v) :
    ((Program.attempt op).run (perform host bound)).Ends w fun r v => ∀ told, r = .ok told →
      Upholds s (∀ a, op.answer? s = some a → told = .ok a) w v := by
  refine Ends.bind (P := fun r v => Upholds s (∀ a, op.answer? s = some a →
    ComesTo (.ok a) r) w v) (ends_attempt (h.mono fun _ _ hv => hv.imp fun h a ha => (h a ha).caught))
    ?_ fun _ _ _ _ h => nomatch h
  intro told v hv
  refine ends_pure.mpr fun _ h => ?_
  cases h
  exact hv.imp fun h a ha => (h a ha).eq

end

end Act

/-! ## What the owner does -/

/-- The owner performs operations, each of which is listed with what comes of it; time passes; and the
timer has its turns. -/
inductive Errands (host : Host ν η μ) (w : World ν η μ) :
    List (Operation ν η × Except String (Answer ν)) → World ν η μ → Prop
  | none : Errands host w [] w
  | ask {asked : List (Operation ν η × Except String (Answer ν))} {v u : World ν η μ} (bound : Nat)
      (op : Operation ν η) (r : Except String (Answer ν)) (h : Errands host w asked v)
      (hr : (Program.attempt op).run (Act.perform host bound) v = .ok r u) :
      Errands host w (asked ++ [(op, r)]) u
  | elapse {asked : List (Operation ν η × Except String (Answer ν))} {v : World ν η μ} (span : Span)
      (h : Errands host w asked v) : Errands host w asked { v with now := v.now.advance span }
  | remember {asked : List (Operation ν η × Except String (Answer ν))} {v : World ν η μ} (m : μ)
      (h : Errands host w asked v) : Errands host w asked { v with memory := m }
  | settle {asked : List (Operation ν η × Except String (Answer ν))} {v u : World ν η μ}
      (bound : Nat) (h : Errands host w asked v) (hr : Act.settle host bound v = .ok () u) :
      Errands host w asked u

namespace Errands

variable {host : Host ν η μ} {w v : World ν η μ}
  {asked : List (Operation ν η × Except String (Answer ν))}

theorem stretch (h : Errands host w asked v) : Stretch w v := by
  induction h with
  | none => exact .still
  | ask bound op r _ hr ih => exact ih.trans ((Act.run_stretches host bound _ _).of_ok hr)
  | elapse span _ ih => exact ih.trans (.elapsed span _)
  | remember m _ ih => exact ih.trans (.memory m)
  | settle bound _ hr ih => exact ih.trans ((Act.settle_stretches host bound _).of_ok hr)

theorem strides (h : Errands host w asked v) : Strides host w v := by
  induction h with
  | none => exact .refl
  | ask bound op r _ hr ih => exact ih.trans (((Passes.governs host).run bound _ _).of_ok hr).2
  | elapse span _ ih => exact ih.tail (.clock _ (Instant.le_advance _ span))
  | remember m _ ih => exact ih.tail (.memory m)
  | settle bound _ hr ih => exact ih.trans (((Passes.governs host).settle bound _).of_ok hr).2

theorem moves (h : Errands host w asked v) (hc : w.calls = []) : Moves 0 w v := by
  induction h with
  | none => exact .refl
  | ask bound op r h hr ih =>
    obtain ⟨seg, hrun, -⟩ := (Act.run_runs (Act.perform_performs host bound) _ _
      (Nat.zero_le _)).of_ok hr
    exact ih.trans hrun.moves
  | elapse span _ ih => exact ih.tail (.clock _ (Instant.le_advance _ span))
  | remember m _ ih => exact ih.tail (.memory m)
  | settle bound h hr ih =>
    obtain ⟨seg, hrun, -⟩ := (Act.settle_runs host bound _ (h.stretch.calls.trans hc)).of_ok hr
    exact ih.trans hrun.moves

/-- Every operation that reads the insertion answers with its value. -/
theorem upholds {s : Stay ν} (h : Errands host w asked v)
    (hhost : host.Only (Operation.Avoids s.key)) (haccepts : host.accepts s.key = true)
    (hops : ∀ x ∈ asked, x.1.Avoids s.key) (hc : w.calls = []) (hs : Sound w.calls w.cache) :
    Upholds s (∀ x ∈ asked, ∀ a, x.1.answer? s = some a → x.2 = .ok a) w v := by
  have hR := Remains.paths (η := η) (μ := μ) s
  induction h with
  | none => exact (hR.still w).imp fun _ _ hx => nomatch hx
  | @ask asked v u bound op r h hr ih =>
    have hop := hops (op, r) (List.mem_append_right _ (List.mem_singleton_self _))
    -- the answers so far are right by induction, which lets the last one count
    have hlast : Upholds s (∀ a, op.answer? s = some a → r = .ok a) v u :=
      (Act.attempt_upholds (Act.perform_upholds hhost haccepts bound hop
        (h.stretch.calls.trans hc) ((h.moves hc).sound hs))).of_ok hr r rfl
    refine (ih fun x hx => hops x (List.mem_append_left _ hx)).trans hlast.stretch fun hold =>
      hlast.imp fun hnew x hx => ?_
    rcases List.mem_append.mp hx with hx | hx
    · exact hold x hx
    · rw [List.mem_singleton.mp hx]
      exact hnew
  | elapse span _ ih => exact (ih hops).further (Remains.elapsed span _)
  | remember m _ ih => exact (ih hops).further (hR.memory m)
  | settle bound _ hr ih => exact (ih hops).further ((Act.settle_upholds hhost bound _).of_ok hr)

end Errands

/-- Of an insertion that is still stored no eviction was announced, and its value was not handed over. -/
theorem Recorded.untold {w : World ν η μ} (h : Recorded w) {key : Key} {e : Entry ν η}
    (he : w.cache.find? key = some e) {l : Line ν η} (hl : l ∈ w.journal) :
    l.announces e.generation = false ∧ l.handsOver e.generation = false := by
  obtain ⟨before, hsuffix⟩ := exists_suffix_of_mem hl
  have stays : ∀ m ∈ l :: before, ∀ k value exit, m.record ≠ .left e.generation k value exit := by
    intro m hm k value exit hr
    have hno := h.lives.staying key e he m (hsuffix.subset hm)
    rw [Line.leaves_iff.mpr ⟨k, value, exit, hr⟩] at hno
    cases hno
  refine ⟨Bool.eq_false_iff.mpr fun ha => ?_, Bool.eq_false_iff.mpr fun ha => ?_⟩
  · unfold Line.announces at ha
    split at ha
    · rename_i g k value initial hr
      obtain rfl : g = e.generation := eq_of_beq ha
      obtain ⟨gone, rest, rfl, hgone, -⟩ := h.chronicle.announcement hsuffix hr
      exact stays gone (List.mem_cons_of_mem _ (List.mem_cons_self ..)) _ _ _ hgone
    · cases ha
  · unfold Line.handsOver at ha
    split at ha
    · rename_i handler k value j g rest hr hc
      obtain rfl : g = e.generation := eq_of_beq ha
      have hlaw : l.ReleaseLawful handler k value before := h.chronicle.lawful hsuffix hr
      obtain ⟨g, outer, exit, hcalls, -, gone, hmem, hgone⟩ := hlaw
      rw [hc] at hcalls
      cases hcalls
      exact stays gone (List.mem_cons_of_mem _ hmem) _ _ _ hgone
    · cases ha

theorem Endures.stay {w v : World ν η μ} (h : Endures w v) {key : Key} {e' : Entry ν η}
    (he' : v.cache.find? key = some e') (hlt : e'.generation < w.cache.nextGeneration) :
    ∃ e, w.cache.find? key = some e ∧ e.stay key = e'.stay key ∧ (e.due w.now = true →
      e'.policy = e.policy ∧ e'.lastAccessedAt = e.lastAccessedAt) := by
  obtain ⟨e, he, hg, hv, hc, hdue⟩ := h.stored key e' he' hlt
  refine ⟨e, he, ?_, hdue⟩
  unfold Entry.stay
  rw [hg, hv, hc]

section

variable {host : Host ν η μ} {settings : Settings η} {hosting : Hosting} {w v : World ν η μ}
  {asked : List (Operation ν η × Except String (Answer ν))} {seg : List (Line ν η)}

/-- What is stored in the end has been stored since the beginning, whichever line one looks at. -/
theorem Errands.line_stay (hrun : Errands host w asked v) (hj : v.journal = seg ++ w.journal)
    {key : Key} {e' : Entry ν η} (he' : v.cache.find? key = some e')
    (hlt : e'.generation < w.cache.nextGeneration) {l : Line ν η} (hl : l ∈ seg) :
    ∃ e, l.cache.find? key = some e ∧ e.stay key = e'.stay key ∧ (e.due l.now = true →
      e'.policy = e.policy ∧ e'.lastAccessedAt = e.lastAccessedAt) := by
  obtain ⟨new, old, rfl⟩ := List.append_of_mem hl
  have hsuffix : l :: (old ++ w.journal) <:+ v.journal := ⟨new, by simp [hj]⟩
  -- the line is new, so it shows a world on the way
  rcases hrun.strides.line hsuffix with hshort | ⟨u, hwu, huv, hn, -, hc, -⟩
  · have hlen := hshort.length_le
    simp only [List.length_cons, List.length_append] at hlen
    omega
  · have hu := huv.endures.stay he' (Nat.lt_of_lt_of_le hlt hwu.endures.next)
    rwa [hn, hc] at hu

/-- A veto holds for ever and resets nothing. While nothing panics and every round about a stored
insertion contains a veto, and nobody overwrites it or takes it out otherwise, it stays, with its value
and the moment it came in; whoever asks for it gets its value; no value is made for its key, no
eviction of it is announced and its value is not handed over. Once it is due, neither its policy nor
the moment of its last access changes, and each round that ends in a veto counts as one cancelled
expiration. -/
theorem vetoes_hold_for_ever (h : Between host settings hosting w) (hheld : w.cache.handle = .held)
    {key : Key} {e : Entry ν η} (he : w.cache.find? key = some e)
    (hhost : host.Only (Operation.Avoids key)) (hrun : Errands host w asked v)
    (hops : ∀ x ∈ asked, x.1.Avoids key) (hj : v.journal = seg ++ w.journal)
    (hpanics : ∀ l ∈ seg, l.panics = false)
    (hvetoes : ∀ l ∈ seg, ∀ value answers, l.record = .decided e.generation key value answers →
      Decision.cancel ∈ answers) :
    ∃ e', v.cache.find? key = some e' ∧ e'.stay key = e.stay key ∧
      (∀ x ∈ asked, ∀ a, x.1.answer? (e.stay key) = some a → x.2 = .ok a) ∧
      (∀ l ∈ seg, l.makesFor key = false ∧ l.announces e.generation = false ∧
        l.handsOver e.generation = false) ∧
      (e.due w.now = true → e'.policy = e.policy ∧ e'.lastAccessedAt = e.lastAccessedAt) ∧
      (∀ l ∈ seg, ∃ e₁, l.cache.find? key = some e₁ ∧ e₁.stay key = e.stay key ∧
        (e₁.due l.now = true → e'.policy = e₁.policy ∧ e'.lastAccessedAt = e₁.lastAccessedAt)) ∧
      v.cache.stats.cancelled = w.cache.stats.cancelled + seg.countP (·.vetoes) := by
  have hreach := Reachable.between h
  obtain ⟨t, memory, hstretch⟩ := h.stretch
  obtain ⟨t', memory', hstrides⟩ := h.strides
  have hposed : Poised host w := hstrides.poised (.fresh settings hosting t' memory')
  have hrec : Recorded v := hreach.recorded.moves (hrun.moves hreach.calls)
  have hw : w.Retains (e.stay key) := ⟨hheld, congrArg (Option.map (Entry.stay key)) he⟩
  obtain ⟨hv, hmade, hanswers⟩ := (hrun.upholds hhost (hposed.accepted key e he) hops hreach.calls
    hreach.recorded.sound).conclude hj (fun l hl => ⟨hpanics l hl, hvetoes l hl⟩) hw
  obtain ⟨e', he', hstay⟩ := Option.map_eq_some_iff.mp hv.2
  have hgeneration : e'.generation = e.generation := congrArg Stay.generation hstay
  have hlt : e'.generation < w.cache.nextGeneration := by
    rw [hgeneration]
    exact hposed.below key e he
  refine ⟨e', he', hstay, hanswers, ?_, ?_, ?_, ?_⟩
  · intro l hl
    have hno := hrec.untold he' (l := l) (by rw [hj]; exact List.mem_append_left _ hl)
    rw [hgeneration] at hno
    exact ⟨hmade l hl, hno⟩
  · obtain ⟨e₀, he₀, -, hdue⟩ := hrun.strides.endures.stay he' hlt
    obtain rfl := Option.some.inj (he.symm.trans he₀)
    exact hdue
  · intro l hl
    obtain ⟨e₁, he₁, hstay₁, hdue⟩ := hrun.line_stay hj he' hlt hl
    exact ⟨e₁, he₁, hstay₁.trans hstay, hdue⟩
  -- the counter is the number of vetoes in the whole journal, at the beginning and at the end
  · have hfresh : Kept (World.fresh settings hosting t memory : World ν η μ) :=
      .fresh settings hosting t memory
    have hbefore := (hstretch.kept hfresh).1.balanced.cancelled
    have hafter := ((hstretch.trans hrun.stretch).kept hfresh).1.balanced.cancelled
    rw [hafter, hbefore, hj, List.countP_append, Nat.add_comm]

end

/-! ## An entry that a handler guards -/

/-- An entry comes in that lives for five milliseconds after each access. -/
def Program.insertGuarded : Program Nat String Unit Unit :=
  .perform (.onExpiring "pin") fun _ =>
  .perform (.insert "k" 1 ⟨some (.sliding (.ofMillis 5) none), false⟩) fun _ => .done ()

namespace World

def guarded : World Nat String Unit :=
  (Act.turn .pinning 6 .insertGuarded).after (.fresh .keeping .task .zero ())

theorem guarded_between : Between .pinning .keeping .task guarded :=
  .turn 6 .insertGuarded (.ok ()) (.fresh .zero ()) rfl

def told (op : Operation Nat String) (w : World Nat String Unit) : World Nat String Unit :=
  ((Program.attempt op).run (Act.perform .pinning 6)).after w

def later (span : Span) (w : World Nat String Unit) : World Nat String Unit :=
  { w with now := w.now.advance span }

def readInTime : World Nat String Unit := (guarded.later (.ofMillis 3)).told (.get "k")

/-- The entry has expired and is read all the same. -/
def readOverdue : World Nat String Unit :=
  ((((readInTime.later (.ofMillis 5)).told (.get "k")).told (.contains "k")).told
    (.fetch "k" "make" .default)).told .sweep

/-- A tick has found it, too. -/
def sweptOverdue : World Nat String Unit :=
  (Act.settle .pinning 6).after (readOverdue.later (.ofMillis 60000))

theorem sweptOverdue_errands : Errands .pinning guarded
    ([] ++ [(.get "k", .ok (.found (some 1)))] ++ [(.get "k", .ok (.found (some 1)))] ++
      [(.contains "k", .ok (.flag true))] ++ [(.fetch "k" "make" .default, .ok (.fetched 1))] ++
      [(.sweep, .ok (.count 0))]) sweptOverdue := by
  have asks : ∀ {told : List (Operation Nat String × Except String (Answer Nat))}
      {v : World Nat String Unit} {op : Operation Nat String} {r : Except String (Answer Nat)},
      Errands .pinning guarded told v →
      ((Program.attempt op).run (Act.perform .pinning 6)).answer? v = some r →
      Errands .pinning guarded (told ++ [(op, r)]) (v.told op) :=
    fun h hr => .ask 6 _ _ h (Act.eq_ok_of_answer? hr)
  refine .settle 6 (v := readOverdue.later (.ofMillis 60000)) (.elapse (.ofMillis 60000) ?_)
    (Act.eq_ok_of_answer? (by decide +kernel))
  refine asks (asks (asks (asks (.elapse (.ofMillis 5) ?_) ?_) ?_) ?_) ?_
  · exact asks (.elapse (.ofMillis 3) .none) (by decide +kernel)
  all_goals decide +kernel

end World

theorem Host.pinning_only (ok : Operation Nat String → Prop) : Host.pinning.Only ok := by
  intro c
  cases c <;> trivial

/-- Read five times after it has expired, the entry has not changed. -/
theorem guarded_entry_stays : ∃ seg e e', World.sweptOverdue.journal = seg ++ World.guarded.journal ∧
    World.guarded.cache.find? "k" = some e ∧ World.sweptOverdue.cache.find? "k" = some e' ∧
    e'.stay "k" = e.stay "k" ∧ e'.due World.sweptOverdue.now = true ∧
    (∀ l ∈ seg, l.makesFor "k" = false ∧ l.announces e.generation = false ∧
      l.handsOver e.generation = false) ∧
    World.sweptOverdue.cache.stats.cancelled = World.guarded.cache.stats.cancelled + 5 := by
  have hpanics : World.sweptOverdue.journal.any (·.panics) = false := by decide +kernel
  have hvetoes : World.sweptOverdue.journal.all (fun l => !l.completes || l.vetoes) = true := by
    decide +kernel
  have hcount : World.sweptOverdue.journal.countP (·.vetoes) =
      World.guarded.journal.countP (·.vetoes) + 5 := by decide +kernel
  have hdue : (World.sweptOverdue.cache.find? "k").any (·.due World.sweptOverdue.now) = true := by
    decide +kernel
  obtain ⟨seg, hj, -⟩ := World.sweptOverdue_errands.stretch.segment
  have hsub : ∀ l ∈ seg, l ∈ World.sweptOverdue.journal := by
    rw [hj]
    exact fun l hl => List.mem_append_left _ hl
  obtain ⟨e, he⟩ : ∃ e, World.guarded.cache.find? "k" = some e := ⟨_, rfl⟩
  obtain ⟨e', he', hstay, -, hquiet, -, -, hcancelled⟩ := vetoes_hold_for_ever
    World.guarded_between rfl he (Host.pinning_only _) World.sweptOverdue_errands
    (by simp [Operation.Avoids, Options.default]) hj (fun l hl => Bool.eq_false_iff.mpr (List.any_eq_false.mp hpanics l (hsub l hl))) (by
      intro l hl value answers hr
      have hline := List.all_eq_true.mp hvetoes l (hsub l hl)
      simp only [Line.completes, Line.vetoes, hr, Bool.not_true, Bool.false_or] at hline
      exact List.contains_iff_mem.mp hline)
  refine ⟨seg, e, e', hj, he, he', hstay, ?_, hquiet, ?_⟩
  · rw [he', Option.any_some] at hdue
    exact hdue
  · rw [hj, List.countP_append] at hcount
    omega

end ExpiringCache
