import ExpiringCache.Proofs.Stretches

/-!
# Why reads start over

A read starts over when what it found has changed under its hands. There are two ways only for that: a
callback has inserted under the key or taken out what was there, or the predicate of what was there has
answered twice and not the same. The other ways in which an attempt to evict an insertion can fail are
closed to a read that has just found the insertion expired and not marked.
-/

namespace ExpiringCache

variable {ν η μ α β : Type}

namespace Line

/-- Something comes in under the key, or what is there is removed or cleared away. -/
def writes (key : Key) (l : Line ν η) : Bool :=
  match l.record with
  | .inserted _ k _ => k = key
  | .left _ k _ .removed => k = key
  | .left _ k _ .cleared => k = key
  | _ => false

/-- A callback that was begun at this depth, or something further inside, writes under the key. -/
def overrides (key : Key) (depth : Nat) (l : Line ν η) : Bool :=
  depth < l.calls.length && l.writes key

/-- Work at this depth had an answer from the predicate of what is stored under the key: the insertion
it is about, and the answer. -/
def answer? [DecidableEq η] (key : Key) (depth : Nat) (l : Line ν η) : Option (Nat × Bool) :=
  match l.record, l.cache.find? key with
  | .consulted predicate (some b), some e =>
    if l.calls.length = depth ∧ e.policy = some (.custom predicate) then some (e.generation, b)
    else none
  | _, _ => none

/-- The predicate says that the insertion is not expired, and the last time it said that it was. -/
def turns [DecidableEq η] (key : Key) (depth : Nat) (l : Line ν η) (before : List (Line ν η)) :
    Bool :=
  match l.answer? key depth with
  | some (g, false) => before.findSome? (·.answer? key depth) == some (g, true)
  | _ => false

/-- A read of the key at this depth starts over. -/
def restarts (key : Key) (depth : Nat) (l : Line ν η) : Bool :=
  match l.record with
  | .retried k => k = key && l.calls.length == depth
  | _ => false

end Line

/-- How often a read of the key, at this depth, is given a cause to start over. -/
def causes [DecidableEq η] (key : Key) (depth : Nat) : List (Line ν η) → Nat
  | [] => 0
  | l :: before =>
    causes key depth before + (l.overrides key depth || l.turns key depth before).toNat

section

variable [DecidableEq η] {key : Key} {depth : Nat}

theorem Line.turns_append {l : Line ν η} {new old : List (Line ν η)}
    (h : l.turns key depth new = true) : l.turns key depth (new ++ old) = true := by
  unfold Line.turns at *
  split at h
  · rw [beq_iff_eq] at h ⊢
    rw [List.findSome?_append, h, Option.some_or]
  · cases h

/-- What is a cause by itself is one after other lines too. -/
theorem causes_append (key : Key) (depth : Nat) (new old : List (Line ν η)) :
    causes key depth new + causes key depth old ≤ causes key depth (new ++ old) := by
  induction new with
  | nil => simp [causes]
  | cons l new ih =>
    have hle : (l.overrides key depth || l.turns key depth new).toNat ≤
        (l.overrides key depth || l.turns key depth (new ++ old)).toNat := by
      cases ho : l.overrides key depth with
      | true => simp
      | false =>
        cases ht : l.turns key depth new with
        | true => simp [Line.turns_append ht]
        | false => simp
    simp only [List.cons_append, causes]
    omega

theorem causes_pos_of_overrides {seg : List (Line ν η)} {l : Line ν η} (hl : l ∈ seg)
    (h : l.overrides key depth = true) : 1 ≤ causes key depth seg := by
  obtain ⟨newer, older, rfl⟩ := List.append_of_mem hl
  have happ := causes_append key depth newer (l :: older)
  have hcons : 1 ≤ causes key depth (l :: older) := by
    simp only [causes, h, Bool.true_or, Bool.toNat_true]
    omega
  omega

theorem causes_pos_of_turns {newer older : List (Line ν η)} {l : Line ν η}
    (h : l.turns key depth older = true) : 1 ≤ causes key depth (newer ++ l :: older) := by
  have happ := causes_append key depth newer (l :: older)
  have hcons : 1 ≤ causes key depth (l :: older) := by
    simp only [causes, h, Bool.or_true, Bool.toNat_true]
    omega
  omega

end

/-! ## Passes -/

/-- What made the pass start over that wrote these lines and began in `w`. -/
inductive Cause [DecidableEq η] (key : Key) (w : World ν η μ) (pass : List (Line ν η)) : Prop
  | override (l : Line ν η) (hl : l ∈ pass) (h : l.overrides key w.calls.length = true)
  | turn (e : Entry ν η) (predicate : η) (he : w.cache.find? key = some e)
      (hp : e.policy = some (.custom predicate)) (newer older : List (Line ν η)) (l : Line ν η)
      (hpass : pass = newer ++ l :: older) (h : l.turns key w.calls.length older = true)

theorem Cause.later [DecidableEq η] {key : Key} {w : World ν η μ} {pass : List (Line ν η)}
    (h : Cause key w pass) (new : List (Line ν η)) : Cause key w (new ++ pass) := by
  cases h with
  | override l hl ho => exact .override l (List.mem_append_right _ hl) ho
  | turn e predicate he hp newer older l hpass ht =>
    refine .turn e predicate he hp (new ++ newer) older l ?_ ht
    rw [hpass, List.append_assoc]

/-- Work that comes back without starting over, and of whose lines `P` holds. -/
structure Pass (key : Key) (P : List (Line ν η) → Prop) (w v : World ν η μ) : Prop where
  calls : v.calls = w.calls
  lines : ∃ pass, v.journal = pass ++ w.journal ∧
    (∀ l ∈ pass, l.restarts key w.calls.length = false) ∧ P pass

/-- A read that begins in `w` and ends in `v`, having started over so many times. -/
inductive Rereads [DecidableEq η] (key : Key) : World ν η μ → Nat → World ν η μ → Prop
  | last {w v : World ν η μ} (h : Pass key (fun _ => True) w v) : Rereads key w 0 v
  | again {w u v : World ν η μ} {n : Nat} (h : Pass key (Cause key w) w u)
      (k : Rereads key (u.note (.retried key)) n v) : Rereads key w (n + 1) v

namespace Rereads

variable [DecidableEq η] {key : Key} {w v : World ν η μ} {n : Nat}

/-- Every time the read starts over it says so, and had a cause that it had not had before. -/
theorem counted (h : Rereads key w n v) : v.calls = w.calls ∧ ∃ seg, v.journal = seg ++ w.journal ∧
    seg.countP (·.restarts key w.calls.length) = n ∧ n ≤ causes key w.calls.length seg := by
  induction h with
  | @last w v h =>
    obtain ⟨seg, hj, hseg, -⟩ := h.lines
    refine ⟨h.calls, seg, hj, ?_, Nat.zero_le _⟩
    rw [List.countP_eq_zero]
    exact fun l hl => by simp [hseg l hl]
  | @again w u v n h _ ih =>
    obtain ⟨hc, new, hnew, hcount, hle⟩ := ih
    obtain ⟨pass, hj, hpass, hcause⟩ := h.lines
    rw [World.calls_note, h.calls] at hc hcount hle
    have hl : (u.line (.retried key)).restarts key w.calls.length = true := by
      simp [World.line, Line.restarts, h.calls]
    refine ⟨hc, new ++ (u.line (.retried key) :: pass), ?_, ?_, ?_⟩
    · rw [hnew, World.journal_note, hj, List.append_assoc]
      rfl
    · have hnone : pass.countP (·.restarts key w.calls.length) = 0 :=
        List.countP_eq_zero.mpr fun m hm => by simp [hpass m hm]
      rw [List.countP_append, List.countP_cons_of_pos hl, hnone, hcount]
    · have hone : 1 ≤ causes key w.calls.length pass := by
        cases hcause with
        | override m hm ho => exact causes_pos_of_overrides hm ho
        | turn e predicate he hp newer older m heq ht =>
          rw [heq]
          exact causes_pos_of_turns ht
      have h1 := causes_append key w.calls.length new (u.line (.retried key) :: pass)
      have h2 : causes key w.calls.length pass ≤
          causes key w.calls.length (u.line (.retried key) :: pass) := Nat.le_add_right ..
      omega

theorem suffix (h : Rereads key w n v) : w.journal <:+ v.journal := by
  obtain ⟨-, seg, hj, -⟩ := h.counted
  exact ⟨seg, hj.symm⟩

/-- Without a predicate to ask and if no callback writes under the key the first pass is the last. -/
theorem once (h : Rereads key w n v)
    (ht : ∀ e policy, w.cache.find? key = some e → e.policy = some policy → policy.isTimed = true)
    {seg : List (Line ν η)} (hj : v.journal = seg ++ w.journal)
    (hw : ∀ l ∈ seg, l.overrides key w.calls.length = false) : n = 0 := by
  cases h with
  | last => rfl
  | @again _ u _ n h k =>
    exfalso
    obtain ⟨new, hnew⟩ := k.suffix
    obtain ⟨pass, hu, -, hcause⟩ := h.lines
    have hseg : seg = new ++ u.line (.retried key) :: pass := by
      apply List.append_cancel_right
      rw [← hj, ← hnew, World.journal_note, hu, List.append_assoc]
      rfl
    cases hcause with
    | override m hm ho =>
      rw [hw m (by simp [hseg, hm])] at ho
      cases ho
    | turn e predicate he hp =>
      have := ht e _ he hp
      cases this

end Rereads

/-! ## What is left of an entry -/

/-- No access moves the deadline: the entry is due, or its policy has none to move. -/
def Entry.Firm (now : Instant) (e : Entry ν η) : Prop :=
  e.due now = true ∨ ∀ t, e.policy.map (·.accessed t) = e.policy

theorem Entry.Firm.goes_on {e e' : Entry ν η} {s t : Instant} (h : e.Firm s) (hst : s ≤ t)
    (hp : e'.policy = e.policy) : e'.Firm t := by
  unfold Firm due deadline? at *
  rw [hp]
  exact h.imp (Entry.due_mono (e := e) hst) id

/-- What is stored under the key and marked is so still, unless somebody wrote under the key. -/
structure KeepsMarked (key : Key) (w v : World ν η μ) : Prop where
  stretch : Stretch w v
  now : w.now ≤ v.now
  lines : ∃ seg, v.journal = seg ++ w.journal ∧ ∀ e, w.cache.find? key = some e →
    e.pending = true → (∃ l ∈ seg, l.writes key = true) ∨
    ∃ e', v.cache.find? key = some e' ∧ e'.generation = e.generation ∧ e'.pending = true ∧
      (e.Firm w.now → e'.policy = e.policy)

namespace KeepsMarked

variable {key : Key} {w v u : World ν η μ}

theorem kept (seg : List (Line ν η)) (h : Stretch w v) (hn : w.now ≤ v.now)
    (hj : v.journal = seg ++ w.journal) (hf : ∀ e, w.cache.find? key = some e → e.pending = true →
      ∃ e', v.cache.find? key = some e' ∧ e'.generation = e.generation ∧ e'.pending = true ∧
        (e.Firm w.now → e'.policy = e.policy)) : KeepsMarked key w v :=
  ⟨h, hn, seg, hj, fun e he hp => .inr (hf e he hp)⟩

theorem same (seg : List (Line ν η)) (h : Stretch w v) (hn : v.now = w.now)
    (hj : v.journal = seg ++ w.journal) (hf : v.cache.find? key = w.cache.find? key) :
    KeepsMarked key w v :=
  .kept seg h (Int.le_of_eq (congrArg _ hn.symm)) hj
    fun e he hp => ⟨e, hf.trans he, rfl, hp, fun _ => rfl⟩

theorem trans (h : KeepsMarked key w v) (k : KeepsMarked key v u) : KeepsMarked key w u := by
  obtain ⟨old, hold, ho⟩ := h.lines
  obtain ⟨new, hnew, hn⟩ := k.lines
  refine ⟨h.stretch.trans k.stretch, Int.le_trans h.now k.now, new ++ old, ?_, fun e he hm => ?_⟩
  · rw [hnew, hold, List.append_assoc]
  rcases ho e he hm with ⟨l, hl, hw⟩ | ⟨e', he', hg', hm', hp'⟩
  · exact .inl ⟨l, List.mem_append_right _ hl, hw⟩
  rcases hn e' he' hm' with ⟨l, hl, hw⟩ | ⟨e'', he'', hg'', hm'', hp''⟩
  · exact .inl ⟨l, List.mem_append_left _ hl, hw⟩
  · refine .inr ⟨e'', he'', hg''.trans hg', hm'', fun hfirm => ?_⟩
    have hp := hp' hfirm
    exact (hp'' (hfirm.goes_on h.now hp)).trans hp

theorem emptied (f : Cache ν η → Cache ν η) (hf : (f w.cache).entries = w.cache.entries)
    (h : Stretch w (w.change f).emptied) : KeepsMarked key w (w.change f).emptied := by
  rw [World.emptied_eq] at h ⊢
  refine ⟨h, Int.le_refl _, _, rfl, fun e he _ => ?_⟩
  have hrow : (key, e) ∈ (f w.cache).entries.rows := by
    rw [hf]
    exact Table.get?_eq_some_iff.mp he
  refine .inl ⟨_, List.mem_reverse.mpr (List.mem_map.mpr ⟨(key, e), hrow, rfl⟩), ?_⟩
  simp [World.line, Line.writes]

theorem touch {j : Key} {e : Entry ν η} (hf : w.cache.find? j = some e)
    (hlive : e.due w.now = false) : KeepsMarked key w (w.change (.touch w.now j)) := by
  refine .kept [] (.touch j) (Int.le_refl _) rfl fun e' he' hp => ?_
  rw [World.cache_change, Cache.find?_touch]
  by_cases hj : key = j
  · subst hj
    obtain rfl : e = e' := Option.some.inj (hf.symm.trans he')
    rw [if_pos rfl, hf]
    refine ⟨_, rfl, rfl, hp, fun hfirm => ?_⟩
    rcases hfirm with hdue | hstill
    · rw [hlive] at hdue
      cases hdue
    · exact hstill w.now
  · rw [if_neg hj]
    exact ⟨e', he', rfl, hp, fun _ => rfl⟩

theorem removed {j : Key} {e : Entry ν η} (hf : w.cache.find? j = some e) :
    KeepsMarked key w ((w.change (.takeOut j (.removed 1))).note
      (.left e.generation j e.value .removed)) := by
  refine ⟨.remove j e hf, Int.le_refl _, [_], rfl, fun e' he' hm => ?_⟩
  by_cases hj : key = j
  · exact .inl ⟨_, List.mem_singleton_self _, by simp [Line.writes, hj]⟩
  · refine .inr ⟨e', ?_, rfl, hm, fun _ => rfl⟩
    rw [World.cache_note, World.cache_change, Cache.find?_takeOut, if_neg hj]
    exact he'

theorem placed (j : Key) (value : ν) (policy : Option (Policy η)) (w : World ν η μ) :
    KeepsMarked key w (w.placed j value policy) := by
  refine ⟨.place j value policy, ?_, w.placedLines j value policy, World.journal_placed ..,
    fun e he hm => ?_⟩
  · rw [World.now_placed]
    exact Int.le_refl _
  by_cases hj : key = j
  · refine .inl ⟨(w.change (.insert w.now j value policy)).line
      (.inserted w.cache.nextGeneration j value), ?_, ?_⟩
    · unfold World.placedLines
      cases w.cache.find? j <;> simp
    · simp [World.line, Line.writes, hj]
  · refine .inr ⟨e, ?_, rfl, hm, fun _ => rfl⟩
    rw [World.cache_placed, Cache.find?_insert, if_neg hj]
    exact he

theorem concluded {g : Nat} {j : Key} {value : ν} {answers : List Decision} {u : Upshot}
    (h : Decision.cancel ∉ answers)
    (hfree : ∀ e, w.cache.insertion? j g = some e → e.pending = false)
    (hv : (w.note (.decided g j value answers)).Commits j g u v) : KeepsMarked key w v := by
  have hs : Stretch w v := .concluded g j value answers u h hv
  have asked : ∀ {answer : Option Bool} {v : World ν η μ},
      (w.note (.decided g j value answers)).Examines j g answer v →
      v.now = w.now ∧ v.cache = w.cache ∧ ∃ new, v.journal = new ++ w.journal := by
    intro answer v hx
    obtain ⟨new, hj, -⟩ := hx.lines
    refine ⟨hx.now, hx.cache, new ++ [w.line (.decided g j value answers)], ?_⟩
    rw [hj, List.append_assoc]
    rfl
  have unchanged : ∀ {answer : Option Bool},
      (w.note (.decided g j value answers)).Examines j g answer v → KeepsMarked key w v := by
    intro answer hx
    obtain ⟨hn, hc, new, hj⟩ := asked hx
    exact .same new hs hn hj (by rw [hc])
  cases hv with
  | stale hx => exact unchanged hx
  | unwound hx => exact unchanged hx
  | @evicted v e he hx =>
    obtain ⟨hn, hc, new, hj⟩ := asked hx
    obtain ⟨hf, -⟩ := Cache.insertion?_eq_some.mp he
    have hleft : ((v.change (.takeOut j .expiration)).note
        (.left g j e.value .expired)).journal = (v.change (.takeOut j .expiration)).line
          (.left g j e.value .expired) :: new ++ w.journal := congrArg (List.cons _) hj
    refine .kept _ hs (Int.le_of_eq (congrArg _ hn.symm)) hleft fun e' he' hm => ?_
    -- what is evicted is not marked
    have hk : key ≠ j := by
      rintro rfl
      obtain rfl : e = e' := Option.some.inj (hf.symm.trans he')
      rw [hfree e he] at hm
      cases hm
    refine ⟨e', ?_, rfl, hm, fun _ => rfl⟩
    rw [World.cache_note, World.cache_change, Cache.find?_takeOut, if_neg hk, hc]
    exact he'

theorem around {w₀ v₀ : World ν η μ} (h : Stretch w v) (k : KeepsMarked key w₀ v₀)
    (hw : w₀.journal = w.journal ∧ w₀.now = w.now) (hv : v.journal = v₀.journal ∧ v.now = v₀.now)
    (hbegin : ∀ e, w.cache.find? key = some e → e.pending = true → w₀.cache.find? key = some e)
    (hend : ∀ e e', w.cache.find? key = some e → e.pending = true → v₀.cache.find? key = some e' →
      e'.generation = e.generation → v.cache.find? key = some e') : KeepsMarked key w v := by
  have hn := k.now
  rw [hw.2, ← hv.2] at hn
  obtain ⟨seg, hj, hseg⟩ := k.lines
  rw [hw.1, ← hv.1] at hj
  refine ⟨h, hn, seg, hj, fun e he hm => ?_⟩
  rcases hseg e (hbegin e he hm) hm with hwrite | ⟨e', he', hg', hm', hp'⟩
  · exact .inl hwrite
  · rw [hw.2] at hp'
    exact .inr ⟨e', hend e e' he hm he' hg', hg', hm', hp'⟩

theorem find?_mark {b : Bool} {j : Key} {g : Nat} {c : Cache ν η} {e : Entry ν η}
    (he : c.find? key = some e) (hg : key = j → e.generation ≠ g) :
    (c.mark b j g).find? key = some e := by
  rw [Cache.find?_mark]
  split
  · rename_i hj
    rw [← hj, he, Option.map_some, if_neg (hg hj)]
  · exact he

theorem paths (key : Key) :
    Paths (KeepsMarked key : World ν η μ → World ν η μ → Prop) (fun _ => True) where
  still w := .same [] .still rfl rfl rfl
  trans := .trans
  memory m := .same [] (.memory m) rfl rfl rfl
  note r hr _ := .same [_] (.note r hr) rfl rfl rfl
  retune f h := .same [] (.aside f h.toAside) rfl rfl (by
    unfold Cache.find?
    rw [World.cache_change, h.entries])
  touch _ _ he hlive := .touch he hlive
  read j found := .same [_] (.read j found) rfl rfl rfl
  vetoed g j value answers h := .same [_] (.vetoed g j value answers h) rfl rfl rfl
  concluded _ _ _ _ _ := concluded
  close h := .emptied _ rfl (Stretch.paths.close h)
  during a ha h := .around (.during a ha h.stretch) h ⟨rfl, rfl⟩ ⟨rfl, rfl⟩ (fun _ he _ => he)
    (fun _ _ _ _ he _ => he)
  deciding {w v} j g e he hp _ h := by
    -- handlers are asked about what is not marked
    have other : ∀ e', w.cache.find? key = some e' → e'.pending = true → key = j →
        e'.generation ≠ g := by
      rintro e' he' hm rfl hg
      have hsame := he.symm.trans (Cache.insertion?_eq_some.mpr ⟨he', hg⟩)
      obtain rfl := Option.some.inj hsame
      rw [hp] at hm
      cases hm
    refine .around (.deciding j g e he hp h.stretch) h ⟨rfl, rfl⟩ ⟨rfl, rfl⟩ ?_ ?_
    · exact fun e' he' hm => find?_mark he' (other e' he' hm)
    · intro e' e'' he' hm he'' hg
      refine find?_mark he'' fun hj => ?_
      rw [hg]
      exact other e' he' hm hj
  holding j acquired slot ha h := .around (.holding j acquired slot ha h.stretch) h ⟨rfl, rfl⟩
    ⟨rfl, rfl⟩ (fun _ he _ => he) (fun _ _ _ _ he _ => he)

theorem admits (key : Key) (host : Host ν η μ) (op : Operation ν η) :
    Act.Admits host (KeepsMarked key) (fun _ => True) op :=
  (paths key).admits (fun j _ w value policy => placed j value policy w)
    (fun _ _ _ he => .removed he) (fun _ => .emptied id rfl .empty)
    (fun _ => .same [] (.aside _ ⟨rfl, rfl, rfl, rfl, rfl⟩) rfl rfl rfl) op

theorem elapsed (key : Key) (span : Span) (w : World ν η μ) :
    KeepsMarked key w { w with now := w.now.advance span } :=
  .kept [] (Stretch.elapsed span w) (w.now.le_advance span) rfl
    fun e he hp => ⟨e, he, rfl, hp, fun _ => rfl⟩

end KeepsMarked

theorem Act.call_keeps_marked (key : Key) (host : Host ν η μ) (depth : Nat) (c : Callback ν η) :
    (call host depth c).Follows (KeepsMarked key) :=
  call_follows (KeepsMarked.paths key) (fun span _ => KeepsMarked.elapsed key span) (fun _ h => h)
    (fun c => Program.only_of_all (KeepsMarked.admits key host) (host.respond c)) depth c
    (Callback.makesFor_all c)

/-! ## Inside a pass -/

/-- Between the two a callback has written under the key. -/
def Overridden (key : Key) (w v : World ν η μ) : Prop :=
  ∃ seg, v.journal = seg ++ w.journal ∧ ∃ l ∈ seg, l.overrides key w.calls.length = true

theorem Line.restarts_of_consults {l : Line ν η} (h : l.consults = true) (key : Key) (depth : Nat) :
    l.restarts key depth = false := by
  unfold Line.consults at h
  unfold Line.restarts
  split at h
  · rename_i hr
    rw [hr]
  · cases h

/-- What is new says nothing about the key's reads at this depth: neither does one of them start over,
nor does one have an answer. -/
structure SilentOnReads [DecidableEq η] (key : Key) (w v : World ν η μ) : Prop where
  calls : v.calls = w.calls
  lines : ∃ seg, v.journal = seg ++ w.journal ∧ ∀ l ∈ seg,
    l.restarts key w.calls.length = false ∧ l.answer? key w.calls.length = none

namespace SilentOnReads

variable [DecidableEq η] {key : Key} {w v u w₀ v₀ : World ν η μ}

theorem still (hc : v.calls = w.calls) (hj : v.journal = w.journal) : SilentOnReads key w v :=
  ⟨hc, [], hj, by simp⟩

theorem note (r : Record ν η) (hr : ∀ l : Line ν η, l.record = r →
    ∀ depth, l.restarts key depth = false ∧ l.answer? key depth = none) :
    SilentOnReads key w (w.note r) :=
  ⟨rfl, [_], rfl, fun l hl => by
    rw [List.mem_singleton.mp hl]
    exact hr _ rfl _⟩

theorem trans (h : SilentOnReads key w v) (k : SilentOnReads key v u) : SilentOnReads key w u :=
  ⟨k.calls.trans h.calls, written_trans h.lines (h.calls ▸ k.lines)⟩

/-- What is done inside of something is deeper. -/
theorem inside {a : Activity ν η} (h : Stretch w₀ v₀) (hc₀ : w₀.calls = a :: w.calls)
    (hj₀ : w₀.journal = w.journal) (hc : v.calls = v₀.calls.tail) (hj : v.journal = v₀.journal) :
    SilentOnReads key w v := by
  obtain ⟨seg, hseg, hin⟩ := h.segment
  refine ⟨?_, seg, ?_, fun l hl => ?_⟩
  · rw [hc, h.calls, hc₀, List.tail_cons]
  · rw [hj, hseg, hj₀]
  · have hlen := (hin l hl).length_le
    rw [hc₀, List.length_cons] at hlen
    have hne : l.calls.length ≠ w.calls.length := by omega
    constructor
    · unfold Line.restarts
      split <;> simp [hne]
    · unfold Line.answer?
      split
      · rw [if_neg fun h => hne h.1]
      · rfl

theorem during {a : Activity ν η} (h : Stretch (w.push a) v) : SilentOnReads key w v.pop :=
  .inside h rfl rfl rfl rfl

end SilentOnReads

/-- The predicate, if the policy has one, last said that the insertion `g` is expired. -/
def Expired [DecidableEq η] (key : Key) (depth : Nat) (policy : Policy η) (g : Nat)
    (pass : List (Line ν η)) : Prop :=
  policy.isTimed = false → pass.findSome? (·.answer? key depth) = some (g, true)

theorem World.Asks.answered [DecidableEq η] {key : Key} {u v : World ν η μ} {e : Entry ν η}
    {policy : Policy η} {answer : Option Bool} (he : u.cache.find? key = some e)
    (hp : e.policy = some policy) (h : u.Asks policy answer v) :
    ∃ asked, v.journal = asked ++ u.journal ∧ (∀ l ∈ asked, ∀ n, l.restarts key n = false) ∧
      ∀ b, answer = some b → policy.isTimed = false →
        ∃ l, asked = [l] ∧ l.answer? key u.calls.length = some (e.generation, b) := by
  cases h with
  | timed ht =>
    refine ⟨[], rfl, by simp, ?_⟩
    rw [ht]
    exact nofun
  | custom predicate answer m =>
    refine ⟨[_], rfl, ?_, ?_⟩
    · intro l hl n
      rw [List.mem_singleton.mp hl]
      rfl
    · rintro b rfl -
      refine ⟨_, rfl, ?_⟩
      simp [Line.answer?, he, hp]

namespace Pass

variable {key : Key} {P Q : List (Line ν η) → Prop} {w u v : World ν η μ}

theorem start (w : World ν η μ) : Pass key (fun pass => pass = []) w w :=
  ⟨rfl, [], rfl, by simp, rfl⟩

theorem more (h : Pass key P w u) (hc : v.calls = u.calls) {new : List (Line ν η)}
    (hj : v.journal = new ++ u.journal) (hnew : ∀ l ∈ new, l.restarts key w.calls.length = false)
    (hPQ : ∀ pass, P pass → Q (new ++ pass)) : Pass key Q w v := by
  obtain ⟨pass, hold, hpass, hP⟩ := h.lines
  refine ⟨hc.trans h.calls, new ++ pass, ?_, ?_, hPQ pass hP⟩
  · rw [hj, hold, List.append_assoc]
  · exact fun l hl => (List.mem_append.mp hl).elim (hnew l) (hpass l)

theorem examined {j : Key} {g : Nat} {answer : Option Bool} (h : Pass key P w u)
    (hx : u.Examines j g answer v) (hPQ : ∀ new pass, P pass → Q (new ++ pass)) :
    Pass key Q w v := by
  obtain ⟨new, hj, hnew⟩ := hx.lines
  exact h.more hx.calls hj (fun l hl => Line.restarts_of_consults (hnew l hl).1 ..) (hPQ new)

variable [DecidableEq η]

theorem silent (h : Pass key P w u) (k : SilentOnReads key u v) (hPQ : ∀ new pass,
    (∀ l ∈ new, l.answer? key w.calls.length = none) → P pass → Q (new ++ pass)) :
    Pass key Q w v := by
  obtain ⟨new, hj, hnew⟩ := k.lines
  rw [h.calls] at hnew
  exact h.more k.calls hj (fun l hl => (hnew l hl).1)
    fun pass => hPQ new pass fun l hl => (hnew l hl).2

theorem onward (h : Pass key P w u) (k : SilentOnReads key u v) : Pass key (fun _ => True) w v :=
  h.silent k fun _ _ _ _ => trivial

theorem overridden (h : Pass key P w u) (k : SilentOnReads key u v) (ho : Overridden key u v) :
    Pass key (Cause key w) w v := by
  obtain ⟨new, hj, hnew⟩ := k.lines
  obtain ⟨new', hj', l, hl, hwrite⟩ := ho
  obtain rfl : new = new' := List.append_cancel_right (hj.symm.trans hj')
  rw [h.calls] at hnew hwrite
  exact h.more k.calls hj (fun l hl => (hnew l hl).1)
    fun _ _ => .override l (List.mem_append_left _ hl) hwrite

theorem caused (h : Pass key (Cause key w) w u) (k : SilentOnReads key u v) :
    Pass key (Cause key w) w v :=
  h.silent k fun new _ _ hcause => hcause.later new

theorem expired {policy : Policy η} {g : Nat}
    (h : Pass key (Expired key w.calls.length policy g) w u) (k : SilentOnReads key u v) :
    Pass key (Expired key w.calls.length policy g) w v := by
  refine h.silent k fun new pass hnew hold ht => ?_
  rw [List.findSome?_append, List.findSome?_eq_none_iff.mpr hnew]
  exact hold ht

section

variable {e : Entry ν η} {policy : Policy η} {answer : Option Bool}

theorem asked (h : Pass key P w u) (he : u.cache.find? key = some e) (hp : e.policy = some policy)
    (ha : u.Asks policy answer v) : Pass key (fun _ => True) w v := by
  obtain ⟨new, hj, hnew, -⟩ := ha.answered he hp
  exact h.more ha.calls hj (fun l hl => hnew l hl _) fun _ _ => trivial

theorem confirmed (h : Pass key P w u) (he : u.cache.find? key = some e)
    (hp : e.policy = some policy) (ha : u.Asks policy (some true) v) :
    Pass key (Expired key w.calls.length policy e.generation) w v := by
  obtain ⟨new, hj, hnew, hsays⟩ := ha.answered he hp
  refine h.more ha.calls hj (fun l hl => hnew l hl _) fun pass _ ht => ?_
  obtain ⟨l, rfl, hl⟩ := hsays true rfl ht
  rw [h.calls] at hl
  simp [hl]

/-- Only a predicate takes back that the insertion is expired. -/
theorem turned {e₀ : Entry ν η} (he₀ : w.cache.find? key = some e₀) (hp₀ : e₀.policy = some policy)
    (h : Pass key (Expired key w.calls.length policy e.generation) w u)
    (he : u.cache.find? key = some e) (hp : e.policy = some policy)
    (hdue : policy.isTimed = true → e.due u.now = true) (ha : u.Asks policy (some false) v) :
    Pass key (Cause key w) w v := by
  cases ht : policy.isTimed with
  | true =>
    have hlive := ha.reached ht
    have hreached := hdue ht
    rw [Entry.due_eq_reached hp, hlive] at hreached
    cases hreached
  | false =>
    obtain ⟨new, hj, hnew, hsays⟩ := ha.answered he hp
    refine h.more ha.calls hj (fun l hl => hnew l hl _) fun pass hold => ?_
    obtain ⟨l, rfl, hl⟩ := hsays false rfl ht
    rw [h.calls] at hl
    cases policy with
    | custom predicate =>
      refine .turn e₀ predicate he₀ hp₀ [] pass l rfl ?_
      simp [Line.turns, hl, hold ht]
    | _ => cases ht

theorem retracted {g : Nat} {e₀ : Entry ν η} (he₀ : w.cache.find? key = some e₀)
    (hp₀ : e₀.policy = some policy) (h : Pass key (Expired key w.calls.length policy g) w u)
    (he : u.cache.find? key = some e) (hg : e.generation = g) (hp : e.policy = some policy)
    (hdue : policy.isTimed = true → e.due u.now = true) (hx : u.Examines key g (some false) v) :
    Pass key (Cause key w) w v := by
  subst hg
  have hi : u.cache.insertion? key e.generation = some e := Cache.insertion?_eq_some.mpr ⟨he, rfl⟩
  cases hx with
  | gone hgone =>
    rw [hgone] at hi
    cases hi
  | timeless e' he' hp' =>
    obtain rfl := Option.some.inj (hi.symm.trans he')
    rw [hp] at hp'
    cases hp'
  | asked e' policy' answer v he' hp' ha =>
    obtain rfl := Option.some.inj (hi.symm.trans he')
    obtain rfl := Option.some.inj (hp.symm.trans hp')
    exact h.turned he₀ hp₀ he hp hdue ha

end

end Pass

namespace Act

variable [DecidableEq η] {host : Host ν η μ} {key : Key} {w u : World ν η μ}

omit [DecidableEq η] in
theorem candidate?_asks_of_find? (host : Host ν η μ) {e : Entry ν η} {policy : Policy η}
    (he : u.cache.find? key = some e) (hm : e.pending = false) (hp : e.policy = some policy) :
    (candidate? host key e.generation).Ends u fun r v =>
      u.Asks policy (r.toOption.map (·.isSome)) v ∧ ∀ c, r = .ok (some c) → c = (e, policy) := by
  have hi : u.cache.insertion? key e.generation = some e :=
    Cache.insertion?_eq_some.mpr ⟨he, rfl⟩
  unfold candidate?
  apply ends_cache.mpr
  simp only [hi, hm, hp]
  apply (expired_asks host hp u).bind
  · intro found v ha
    cases found with
    | false =>
      refine ends_pure.mpr ⟨ha, ?_⟩
      intro c hc
      cases hc
    | true =>
      refine ends_pure.mpr ⟨ha, ?_⟩
      intro c hc
      cases hc
      rfl
  · intro error v ha
    refine ⟨ha, ?_⟩
    intro c hc
    cases hc

theorem disposeEvicted_silent_on_reads (host : Host ν η μ) (depth : Nat) (gone : Entry ν η) :
    (disposeEvicted (call host depth) key gone).Follows (SilentOnReads key) := by
  have hi := call_stretches host depth
  intro w
  unfold disposeEvicted
  apply ends_cache.mpr
  refine Ends.bind (P := fun _ v => SilentOnReads key w v) ?_ ?_ fun _ _ h => h
  · exact ends_bracket ((tellExpired_stretches hi gone.generation key gone.value _ _).mono
      fun _ _ hs => .during hs)
  · intro final v hv
    apply ends_note.mpr
    have hnoted := hv.trans (.note (.disposed gone.generation key final) fun l hl depth => by
      simp [Line.restarts, Line.answer?, hl])
    split
    · refine Ends.mono
        (P := fun _ => SilentOnReads key (v.note (.disposed gone.generation key final))) ?_
        fun _ _ h => hnoted.trans h
      unfold release
      apply ends_cache.mpr
      split
      · exact SilentOnReads.still rfl rfl
      · exact ends_bracket ((hi _ _).mono fun _ _ hs => .during hs)
    · exact hnoted

theorem readEnds_silent_on_reads (access : Access) (found : Option ν) :
    (readEnds access key found : Act ν η μ (Option ν)).Follows (SilentOnReads key) := by
  intro w
  unfold readEnds
  split
  · refine ends_change.mpr (ends_note.mpr (ends_pure.mpr ?_))
    have hcounted : SilentOnReads key w
        (w.change (.count fun s => if found.isSome then s.hit else s.miss)) :=
      .still rfl rfl
    exact hcounted.trans (.note _ fun l hl depth => by simp [Line.restarts, Line.answer?, hl])
  · exact SilentOnReads.still rfl rfl

/-- What is marked while handlers decide is there in the end, if nobody writes under the key. -/
theorem askExpiring_keeps_marked (host : Host ν η μ) (depth : Nat) {e : Entry ν η} {policy : Policy η}
    (he : u.cache.find? key = some e) (hp : e.policy = some policy)
    (hdue : policy.isTimed = true → e.due u.now = true) :
    (deciding key e.generation (askExpiring (call host depth) e.generation key e.value policy)).Ends u
      fun _ v => SilentOnReads key u v ∧ (Overridden key u v ∨ ∃ e', v.cache.find? key = some e' ∧
        e'.generation = e.generation ∧ e'.policy = some policy ∧
        (policy.isTimed = true → e'.due v.now = true)) := by
  have hfollows := askExpiring_follows (KeepsMarked.paths key)
    (fun c _ => call_keeps_marked key host depth c) e.generation key e.value policy
  refine ends_bracket ((hfollows _).mono fun _ v hkeeps => ?_)
  have hsilent : SilentOnReads key u ((v.change (.mark false key e.generation)).pop) :=
    .inside hkeeps.stretch rfl rfl rfl rfl
  refine ⟨hsilent, ?_⟩
  obtain ⟨seg, hj, hseg⟩ := hkeeps.lines
  have hmarked : ((u.change (.mark true key e.generation)).push
      (.deciding key e.generation)).cache.find? key = some { e with pending := true } := by
    rw [World.cache_push, World.cache_change, Cache.find?_mark, if_pos rfl, he, Option.map_some,
      if_pos rfl]
  have hfirm : ({ e with pending := true } : Entry ν η).Firm u.now := by
    cases ht : policy.isTimed with
    | true => exact .inl (hdue ht)
    | false =>
      refine .inr fun t => ?_
      rw [hp]
      cases policy with
      | custom => rfl
      | _ => cases ht
  rcases hseg _ hmarked rfl with ⟨l, hl, hw⟩ | ⟨e', he', hg', -, hp'⟩
  · refine .inl ⟨seg, hj, l, hl, ?_⟩
    obtain ⟨seg', hj', hin⟩ := hkeeps.stretch.segment
    obtain rfl : seg = seg' := List.append_cancel_right (hj.symm.trans hj')
    have hlen := (hin l hl).length_le
    unfold Line.overrides
    rw [hw, Bool.and_true, decide_eq_true_iff]
    exact hlen
  · refine .inr ⟨{ e' with pending := false }, ?_, hg', (hp' hfirm).trans hp, fun ht => ?_⟩
    · rw [World.cache_pop, World.cache_change, Cache.find?_mark, if_pos rfl, he', Option.map_some,
        if_pos hg']
    · have hlater := Entry.due_mono hkeeps.now (hdue ht)
      unfold Entry.due Entry.deadline? at hlater ⊢
      rw [hp' hfirm]
      exact hlater

/-- An eviction that nobody vetoed, and what follows it. -/
theorem commit_passes (host : Host ν η μ) (depth : Nat) {g : Nat} {P : List (Line ν η) → Prop}
    (hu : Pass key P w u)
    (hstale : ∀ v, u.Examines key g (some false) v → Pass key (Cause key w) w v) :
    (commit host key g >>= fun
      | none => pure .stale
      | some gone => do
        disposeEvicted (call host depth) key gone
        return .evicted : Act ν η μ (Fate ν)).Ends u fun r v =>
      Pass key (fun _ => True) w v ∧ (r = .ok .stale → Pass key (Cause key w) w v) := by
  apply (commit_commits host key g u).bind
  · rintro found v ⟨hc, -⟩
    cases found with
    | none =>
      cases hc with
      | stale hx => exact ⟨hu.examined hx fun _ _ _ => trivial, fun _ => hstale v hx⟩
    | some gone =>
      have hleft : Pass key (fun _ => True) w v := by
        cases hc with
        | @evicted v e he hx =>
          have htaken : SilentOnReads key v (v.change (.takeOut key .expiration)) := .still rfl rfl
          have hend := hu.examined hx (Q := fun _ => True) fun _ _ _ => trivial
          exact hend.onward (htaken.trans (.note _ fun l hl depth => by
            simp [Line.restarts, Line.answer?, hl]))
      refine (disposeEvicted_silent_on_reads host depth gone v).bind ?_ ?_
      · exact fun _ v' hsilent => ends_pure.mpr ⟨hleft.onward hsilent, nofun⟩
      · exact fun _ v' hsilent => ⟨hleft.onward hsilent, nofun⟩
  · rintro error v ⟨hc, -⟩
    cases hc with
    | unwound hx => exact ⟨hu.examined hx fun _ _ _ => trivial, nofun⟩

/-- An attempt to evict what the read has just found expired and not marked does not fail without a
cause. -/
theorem expire_passes (host : Host ν η μ) (depth : Nat) {e₀ e : Entry ν η} {policy : Policy η}
    (he₀ : w.cache.find? key = some e₀) (hp₀ : e₀.policy = some policy)
    (hw : Pass key (Expired key w.calls.length policy e.generation) w u)
    (he : u.cache.find? key = some e) (hm : e.pending = false) (hp : e.policy = some policy)
    (hdue : policy.isTimed = true → e.due u.now = true) :
    (expire host (call host depth) key e.generation).Ends u fun r v =>
      Pass key (fun _ => True) w v ∧ (r = .ok .stale → Pass key (Cause key w) w v) := by
  unfold expire
  refine (candidate?_asks_of_find? host he hm hp).bind ?_ ?_
  · rintro found w1 ⟨ha, hfound⟩
    match found, hfound with
    | none, _ => exact ⟨hw.asked he hp ha, fun _ => hw.turned he₀ hp₀ he hp hdue ha⟩
    | some c, hfound =>
      obtain rfl := hfound c rfl
      have h1 := hw.confirmed he hp ha
      have he1 : w1.cache.find? key = some e := by rw [ha.cache, he]
      have hdue1 : policy.isTimed = true → e.due w1.now = true := by
        rw [ha.now]
        exact hdue
      refine (askExpiring_keeps_marked host depth he1 hp hdue1).bind ?_ ?_
      · rintro answers w2 ⟨hsilent, hleft⟩
        apply ends_note.mpr
        have hdecided : SilentOnReads key w2 (w2.note (.decided e.generation key e.value answers)) :=
          .note _ fun l hl depth => by simp [Line.restarts, Line.answer?, hl]
        have h2 := h1.onward (hsilent.trans hdecided)
        split
        · exact ends_change.mpr (ends_pure.mpr ⟨h2.onward (.still rfl rfl), nofun⟩)
        · refine commit_passes host depth h2 fun v hx => ?_
          rcases hleft with ho | ⟨e', he', hg', hp', hdue'⟩
          · exact ((h1.overridden hsilent ho).caused hdecided).examined hx fun new _ h => h.later new
          · exact (h1.expired (hsilent.trans hdecided)).retracted he₀ hp₀ he' hg' hp' hdue' hx
      · rintro error w2 ⟨hsilent, -⟩
        exact ⟨h1.onward hsilent, nofun⟩
  · rintro error w1 ⟨ha, -⟩
    exact ⟨hw.asked he hp ha, nofun⟩

theorem expired_passes (host : Host ν η μ) {e : Entry ν η} (he : w.cache.find? key = some e) :
    (expired host e).Ends w fun r v => Pass key (fun _ => True) w v ∧
      (r = .ok true → ∃ policy, e.policy = some policy ∧ w.Asks policy (some true) v) := by
  cases hp : e.policy with
  | none =>
    apply (expired_timeless host hp w).mono
    rintro r v ⟨rfl, rfl⟩
    exact ⟨(Pass.start v).onward (.still rfl rfl), nofun⟩
  | some policy =>
    apply (expired_asks host hp w).mono
    intro r v ha
    refine ⟨(Pass.start w).asked he hp ha, ?_⟩
    rintro rfl
    exact ⟨policy, rfl, ha⟩

/-- A read leads through its passes, however it ends. -/
theorem lookup_rereads (host : Host ν η μ) (depth : Nat) (access : Access) (key : Key)
    (retries : Nat) : ∀ w, (lookup host (call host depth) access key retries).Ends w
      fun _ v => ∃ n, Rereads key w n v := by
  induction retries with
  | zero => exact fun w => ⟨0, .last ((Pass.start w).onward (.still rfl rfl))⟩
  | succ retries ih =>
    intro w
    have ends : ∀ {u : World ν η μ} {P : List (Line ν η) → Prop} {found : Option ν},
        Pass key P w u → (readEnds access key found).Ends u fun _ v => ∃ n, Rereads key w n v :=
      fun hu => (readEnds_silent_on_reads access _ _).mono fun _ _ hsilent =>
        ⟨0, .last (hu.onward hsilent)⟩
    unfold lookup
    apply ends_cache.mpr
    cases hf : w.cache.find? key with
    | none => exact ends (.start w)
    | some e =>
      refine (expired_passes host hf).bind ?_ fun error u hu => ⟨0, .last hu.1⟩
      rintro found u ⟨hu, hfound⟩
      cases found with
      | false =>
        rw [if_pos (show (!false) = true from rfl)]
        dsimp only
        split
        · exact ends_now.mpr (ends_change.mpr (ends (hu.onward (.still rfl rfl))))
        · exact ends hu
      | true =>
        rw [if_neg (show ¬(!true) = true by decide)]
        cases hm : e.pending with
        | true =>
          rw [if_pos rfl]
          exact ends hu
        | false =>
          rw [if_neg Bool.false_ne_true]
          obtain ⟨policy, hp, ha⟩ := hfound rfl
          have hf' : u.cache.find? key = some e := by rw [ha.cache, hf]
          have hdue : policy.isTimed = true → e.due u.now = true := by
            intro ht
            rw [Entry.due_eq_reached hp, ha.now]
            exact ha.reached ht
          refine (expire_passes host depth hf hp ((Pass.start w).confirmed hf hp ha) hf' hm hp
            hdue).bind ?_ fun error v hv => ⟨0, .last hv.1⟩
          rintro fate v ⟨hv, hcause⟩
          cases fate with
          | evicted => exact ends hv
          | cancelled value => exact ends hv
          | stale =>
            apply ends_note.mpr
            apply (ih (v.note (.retried key))).mono
            rintro r v' ⟨n, hn⟩
            exact ⟨n + 1, .again (hcause rfl) hn⟩

end Act

/-- Whatever the callbacks do, and in whatever world a read begins: every pass that ends with the read
starting over has a cause among its own lines. Either a callback begun in it inserts under the key, or
removes or clears away what is there, or else the predicate of what is stored under the key denies what
it affirmed before. So a read starts over at most as often as that happens, and if what it finds has no
predicate and no callback writes under the key then the first pass is the last. -/
theorem reads_start_over_for_a_cause [DecidableEq η] (host : Host ν η μ) (depth : Nat)
    (access : Access) (key : Key) (retries : Nat) (w : World ν η μ) :
    (Act.lookup host (Act.call host depth) access key retries).Ends w fun _ v =>
      ∃ n seg, Rereads key w n v ∧ v.journal = seg ++ w.journal ∧
        seg.countP (·.restarts key w.calls.length) = n ∧ n ≤ causes key w.calls.length seg ∧
        ((∀ e policy, w.cache.find? key = some e → e.policy = some policy → policy.isTimed = true) →
          (∀ l ∈ seg, l.overrides key w.calls.length = false) → n = 0) := by
  apply (Act.lookup_rereads host depth access key retries w).mono
  rintro r v ⟨n, h⟩
  obtain ⟨-, seg, hj, hcount, hle⟩ := h.counted
  exact ⟨n, seg, h, hj, hcount, hle, fun ht hw => h.once ht hj hw⟩

/-- Its handlers renew what they are asked about. -/
def Host.renewing : Host Nat String Unit where
  accepts _ := true
  consult _ _ memory := (.ok true, memory)
  respond
    | .expiring _ key _ _ => .perform (.insert key 2 ⟨none, true⟩) fun _ => .done .proceed
    | .expired _ _ _ running => .done running
    | .release .. => .done ()
    | .factory .. => .done (.ok 3)
    | .defaultPolicy .. => .done none

/-- An entry that is expired at once is stored, and there is a handler. -/
def World.lapsed : World Nat String Unit :=
  (Act.turn .renewing 6 (.perform (.onExpiring "ask") fun _ =>
    .perform (.insert "k" 1 ⟨some (.duration .zero none), false⟩) fun _ => .done ())).after
      (.fresh .keeping .task .zero ())

/-- The handler replaces what the read has found, and the read goes back for the new value. -/
theorem renewed_entry_is_read_again :
    (Act.lookup .renewing (Act.call .renewing 4) .full "k" 4).answer? World.lapsed = some (some 2) ∧
    ∃ v seg, Rereads "k" World.lapsed 1 v ∧ v.journal = seg ++ World.lapsed.journal ∧
      1 ≤ causes "k" World.lapsed.calls.length seg := by
  obtain ⟨n, seg, h, hj, hcount, hle, -⟩ :=
    (reads_start_over_for_a_cause .renewing 4 .full "k" 4 World.lapsed).after
  have hall : ((Act.lookup .renewing (Act.call .renewing 4) .full "k" 4).after
      World.lapsed).journal.countP (·.restarts "k" World.lapsed.calls.length) = 1 := by
    decide +kernel
  have hold : World.lapsed.journal.countP (·.restarts "k" World.lapsed.calls.length) = 0 := by
    decide +kernel
  rw [hj, List.countP_append, hcount, hold] at hall
  obtain rfl : n = 1 := hall
  exact ⟨by decide +kernel, _, seg, h, hj, hle⟩

end ExpiringCache
