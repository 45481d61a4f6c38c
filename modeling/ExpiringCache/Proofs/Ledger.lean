import ExpiringCache.Proofs.Journal

/-!
# The ledger of a stretch of work

A stretch of work is a segment of the journal. It opens with an account of what earlier work left
behind, values that were taken out and are still to be handed over and evictions that handlers have
not all been told of, and it closes with such an account. Values are handed over for what was due
and for what the segment claims, and for nothing else; and if no callback panicked and the work was
not cut short, for all that the segment owes. The segment's lines are written inside the work that
wrote them, and its replies at `level` or deeper, where the outermost callbacks reply at level one.
-/

namespace ExpiringCache

variable {ν η : Type}

theorem count_one (g h : Nat) : [g].count h = (g == h).toNat := by
  rw [List.count_singleton]
  cases g == h <;> rfl

structure Account where
  due : List Nat
  untold : List Nat

namespace Account

def clear : Account := ⟨[], []⟩

/-- The account with more values due. -/
def owing (gs : List Nat) (a : Account) : Account := { a with due := gs ++ a.due }

@[simp] theorem due_owing (gs : List Nat) (a : Account) : (a.owing gs).due = gs ++ a.due := rfl

@[simp] theorem untold_owing (gs : List Nat) (a : Account) : (a.owing gs).untold = a.untold := rfl

@[simp] theorem due_clear : clear.due = [] := rfl

@[simp] theorem untold_clear : clear.untold = [] := rfl

@[simp] theorem owing_nil (a : Account) : a.owing [] = a := rfl

theorem owing_append (gs hs : List Nat) (a : Account) :
    a.owing (gs ++ hs) = (a.owing hs).owing gs := by
  simp only [owing, List.append_assoc]

end Account

structure Ledger (calls : List (Activity ν η)) (level : Nat) (s : Settings η) (a b : Account)
    (whole : Prop) (seg : List (Line ν η)) : Prop where
  inside : ∀ l ∈ seg, calls <:+ l.calls
  level : ∀ l ∈ seg, ∀ depth, depth + 1 < level → l.reply? depth = none
  covered : ∀ g,
    seg.countP (·.handsOver g) + b.due.count g ≤ seg.countP (·.claims g) + a.due.count g
  settled : whole → (∀ l ∈ seg, l.unwinds = false) → ∀ g,
    seg.countP (·.handsOver g) + b.due.count g = seg.countP (·.owes s g) + a.due.count g
  told : ∀ g,
    seg.countP (·.disposes g) + b.untold.count g ≤ seg.countP (·.expires g) + a.untold.count g
  toldAll : whole → (∀ l ∈ seg, l.unwinds = false) → ∀ g,
    seg.countP (·.disposes g) + b.untold.count g = seg.countP (·.expires g) + a.untold.count g

namespace Ledger

variable {calls : List (Activity ν η)} {level : Nat} {s : Settings η} {a b c : Account}
  {whole : Prop} {seg old new : List (Line ν η)}

theorem nil : Ledger calls level s a a whole ([] : List (Line ν η)) where
  inside l hl := by cases hl
  level l hl := by cases hl
  covered g := Nat.le_refl _
  settled _ _ g := rfl
  told g := Nat.le_refl _
  toldAll _ _ g := rfl

theorem append (h : Ledger calls level s a b True old) (k : Ledger calls level s b c whole new) :
    Ledger calls level s a c whole (new ++ old) where
  inside l hl := (List.mem_append.mp hl).elim (k.inside l) (h.inside l)
  level l hl := (List.mem_append.mp hl).elim (k.level l) (h.level l)
  covered g := by
    have h1 := h.covered g
    have h2 := k.covered g
    simp only [List.countP_append]
    omega
  settled hw hu g := by
    have h1 := h.settled trivial (fun l hl => hu l (List.mem_append_right new hl)) g
    have h2 := k.settled hw (fun l hl => hu l (List.mem_append_left old hl)) g
    simp only [List.countP_append]
    omega
  told g := by
    have h1 := h.told g
    have h2 := k.told g
    simp only [List.countP_append]
    omega
  toldAll hw hu g := by
    have h1 := h.toldAll trivial (fun l hl => hu l (List.mem_append_right new hl)) g
    have h2 := k.toldAll hw (fun l hl => hu l (List.mem_append_left old hl)) g
    simp only [List.countP_append]
    omega

theorem single {l : Line ν η} (hin : l.calls = calls)
    (hlevel : ∀ depth, depth + 1 < level → l.reply? depth = none)
    (hcovered : ∀ g, (l.handsOver g).toNat + b.due.count g ≤ (l.claims g).toNat + a.due.count g)
    (hsettled : l.unwinds = false → ∀ g,
      (l.handsOver g).toNat + b.due.count g = (l.owes s g).toNat + a.due.count g)
    (htold : ∀ g,
      (l.disposes g).toNat + b.untold.count g ≤ (l.expires g).toNat + a.untold.count g)
    (htoldAll : l.unwinds = false → ∀ g,
      (l.disposes g).toNat + b.untold.count g = (l.expires g).toNat + a.untold.count g) :
    Ledger calls level s a b whole [l] := by
  have count : ∀ p : Line ν η → Bool, [l].countP p = (p l).toNat := by
    intro p
    cases hp : p l <;> simp [hp]
  refine ⟨?_, ?_, ?_, ?_, ?_, ?_⟩
  · intro m hm
    have hcalls : m.calls = calls := by
      rw [List.mem_singleton.mp hm]
      exact hin
    exact ⟨[], hcalls.symm⟩
  · intro m hm
    rw [List.mem_singleton.mp hm]
    exact hlevel
  · intro g
    rw [count, count]
    exact hcovered g
  · intro _ hu g
    rw [count, count]
    exact hsettled (hu l (List.mem_singleton_self l)) g
  · intro g
    rw [count, count]
    exact htold g
  · intro _ hu g
    rw [count, count]
    exact htoldAll (hu l (List.mem_singleton_self l)) g

theorem outer {inner : List (Activity ν η)} (hc : calls <:+ inner)
    (h : Ledger inner level s a b whole seg) : Ledger calls level s a b whole seg :=
  { h with inside := fun l hm => hc.trans (h.inside l hm) }

theorem imp {part : Prop} (hp : part → whole) (h : Ledger calls level s a b whole seg) :
    Ledger calls level s a b part seg :=
  { h with
    settled := fun hw => h.settled (hp hw)
    toldAll := fun hw => h.toldAll (hp hw) }

theorem lower {low : Nat} (hl : low ≤ level) (h : Ledger calls level s a b whole seg) :
    Ledger calls low s a b whole seg :=
  { h with level := fun l hm d hd => h.level l hm d (Nat.lt_of_lt_of_le hd hl) }

theorem reorder {b' : Account} (hd : b.due.Perm b'.due) (hu : b.untold = b'.untold)
    (h : Ledger calls level s a b whole seg) : Ledger calls level s a b' whole seg where
  inside := h.inside
  level := h.level
  covered g := by
    rw [← hd.count_eq]
    exact h.covered g
  settled hw hn g := by
    rw [← hd.count_eq]
    exact h.settled hw hn g
  told g := by
    rw [← hu]
    exact h.told g
  toldAll hw hn g := by
    rw [← hu]
    exact h.toldAll hw hn g

/-- Work that leaves nothing behind leaves alone what was there. -/
theorem frame (c : Account) (h : Ledger calls level s .clear .clear whole seg) :
    Ledger calls level s c c whole seg where
  inside := h.inside
  level := h.level
  covered g := Nat.add_le_add_right (h.covered g) _
  settled hw hu g := congrArg (· + c.due.count g) (h.settled hw hu g)
  told g := Nat.add_le_add_right (h.told g) _
  toldAll hw hu g := congrArg (· + c.untold.count g) (h.toldAll hw hu g)

/-- Work that is not completed may forget what it should leave behind. -/
theorem forget (hu : whole → ∃ l ∈ seg, l.unwinds = true)
    (h : Ledger calls level s a b whole seg) : Ledger calls level s a .clear whole seg := by
  have absurd' : whole → (∀ l ∈ seg, l.unwinds = false) → False := by
    intro hw hn
    obtain ⟨l, hl, hlu⟩ := hu hw
    rw [hn l hl] at hlu
    cases hlu
  refine ⟨h.inside, h.level, ?_, fun hw hn => (absurd' hw hn).elim, ?_,
    fun hw hn => (absurd' hw hn).elim⟩
  · intro g
    have h1 := h.covered g
    simp only [Account.due_clear, List.count_nil]
    omega
  · intro g
    have h1 := h.told g
    simp only [Account.untold_clear, List.count_nil]
    omega

theorem replies_eq_nil {depth : Nat} (h : Ledger calls level s a b whole seg)
    (hd : depth + 1 < level) : replies depth seg = [] :=
  ExpiringCache.replies_eq_nil fun l hl => h.level l hl depth hd

end Ledger

/-- The values that are due when these insertions leave other than by expiry. -/
def Settings.owed (s : Settings η) (gs : List Nat) : List Nat :=
  if s.dispose && s.release.isSome then gs else []

@[simp] theorem Settings.owed_nil (s : Settings η) : s.owed [] = [] := by
  unfold Settings.owed
  split <;> rfl

theorem Settings.owed_append (s : Settings η) (gs hs : List Nat) :
    s.owed (gs ++ hs) = s.owed gs ++ s.owed hs := by
  unfold Settings.owed
  split <;> rfl

namespace Record

/-- The record says nothing about where values are, and ends no callback. -/
def isPlain : Record ν η → Bool
  | .entered (.release ..) => false
  | .returned .. => false
  | .left .. => false
  | .disposed .. => false
  | _ => true

end Record

/-- An insertion that leaves other than by expiry may leave its value to be handed over. -/
theorem Ledger.departure {calls : List (Activity ν η)} {level : Nat} {s : Settings η} {a : Account}
    {whole : Prop} {l : Line ν η} {g : Nat} {key : Key} {value : ν} {exit : Exit}
    (hin : l.calls = calls) (hr : l.record = .left g key value exit) (hx : exit ≠ .expired) :
    Ledger calls level s a (a.owing (s.owed [g])) whole [l] := by
  obtain ⟨record, now, calls, cache⟩ := l
  subst hr
  have hw : ∀ h, Line.withdraws h ⟨.left g key value exit, now, calls, cache⟩ = (g == h) := by
    intro h
    cases exit <;> first | rfl | exact absurd rfl hx
  have he : ∀ h, Line.expires h ⟨.left g key value exit, now, calls, cache⟩ = false := by
    intro h
    cases exit <;> first | rfl | exact absurd rfl hx
  have hcount : ∀ h, (a.owing (s.owed [g])).due.count h =
      (s.release.isSome && (s.dispose && g == h)).toNat + a.due.count h := by
    intro h
    rw [Account.due_owing, List.count_append]
    unfold Settings.owed
    cases s.dispose <;> cases s.release.isSome <;> simp [count_one]
  refine .single hin (fun _ _ => rfl) ?_ ?_ ?_ ?_
  · intro h
    rw [hcount]
    simp only [Line.handsOver, Line.claims, hw, Line.disposes]
    cases s.dispose <;> cases s.release.isSome <;> simp
  · intro _ h
    rw [hcount]
    simp only [Line.handsOver, Line.owes, hw, Line.condemns]
    cases s.dispose <;> cases s.release.isSome <;> simp
  · intro h
    simp [Line.disposes, he]
  · intro _ h
    simp [Line.disposes, he]

/-- An insertion that leaves by expiry leaves its handlers to be told. -/
theorem Ledger.evicted {calls : List (Activity ν η)} {level : Nat} {s : Settings η} {whole : Prop}
    {l : Line ν η} {g : Nat} {key : Key} {value : ν} (hin : l.calls = calls)
    (hr : l.record = .left g key value .expired) :
    Ledger calls level s .clear ⟨[], [g]⟩ whole [l] := by
  obtain ⟨record, now, calls, cache⟩ := l
  subst hr
  refine .single hin (fun _ _ => rfl) ?_ ?_ ?_ ?_
  · intro h
    simp [Line.handsOver]
  · intro _ h
    simp [Line.handsOver, Line.owes, Line.withdraws, Line.condemns]
  · intro h
    simp [Line.disposes, Line.expires, count_one]
  · intro _ h
    simp [Line.disposes, Line.expires, count_one]

/-- Once the handlers are told, the value is due if they condemned it and there is someone to take
it. -/
theorem Ledger.disposed {calls : List (Activity ν η)} {level : Nat} {s : Settings η} {whole : Prop}
    {l : Line ν η} {g : Nat} {key : Key} {final : Disposal} (hin : l.calls = calls)
    (hr : l.record = .disposed g key final) :
    Ledger calls level s ⟨[], [g]⟩
      ⟨if final = .dispose then if s.release.isSome then [g] else [] else [], []⟩ whole [l] := by
  obtain ⟨record, now, calls, cache⟩ := l
  subst hr
  refine .single hin (fun _ _ => rfl) ?_ ?_ ?_ ?_
  · intro h
    cases final <;> cases hrel : s.release <;>
      simp [Line.handsOver, Line.claims, Line.withdraws, Line.disposes, count_one]
  · intro _ h
    cases final <;> cases hrel : s.release <;>
      simp [Line.handsOver, Line.owes, Line.withdraws, Line.condemns, count_one, hrel]
  · intro h
    simp [Line.disposes, Line.expires, count_one]
  · intro _ h
    simp [Line.disposes, Line.expires, count_one]

theorem Ledger.plain {calls : List (Activity ν η)} {level : Nat} {s : Settings η} {a : Account}
    {whole : Prop} {l : Line ν η} (hin : l.calls = calls) (h : l.record.isPlain = true) :
    Ledger calls level s a a whole [l] := by
  subst hin
  obtain ⟨record, now, calls, cache⟩ := l
  have hquiet : ∀ g, Line.handsOver g ⟨record, now, calls, cache⟩ = false ∧
      Line.withdraws g ⟨record, now, calls, cache⟩ = false ∧
      Line.disposes g ⟨record, now, calls, cache⟩ = false ∧
      Line.condemns g ⟨record, now, calls, cache⟩ = false ∧
      Line.expires g ⟨record, now, calls, cache⟩ = false ∧
      ∀ depth, Line.reply? depth ⟨record, now, calls, cache⟩ = none := by
    intro g
    cases record with
    | entered c =>
      cases c with
      | release => cases h
      | _ => exact ⟨rfl, rfl, rfl, rfl, rfl, fun _ => rfl⟩
    | returned => cases h
    | left => cases h
    | disposed => cases h
    | _ => exact ⟨rfl, rfl, rfl, rfl, rfl, fun _ => rfl⟩
  refine Ledger.single rfl ?_ ?_ ?_ ?_ ?_
  · intro d _
    exact (hquiet 0).2.2.2.2.2 d
  · intro g
    obtain ⟨h1, h2, h3, h4, h5, -⟩ := hquiet g
    simp [h1, h2, h3, Line.claims]
  · intro _ g
    obtain ⟨h1, h2, h3, h4, h5, -⟩ := hquiet g
    simp [h1, h2, h4, Line.owes]
  · intro g
    obtain ⟨h1, h2, h3, h4, h5, -⟩ := hquiet g
    simp [h3, h5]
  · intro _ g
    obtain ⟨h1, h2, h3, h4, h5, -⟩ := hquiet g
    simp [h3, h5]

end ExpiringCache
