import ExpiringCache.Proofs.Inheritance
import ExpiringCache.Proofs.Lifetimes

/-!
# What a tick leaves behind

An insertion is overdue if it was there and expired before the clock came to where it is now. While
the clock stands still no move makes one overdue: an entry that comes in has just been created, and
an access moves a deadline to no earlier than now. A tick lists all that are overdue, and if nobody
vetoes and its clock stands still it leaves none: what it tries to evict it evicts, or else finds
gone or renewed. A tick that panics leaves a line in the journal that says which function did.
-/

namespace ExpiringCache

variable {ν η μ α β : Type}

theorem Policy.deadline?_accessed {p : Policy η} {now d : Instant}
    (h : (p.accessed now).deadline? = some d) : p.deadline? = some d ∨ now ≤ d := by
  cases p with
  | sliding window old =>
    have hd : d.nanos = now.nanos + window.nanos := Instant.plus?_eq_some_iff.mp h
    refine Or.inr ?_
    rw [Instant.le_def]
    omega
  | _ => exact Or.inl h

theorem Entry.Continues.deadline? {now d : Instant} {e e' : Entry ν η} (h : e.Continues now e')
    (hd : e'.deadline? = some d) : e.deadline? = some d ∨ now ≤ d := by
  unfold Entry.deadline? at *
  rcases h.policy with hp | hp
  · rw [hp] at hd
    exact Or.inl hd
  · rw [hp] at hd
    cases hq : e.policy with
    | none =>
      rw [hq] at hd
      cases hd
    | some policy =>
      rw [hq] at hd
      exact Policy.deadline?_accessed hd

/-- The insertion `g` of `key` is stored, and was stored and expired already before now. -/
def Overdue (key : Key) (g : Nat) (w : World ν η μ) : Prop :=
  ∃ e d, w.cache.insertion? key g = some e ∧ e.deadline? = some d ∧ d < w.now ∧ e.createdAt < w.now

theorem Overdue.due {key : Key} {g : Nat} {w : World ν η μ} (h : Overdue key g w) :
    ∃ e, w.cache.insertion? key g = some e ∧ e.due w.now = true := by
  obtain ⟨e, d, he, hd, hlt, -⟩ := h
  have hle : d ≤ w.now := Int.le_of_lt hlt
  exact ⟨e, he, Policy.reached_iff.mpr ⟨d, hd, hle⟩⟩

theorem Move.overdue {level : Nat} {w w' : World ν η μ} (h : Move level w w') (hn : w'.now = w.now)
    {key : Key} {g : Nat} (ho : Overdue key g w') : Overdue key g w := by
  obtain ⟨e', d, he', hd, hlt, hcreated⟩ := ho
  obtain ⟨hf, hg⟩ := Cache.insertion?_eq_some.mp he'
  rw [hn] at hlt hcreated
  rcases h.stored hf with ⟨value, policy, rfl⟩ | ⟨e, he, hc⟩
  · exact absurd hcreated (Int.lt_irrefl _)
  · have hins : w.cache.insertion? key g = some e :=
      Cache.insertion?_eq_some.mpr ⟨he, hc.generation ▸ hg⟩
    rcases hc.deadline? hd with hd | hle
    · exact ⟨e, d, hins, hd, hlt, hc.createdAt ▸ hcreated⟩
    · exact absurd hlt (Int.not_lt.mpr hle)

/-- Where the clock stands still in the end it has stood still all along. -/
theorem Moves.still {level : Nat} {w v w' : World ν η μ} (h : Moves level w v)
    (k : Moves level v w') (hn : w'.now = w.now) : v.now = w.now ∧ w'.now = v.now := by
  have h1 : w.now.nanos ≤ v.now.nanos := h.now_le
  have h2 : v.now.nanos ≤ w'.now.nanos := k.now_le
  have h3 : w'.now.nanos = w.now.nanos := congrArg Instant.nanos hn
  exact ⟨Instant.ext_nanos (by omega), Instant.ext_nanos (by omega)⟩

theorem Moves.overdue {level : Nat} {w w' : World ν η μ} (h : Moves level w w')
    (hn : w'.now = w.now) {key : Key} {g : Nat} (ho : Overdue key g w') : Overdue key g w := by
  induction h with
  | refl => exact ho
  | tail hv hm ih =>
    obtain ⟨h1, h2⟩ := Moves.still hv (.single hm) hn
    exact ih h1 (hm.overdue h2 ho)

namespace Line

/-- Some handler vetoed. -/
def vetoes (l : Line ν η) : Bool :=
  match l.record with
  | .decided _ _ _ answers => answers.contains .cancel
  | _ => false

/-- A callback or a predicate panicked. -/
def panics (l : Line ν η) : Bool :=
  match l.record with
  | .unwound _ => true
  | .consulted _ none => true
  | _ => false

end Line

namespace Act

variable {host : Host ν η μ} {invoke : Invoke ν η μ} {w w' : World ν η μ}

/-! ## Candidates -/

/-- What a filter keeps while its test leaves the cache and the clock alone. -/
theorem Goes.filterM {level : Nat} {p : α → Act ν η μ Bool} (keep : α → Prop) (xs : List α)
    (hp : ∀ x v, v.cache = w.cache → v.now = w.now → (p x).Goes level .clear v (fun _ => .clear)
      fun b v' _ => v'.cache = v.cache ∧ v'.now = v.now ∧ (keep x → b = true)) :
    (xs.filterM p).Goes level .clear w (fun _ => .clear) fun ys w' _ =>
      w'.cache = w.cache ∧ w'.now = w.now ∧ ∀ x ∈ xs, keep x → x ∈ ys := by
  have loop : ∀ acc v, v.cache = w.cache → v.now = w.now →
      (xs.filterAuxM p acc).Goes level .clear v (fun _ => .clear) fun ys w' _ =>
        w'.cache = w.cache ∧ w'.now = w.now ∧ (∀ x ∈ acc, x ∈ ys) ∧ ∀ x ∈ xs, keep x → x ∈ ys := by
    induction xs with
    | nil =>
      intro acc v hc hn
      refine .pure rfl ⟨hc, hn, fun _ h => h, ?_⟩
      intro x hx
      cases hx
    | cons x xs ih =>
      intro acc v hc hn
      refine Goes.bind (hp x v hc hn) ?_
      rintro b v1 seg hr ⟨hc1, hn1, hkeep⟩
      refine (ih _ v1 (hc1.trans hc) (hn1.trans hn)).imp ?_
      rintro ys v2 seg2 _ ⟨hc2, hn2, hacc, hxs⟩
      refine ⟨hc2, hn2, ?_, ?_⟩
      · intro y hy
        refine hacc y ?_
        cases b
        · exact hy
        · exact List.mem_cons_of_mem _ hy
      · intro y hy hk
        rcases List.mem_cons.mp hy with rfl | hy
        · refine hacc y ?_
          rw [hkeep hk]
          exact List.mem_cons_self ..
        · exact hxs y hy hk
  refine Goes.bind (loop [] w rfl rfl) ?_
  rintro ys v seg hr ⟨hc, hn, -, hxs⟩
  exact .pure rfl ⟨hc, hn, fun x hx hk => List.mem_reverse.mpr (hxs x hx hk)⟩

/-- A sweep lists every expired entry that nobody decides about. -/
theorem candidates_goes (host : Host ν η μ) (w : World ν η μ) (level : Nat) :
    (candidates host).Goes level .clear w (fun _ => .clear) fun cs w' _ =>
      w'.cache = w.cache ∧ w'.now = w.now ∧ ∀ key e, w.cache.find? key = some e →
        e.pending = false → e.due w.now = true → (key, e.generation) ∈ cs := by
  unfold candidates
  refine Goes.cache (Goes.bind (Goes.filterM (fun r : Key × Entry ν η =>
    r.2.pending = false ∧ r.2.due w.now = true) _ ?_) ?_)
  · intro r v hc hn
    split
    · rename_i hp
      refine .pure rfl ⟨rfl, rfl, ?_⟩
      rintro ⟨hno, -⟩
      rw [hno] at hp
      cases hp
    · refine (expired_goes host v level r.2).imp ?_
      rintro found v' seg _ ⟨hc', hn', -, hlate⟩
      refine ⟨hc', hn', ?_⟩
      rintro ⟨-, hdue⟩
      cases found with
      | true => rfl
      | false =>
        have hearly := hlate rfl
        rw [hn, hdue] at hearly
        cases hearly
  · rintro rows v seg hr ⟨hc, hn, hrows⟩
    refine .pure rfl ⟨hc, hn, ?_⟩
    intro key e he hp hdue
    have hm := hrows (key, e) (Table.get?_eq_some_iff.mp he) ⟨hp, hdue⟩
    exact List.mem_map.mpr ⟨(key, e), hm, rfl⟩

/-! ## Evictions -/

theorem Settles.cleared {key : Key} {g : Nat} {seg : List (Line ν η)} {fate : Fate ν}
    (h : Settles key g w' seg fate) (hrec : Recorded w') (hc : w'.calls = [])
    (hj : ∀ l ∈ seg, l ∈ w'.journal) (hveto : ∀ l ∈ seg, l.vetoes = false) :
    ¬Overdue key g w' := by
  intro ho
  obtain ⟨e, he, hdue⟩ := ho.due
  obtain ⟨hf, hg⟩ := Cache.insertion?_eq_some.mp he
  cases fate with
  | evicted =>
    obtain ⟨l, hl, hx⟩ := h
    have hstay := hrec.lives.staying key e hf l (hj l hl)
    have hleft : l.leaves g = true := by
      unfold Line.expires at hx
      unfold Line.leaves
      split at hx
      · rename_i hr
        rw [hr]
        exact hx
      · cases hx
    rw [hg, hleft] at hstay
    cases hstay
  | cancelled value =>
    obtain ⟨d, mid, start, earlier, answers, policy, rfl, hd, hcancel, -⟩ := h
    have hno := hveto d (List.mem_cons_self ..)
    simp only [Line.vetoes, hd, List.contains_iff_mem.mpr hcancel] at hno
    cases hno
  | stale =>
    have hcoherent := hrec.sound.coherent
    rw [hc] at hcoherent
    rcases h e he with hp | hlate
    · rw [hcoherent.idle.1 key e hf] at hp
      cases hp
    · rw [hdue] at hlate
      cases hlate

/-- A sweep that nobody vetoes at a standing clock leaves none of its candidates overdue. -/
theorem evictions_clear (hi : Invokes invoke) (host : Host ν η μ) (cs : List (Key × Nat)) :
    ∀ (n : Nat) (w : World ν η μ), w.calls = [] → Recorded w →
      (cs.foldlM (fun (n : Nat) (c : Key × Nat) => do
        match ← expire host invoke c.1 c.2 with
        | .evicted => return n + 1
        | _ => return n) n).Goes 1 .clear w (fun _ => .clear) fun _ w' seg =>
          (∀ l ∈ seg, l.vetoes = false) → w'.now = w.now → ∀ c ∈ cs, ¬Overdue c.1 c.2 w' := by
  induction cs with
  | nil =>
    intro n w _ _
    refine .pure rfl ?_
    intro _ _ c hc
    cases hc
  | cons c cs ih =>
    intro n w hc hrec
    have hev : ∀ key, evicting key w.calls = true := by
      intro key
      rw [hc]
      rfl
    rw [List.foldlM_cons]
    refine Goes.bind (b := fun _ => .clear)
      (P := fun _ v seg => (∀ l ∈ seg, l.vetoes = false) → ¬Overdue c.1 c.2 v) ?_ ?_
    · refine Goes.bind (expire_goes hi host (Nat.le_add_left 1 _) (hev c.1) c.2) ?_
      intro fate v seg hr hfate
      have hcleared : (∀ l ∈ seg, l.vetoes = false) → ¬Overdue c.1 c.2 v := by
        refine hfate.cleared (hrec.moves hr.moves) (hr.calls.trans hc) ?_
        intro l hl
        rw [hr.journal]
        exact List.mem_append_left _ hl
      cases fate <;> exact .pure rfl hcleared
    · intro n' v seg hr hfirst
      refine (ih n' v (hr.calls.trans hc) (hrec.moves hr.moves)).imp ?_
      intro _ w' new hrun hrest hveto hn d hd
      obtain ⟨h1, h2⟩ := Moves.still hr.moves hrun.moves hn
      have hold : ∀ l ∈ seg, l.vetoes = false := fun l hl => hveto l (List.mem_append_right _ hl)
      have hnew : ∀ l ∈ new, l.vetoes = false := fun l hl => hveto l (List.mem_append_left _ hl)
      rcases List.mem_cons.mp hd with rfl | hd
      · exact fun ho => hfirst hold (hrun.moves.overdue h2 ho)
      · exact hrest hnew h2 d hd

/-- A tick that nobody vetoes at a standing clock leaves nothing overdue. -/
theorem tick_clears (hi : Invokes invoke) (hc : w.calls = []) (hrec : Recorded w) :
    (tick host invoke).Goes 1 .clear w (fun _ => .clear) fun _ w' seg =>
      (∀ l ∈ seg, l.vetoes = false) → w'.now = w.now → ∀ key g, ¬Overdue key g w' := by
  unfold tick sweep
  refine Goes.bind (b := fun _ => .clear) (P := fun _ v seg => (∀ l ∈ seg, l.vetoes = false) →
    v.now = w.now → ∀ key g, ¬Overdue key g v) (Goes.bind (candidates_goes host w 1) ?_) ?_
  · rintro cs v seg hr ⟨hcache, hn, hlisted⟩
    refine (evictions_clear hi host cs 0 v (hr.calls.trans hc) (hrec.moves hr.moves)).imp ?_
    intro _ w1 new hrun hclear hveto hn1 key g ho
    have hstill : w1.now = v.now := hn1.trans hn.symm
    have hnew : ∀ l ∈ new, l.vetoes = false := fun l hl => hveto l (List.mem_append_left _ hl)
    -- what is overdue in the end was so when the sweep began, and so it was a candidate
    obtain ⟨e, he, hdue⟩ := (hrun.moves.overdue hstill ho).due
    obtain ⟨hf, hg⟩ := Cache.insertion?_eq_some.mp he
    rw [hcache] at hf
    rw [hn] at hdue
    have hcoherent := hrec.sound.coherent
    rw [hc] at hcoherent
    have hlist := hlisted key e hf (hcoherent.idle.1 key e hf) hdue
    rw [hg] at hlist
    exact hclear hnew hstill (key, g) hlist ho
  · intro _ v seg hr hclear
    refine Goes.cache ?_
    split
    · rename_i hneedless
      refine Goes.change (g := fun _ => Pure.pure ()) (.retire (by simpa using hneedless))
        (.pure rfl ?_)
      intro hveto hn key g ho
      refine hclear (by simpa using hveto) hn key g ?_
      exact ho
    · refine .pure rfl ?_
      intro hveto hn
      exact hclear (by simpa using hveto) hn

/-! ## Panics -/

/-- If the work panics, a line of the journal says so. -/
def Alarmed (x : Act ν η μ α) : Prop :=
  ∀ w, x.Ends w fun r w' => ∀ message, r = .error (.panic message) →
    ∃ l ∈ w'.journal, l.panics = true

theorem Alarmed.bracket {x : Act ν η μ α} {enter leave : World ν η μ → World ν η μ} (h : x.Alarmed)
    (hl : ∀ v, (leave v).journal = v.journal) : (Act.bracket enter leave x).Alarmed := by
  intro w
  refine ends_bracket ((h (enter w)).mono ?_)
  intro r v hv message hm
  rw [hl]
  exact hv message hm

theorem Alarmed.woven (host : Host ν η μ) : Woven host Alarmed where
  pure _ _ _ h := nomatch h
  bind hx hf w := by
    refine (hx w).bind (fun a v _ => hf a v) ?_
    intro e v he message hm
    cases hm
    exact he message rfl
  get _ hg w := hg w w
  consult _ _ _ := ends_consult (fun _ _ _ h => nomatch h) fun _ _ _ _ =>
    ⟨_, List.mem_cons_self .., rfl⟩
  change _ _ _ _ h := nomatch h
  note _ _ _ _ h := nomatch h
  during _ _ _ hx := hx.bracket fun _ => rfl
  deciding _ _ hx := hx.bracket fun _ => rfl

theorem callVia_alarmed (host : Host ν η μ) (perform : Operation ν η → Act ν η μ (Answer ν))
    (c : Callback ν η) : (callVia host perform c).Alarmed := by
  intro w
  unfold callVia
  refine ends_note.mpr (Ends.bind (P := fun r _ => ∀ message, r ≠ .error (.panic message)) ?_ ?_ ?_)
  · refine ends_attempt ((ends_self _ _).mono ?_)
    rintro r v -
    intro message
    cases r with
    | ok a => exact fun h => by cases h
    | error e => cases e <;> exact fun h => by cases h
  · intro r v _
    cases r with
    | ok answer =>
      intro message h
      cases h
    | error text =>
      refine ends_note.mpr (ends_throw.mpr ?_)
      intro message _
      exact ⟨_, List.mem_cons_self .., rfl⟩
  · intro e v hno message h
    cases h
    exact absurd rfl (hno message)

theorem tick_alarmed (ha : ∀ c, (invoke c).Alarmed) (host : Host ν η μ) :
    (tick host invoke).Alarmed := (Alarmed.woven host).tick (fun c _ => ha c) fun _ _ h => nomatch h

end Act

end ExpiringCache
